import Wordcode.Proofs.Accepted
import Wordcode.Proofs.Depths
import Wordcode.Proofs.LineTable

/-!
# Stamps

The first instruction that is added after a change of line carries the line; those behind it carry
none. The instructions of a draft come in the order of its script, so an instruction of the wordcode
has the line at which it was added, provided that the instruction which carries that line is not
left out.
-/

set_option autoImplicit false

namespace Wordcode

namespace Script

/-- The positions of the instructions that a script adds, with the places they get. -/
def spots (log : Script) : List (Nat × Place) :=
  (List.range log.length).filterMap fun m =>
    (log[m]?.bind Item.instruction?).bind fun _ => (place (log.take m)).map (m, ·)

theorem mem_spots {log : Script} {m : Nat} {p : Place} : (m, p) ∈ spots log ↔
    ∃ x i, log[m]? = some x ∧ x.instruction? = some i ∧ place (log.take m) = some p := by
  simp only [spots, List.mem_filterMap, List.mem_range, Option.bind_eq_some_iff,
    Option.map_eq_some_iff, Prod.mk.injEq]
  constructor
  · rintro ⟨m', _, i, ⟨x, hx, hi⟩, q, hq, rfl, rfl⟩
    exact ⟨x, i, hx, hi, hq⟩
  · rintro ⟨x, i, hx, hi, hp⟩
    exact ⟨m, (List.getElem?_eq_some_iff.mp hx).1, i, ⟨x, hx, hi⟩, p, hp, rfl, rfl⟩

theorem pairwise_spots (log : Script) : (spots log).Pairwise (·.1 < ·.1) := by
  refine List.Pairwise.filterMap _ (fun m m' hlt a ha b hb => ?_) List.pairwise_lt_range
  obtain ⟨_, _, ha⟩ := Option.bind_eq_some_iff.mp ha
  obtain ⟨_, _, rfl⟩ := Option.map_eq_some_iff.mp ha
  obtain ⟨_, _, hb⟩ := Option.bind_eq_some_iff.mp hb
  obtain ⟨_, _, rfl⟩ := Option.map_eq_some_iff.mp hb
  exact hlt

theorem spots_concat (log : Script) (x : Item) : spots (log ++ [x]) =
    spots log ++ (x.instruction?.bind fun _ => (place log).map (log.length, ·)).toList := by
  rw [spots, List.length_append, List.length_singleton, List.range_succ, List.filterMap_append]
  congr 1
  · refine List.filterMap_congr fun m hm => ?_
    have hlt := List.mem_range.mp hm
    rw [List.getElem?_append_left hlt, List.take_append_of_le_length (Nat.le_of_lt hlt)]
  · simp only [List.filterMap_cons, List.filterMap_nil, List.getElem?_concat_length, List.take_left,
      Option.bind_some]
    cases x.instruction?.bind fun _ => (place log).map (log.length, ·) <;> rfl

theorem Fresh.of_append {log log' : Script} (h : Fresh (log ++ log')) : Fresh log := by
  induction log' using List.reverseRecOn with
  | nil => rwa [List.append_nil] at h
  | append_singleton log' x ih =>
    rw [← List.append_assoc] at h
    exact ih h.of_concat

theorem mem_spots_of_take {log : Script} {n m : Nat} {p : Place}
    (h : (m, p) ∈ spots (log.take n)) : (m, p) ∈ spots log ∧ m < n := by
  obtain ⟨x, i, hx, hi, hp⟩ := mem_spots.mp h
  rw [List.getElem?_take] at hx
  split at hx
  · next hlt =>
    rw [List.take_take, Nat.min_eq_left (Nat.le_of_lt hlt)] at hp
    exact ⟨mem_spots.mpr ⟨x, i, hx, hi, hp⟩, hlt⟩
  · cases hx

theorem mem_spots_take {log : Script} {n m : Nat} {p : Place} (h : (m, p) ∈ spots log)
    (hlt : m < n) : (m, p) ∈ spots (log.take n) := by
  obtain ⟨x, i, hx, hi, hp⟩ := mem_spots.mp h
  refine mem_spots.mpr ⟨x, i, ?_, hi, ?_⟩
  · rwa [List.getElem?_take_of_lt hlt]
  · rwa [List.take_take, Nat.min_eq_left (Nat.le_of_lt hlt)]

end Script

namespace Graph

theorem places_append (g : Graph) (order order' : List BlockId) :
    g.places (order ++ order') = g.places order ++ g.places order' := List.flatMap_append

theorem places_congr {g g' : Graph} {order : List BlockId}
    (h : ∀ b ∈ order, (g.block b).instructions.size = (g'.block b).instructions.size) :
    g.places order = g'.places order := by
  induction order with
  | nil => rfl
  | cons b order ih =>
    rw [List.forall_mem_cons] at h
    have ih := ih h.2
    simp only [places, List.flatMap_cons, h.1] at ih ⊢
    rw [ih]

theorem places_filter (g : Graph) (order : List BlockId) (live : BlockId → Bool) :
    g.places (order.filter live) = (g.places order).filter fun p => live p.block := by
  induction order with
  | nil => rfl
  | cons b order ih =>
    have hcons : g.places (b :: order) = g.places [b] ++ g.places order := g.places_append [b] order
    have hblock (p : Place) (hp : p ∈ g.places [b]) : p.block = b :=
      List.mem_singleton.mp (mem_places.mp hp).1
    rw [hcons, List.filter_append, ← ih, List.filter_cons]
    cases hb : live b with
    | true =>
      have hall : (g.places [b]).filter (fun p => live p.block) = g.places [b] :=
        List.filter_eq_self.mpr fun p hp => by rw [hblock p hp, hb]
      rw [if_pos rfl, hall]
      exact g.places_append [b] _
    | false =>
      have hnone : (g.places [b]).filter (fun p => live p.block) = [] :=
        List.filter_eq_nil_iff.mpr fun p hp => by rw [hblock p hp, hb]; exact Bool.false_ne_true
      rw [if_neg Bool.false_ne_true, hnone, List.nil_append]

end Graph

namespace Draft

section

variable {name qualname : String} {t : ScopeTable} {serial firstLine : UInt32} {nested : Bool}
  {log : Script} {d : Draft}

/-- Block by block along its labels, a draft holds the instructions in the order in which they were
added. -/
theorem Writes.places_eq (h : (ofTable name qualname t serial firstLine nested).Writes log d)
    (hlog : log.Fresh) :
    Graph.places d.blocks (entry :: log.labels) = log.spots.map Prod.snd := by
  induction h with
  | nil => rfl
  | quiet _ _ hblocks _ _ _ ih =>
    rw [hblocks]
    exact ih hlog
  | @alloc log d₁ _ ih =>
    rw [Script.spots_concat, Script.labels_append, show Script.labels [Item.alloc] = [] from rfl,
      List.append_nil, Graph.places_congr fun b _ =>
        congrArg (·.instructions.size) (block_newBlock d₁ b)]
    exact (ih hlog.of_concat).trans (by simp [Item.instruction?])
  | @label log d₁ b hw ih =>
    have htraces := hw.traces hlog.of_concat
    have hnodup := hlog.nodup
    rw [Script.labels_append, show Script.labels [Item.label b] = [b] from rfl,
      ← List.cons_append] at hnodup ⊢
    have hnew : b ∉ entry :: log.labels := fun hb =>
      (List.nodup_append.mp hnodup).2.2 b hb b List.mem_cons_self rfl
    have hsize (c : BlockId) : (((d₁.fallInto b).block c).instructions.size) =
        ((d₁.block c).instructions.size) := by
      rw [block_fallInto htraces.current_lt]
      split
      · next hc =>
        rw [hc]
        rfl
      · rfl
    have hempty : Graph.places (d₁.fallInto b).blocks [b] = [] := by
      rw [Graph.places_congr fun c _ => hsize c, Graph.places, List.flatMap_singleton,
        show Graph.block d₁.blocks b = d₁.block b from rfl, htraces.untouched b hnew]
      rfl
    rw [Script.spots_concat, Graph.places_append, hempty, List.append_nil,
      Graph.places_congr fun c _ => hsize c]
    exact (ih hlog.of_concat).trans (by simp [Item.instruction?])
  | @code log d₁ item i hw hi _ ih =>
    have htraces := hw.traces hlog.of_concat
    have hlabels : Script.labels (log ++ [item]) = log.labels := by
      simp [Script.labels, Item.label?_of_instruction hi]
    rw [Script.spots_concat, hlabels, hi, Option.bind_some, List.map_append, ← ih hlog.of_concat,
      htraces.place_eq]
    by_cases hterm : d₁.currentBlock.terminal = true
    · rw [show d₁.append i = d₁ by simp [Draft.append, hterm], if_pos hterm]
      simp
    · have hopen := Bool.eq_false_iff.mpr hterm
      have hblock := block_append_eq htraces.current_lt hopen i
      obtain ⟨init, hinit⟩ := List.getLast?_eq_some_iff.mp (hw.path hlog.of_concat).2
      have hnodup := hlog.of_concat.nodup
      rw [hinit, List.nodup_append] at hnodup
      rw [if_neg hterm, hinit, Graph.places_append, Graph.places_append, List.append_assoc]
      congr 1
      · refine Graph.places_congr fun b hb => ?_
        have hne : b ≠ d₁.current := hnodup.2.2 b hb _ List.mem_cons_self
        exact congrArg (·.instructions.size) ((hblock b).trans (if_neg hne))
      · have hcurrent : (d₁.append i).block d₁.current = d₁.currentBlock.push (d₁.stampedWith i) :=
          (hblock _).trans (if_pos rfl)
        simp only [Graph.places, List.flatMap_singleton]
        rw [show Graph.block (d₁.append i).blocks d₁.current = (d₁.append i).block d₁.current from rfl,
          hcurrent]
        simp only [Block.push, Array.size_push, List.range_succ, List.map_append]
        rfl
  | @intern log d₁ c _ ih =>
    rw [Script.spots_concat, Script.labels_append, show Script.labels [Item.intern c] = [] from rfl,
      List.append_nil]
    exact (ih hlog.of_concat).trans (by simp [Item.instruction?])

/-- What a position of a script adds is found at the place of the position. -/
theorem Writes.instruction_of_spot (h : (ofTable name qualname t serial firstLine nested).Writes log d)
    (hlog : log.Fresh) {m : Nat} {p : Place} (hp : (m, p) ∈ log.spots) :
    ∃ i, Graph.instruction? d.blocks p = some i := by
  obtain ⟨x, i, hx, hi, hplace⟩ := Script.mem_spots.mp hp
  obtain ⟨line, hline⟩ := (h.traces hlog).code m x i p hx hi hplace
  exact ⟨_, hline⟩

/-- Adding an instruction leaves the others where they are. -/
theorem instruction?_append_of_some (hcurrent : d.current < d.blocks.size) (i : Instruction)
    {p : Place} {j : Instruction} (hj : Graph.instruction? d.blocks p = some j) :
    Graph.instruction? (d.append i).blocks p = some j := by
  by_cases hterm : d.currentBlock.terminal = true
  · rwa [show d.append i = d by simp [Draft.append, hterm]]
  · have hblock := block_append_eq hcurrent (Bool.eq_false_iff.mpr hterm) i p.block
    unfold Graph.instruction? at hj ⊢
    rw [show Graph.block (d.append i).blocks p.block = (d.append i).block p.block from rfl, hblock]
    split
    · next hb =>
      rw [show Graph.block d.blocks p.block = d.currentBlock by rw [hb]; rfl] at hj
      obtain ⟨hlt, heq⟩ := Array.getElem?_eq_some_iff.mp hj
      rw [Block.push, Array.getElem?_push_lt hlt, heq]
    · exact hj

theorem Writes.keeps_instruction {log' : Script} {d' : Draft}
    (h : (ofTable name qualname t serial firstLine nested).Writes log d) (h' : d.Writes log' d')
    (hlog : Script.Fresh (log ++ log')) {p : Place} {i : Instruction}
    (hi : Graph.instruction? d.blocks p = some i) : Graph.instruction? d'.blocks p = some i := by
  induction h' with
  | nil => exact hi
  | quiet _ _ hblocks _ _ _ ih =>
    rw [hblocks]
    exact ih hlog
  | @alloc log' d₁ _ ih =>
    rw [← List.append_assoc] at hlog
    have hblock := block_newBlock d₁ p.block
    unfold Graph.instruction? at ih ⊢
    rw [show Graph.block d₁.newBlock.2.blocks p.block = d₁.newBlock.2.block p.block from rfl, hblock]
    exact ih hlog.of_concat
  | @label log' d₁ b hw ih =>
    rw [← List.append_assoc] at hlog
    have htraces := (h.trans hw).traces hlog.of_concat
    have hblock := block_fallInto htraces.current_lt b p.block
    have ih := ih hlog.of_concat
    unfold Graph.instruction? at ih ⊢
    rw [show Graph.block (d₁.fallInto b).blocks p.block = (d₁.fallInto b).block p.block from rfl,
      hblock]
    split
    · next hb =>
      rw [show Graph.block d₁.blocks p.block = d₁.currentBlock by rw [hb]; rfl] at ih
      exact ih
    · exact ih
  | @code log' d₁ item j hw _ _ ih =>
    rw [← List.append_assoc] at hlog
    have htraces := (h.trans hw).traces hlog.of_concat
    exact instruction?_append_of_some htraces.current_lt j (ih hlog.of_concat)
  | @intern log' d₁ c _ ih =>
    rw [← List.append_assoc] at hlog
    exact ih hlog.of_concat

/-- An instruction that is not dropped is stamped with the line if that was still to be done. -/
theorem stamp_append (h : d.Traces log) {p : Place} (hp : log.place = some p) {i : Instruction}
    (hi : i.line = 0) :
    Graph.stamp (d.append i).blocks p = if d.stamped then 0 else d.line := by
  rw [h.place_eq] at hp
  split at hp
  · cases hp
  · next hterm =>
    cases hp
    have hblock := block_append_eq h.current_lt (Bool.eq_false_iff.mpr hterm) i d.current
    rw [if_pos rfl] at hblock
    rw [Graph.stamp, Graph.instruction?,
      show Graph.block (d.append i).blocks d.current = (d.append i).block d.current from rfl, hblock,
      Block.push, Array.getElem?_push_size, Option.map_some, Option.getD_some, stampedWith, hi]

/-- Stamps stay. -/
theorem Writes.keeps_stamp {log' : Script} {d' : Draft}
    (h : (ofTable name qualname t serial firstLine nested).Writes log d) (h' : d.Writes log' d')
    (hlog : Script.Fresh (log ++ log')) {m : Nat} {p : Place} (hp : (m, p) ∈ log.spots) :
    Graph.stamp d'.blocks p = Graph.stamp d.blocks p := by
  obtain ⟨i, hi⟩ := h.instruction_of_spot hlog.of_append hp
  rw [Graph.stamp, Graph.stamp, hi, h.keeps_instruction h' hlog hi]

theorem line_of_instruction {x : Item} {i : Instruction} (h : x.instruction? = some i) :
    i.line = 0 := by
  cases x <;> cases h <;> rfl

/-- A draft whose line is stamped already holds an instruction with that stamp, and none behind it
has another. -/
theorem Writes.exists_stamp (h : (ofTable name qualname t serial firstLine nested).Writes log d)
    (hlog : log.Fresh) (hstamped : d.stamped = true) : ∃ k p, (k, p) ∈ log.spots ∧
      Graph.stamp d.blocks p = d.line ∧
      ∀ k' p', (k', p') ∈ log.spots → k < k' → Graph.stamp d.blocks p' = 0 := by
  induction h with
  | nil => cases hstamped
  | quiet _ _ hblocks _ _ hline ih =>
    obtain ⟨hbefore, heq⟩ := hline hstamped
    rw [hblocks, heq]
    exact ih hlog hbefore
  | @alloc log d₁ hw ih =>
    obtain ⟨k, p, hp, hstamp, hlast⟩ := ih hlog.of_concat hstamped
    have hkeeps {m : Nat} {q : Place} (hq : (m, q) ∈ log.spots) :=
      hw.keeps_stamp (Writes.nil.alloc) hlog hq
    rw [Script.spots_concat, show Item.instruction? .alloc = none from rfl, Option.bind_none,
      Option.toList_none, List.append_nil]
    exact ⟨k, p, hp, (hkeeps hp).trans hstamp, fun k' p' hp' hlt =>
      (hkeeps hp').trans (hlast k' p' hp' hlt)⟩
  | @label log d₁ b hw ih =>
    obtain ⟨k, p, hp, hstamp, hlast⟩ := ih hlog.of_concat hstamped
    have hkeeps {m : Nat} {q : Place} (hq : (m, q) ∈ log.spots) :=
      hw.keeps_stamp (Writes.nil.label b) hlog hq
    rw [Script.spots_concat, show Item.instruction? (.label b) = none from rfl, Option.bind_none,
      Option.toList_none, List.append_nil]
    exact ⟨k, p, hp, (hkeeps hp).trans hstamp, fun k' p' hp' hlt =>
      (hkeeps hp').trans (hlast k' p' hp' hlt)⟩
  | @intern log d₁ c hw ih =>
    obtain ⟨k, p, hp, hstamp, hlast⟩ := ih hlog.of_concat hstamped
    rw [Script.spots_concat, show Item.instruction? (.intern c) = none from rfl, Option.bind_none,
      Option.toList_none, List.append_nil]
    exact ⟨k, p, hp, hstamp, hlast⟩
  | @code log d₁ x i hw hi hr ih =>
    have htraces := hw.traces hlog.of_concat
    rw [Script.spots_concat, hi, Option.bind_some]
    cases hplace : log.place with
    | none =>
      have hterm : d₁.currentBlock.terminal = true := by
        by_contra hopen
        rw [htraces.place_eq, if_neg hopen] at hplace
        cases hplace
      rw [show d₁.append i = d₁ by simp [Draft.append, hterm]] at hstamped ⊢
      rw [Option.map_none, Option.toList_none, List.append_nil]
      exact ih hlog.of_concat hstamped
    | some q =>
      have hkeeps {m : Nat} {p : Place} (hp : (m, p) ∈ log.spots) :=
        hw.keeps_stamp (Writes.nil.code hi hr) hlog hp
      have hnew := stamp_append htraces hplace (line_of_instruction hi)
      have hline : (d₁.append i).line = d₁.line := by
        unfold Draft.append
        split <;> rfl
      rw [Option.map_some, Option.toList_some, hline]
      cases hbefore : d₁.stamped with
      | false =>
        rw [hbefore] at hnew
        refine ⟨log.length, q, by simp, hnew, fun k' p' hp' hlt => ?_⟩
        rcases List.mem_append.mp hp' with hp' | hp'
        · obtain ⟨_, _, hx, _⟩ := Script.mem_spots.mp hp'
          have := (List.getElem?_eq_some_iff.mp hx).1
          omega
        · cases List.mem_singleton.mp hp'
          omega
      | true =>
        rw [hbefore] at hnew
        obtain ⟨k, p, hp, hstamp, hlast⟩ := ih hlog.of_concat hbefore
        refine ⟨k, p, List.mem_append_left _ hp, (hkeeps hp).trans hstamp, fun k' p' hp' hlt => ?_⟩
        rcases List.mem_append.mp hp' with hp' | hp'
        · exact (hkeeps hp').trans (hlast k' p' hp' hlt)
        · cases List.mem_singleton.mp hp'
          exact hnew

/-- The draft right before the instruction at a position of a script was added. -/
structure Emitted (d₀ : Draft) (log : Script) (d : Draft) (m : Nat) (d₁ : Draft) : Prop where
  before : d₀.Writes (log.take m) d₁
  after : ∃ x i, log[m]? = some x ∧ x.instruction? = some i ∧ d₁.Resolves x ∧
    (d₁.append i).Writes (log.drop (m + 1)) d

end

theorem Emitted.concat {d₀ d d' d₁ : Draft} {log : Script} {m : Nat} (h : d₀.Emitted log d m d₁)
    {x : Item} (h' : d.Writes [x] d') : d₀.Emitted (log ++ [x]) d' m d₁ := by
  obtain ⟨hbefore, y, i, hy, hi, hr, hafter⟩ := h
  have hlt := (List.getElem?_eq_some_iff.mp hy).1
  refine ⟨?_, y, i, ?_, hi, hr, ?_⟩
  · rwa [List.take_append_of_le_length (Nat.le_of_lt hlt)]
  · rwa [List.getElem?_append_left hlt]
  · rw [List.drop_append_of_le_length hlt]
    exact hafter.trans h'

theorem Writes.exists_emitted {d₀ d : Draft} {log : Script} (h : d₀.Writes log d) {m : Nat} {x : Item}
    {i : Instruction} (hx : log[m]? = some x) (hi : x.instruction? = some i) :
    ∃ d₁, d₀.Emitted log d m d₁ := by
  induction h with
  | nil => cases hx
  | quiet _ he hb hc hk hs ih =>
    obtain ⟨d₁, hbefore, y, j, hy, hj, hr, hafter⟩ := ih hx
    exact ⟨d₁, hbefore, y, j, hy, hj, hr, .quiet hafter he hb hc hk hs⟩
  | alloc _ ih =>
    rcases getElem?_concat hx with ⟨hx, _⟩ | ⟨_, rfl⟩
    · obtain ⟨d₁, h⟩ := ih hx
      exact ⟨d₁, h.concat Writes.nil.alloc⟩
    · cases hi
  | label b _ ih =>
    rcases getElem?_concat hx with ⟨hx, _⟩ | ⟨_, rfl⟩
    · obtain ⟨d₁, h⟩ := ih hx
      exact ⟨d₁, h.concat (Writes.nil.label b)⟩
    · cases hi
  | intern c _ ih =>
    rcases getElem?_concat hx with ⟨hx, _⟩ | ⟨_, rfl⟩
    · obtain ⟨d₁, h⟩ := ih hx
      exact ⟨d₁, h.concat (Writes.nil.intern c)⟩
    · cases hi
  | @code log d₁ item j hw hj hr ih =>
    rcases getElem?_concat hx with ⟨hx, _⟩ | ⟨rfl, rfl⟩
    · obtain ⟨d₂, h⟩ := ih hx
      exact ⟨d₂, h.concat (Writes.nil.code hj hr)⟩
    · refine ⟨d₁, ?_, x, j, hx, hj, hr, ?_⟩
      · rwa [List.take_left]
      · rw [List.drop_of_length_le (by simp)]
        exact .nil

section

variable {name qualname : String} {t : ScopeTable} {serial firstLine : UInt32} {nested : Bool}
  {log : Script} {d d₁ : Draft} {m : Nat} {p : Place}

/-- The line at which an instruction is added is carried by that instruction or by one before it,
and no instruction from there on up to it carries another. -/
theorem Emitted.exists_stamp
    (h : (ofTable name qualname t serial firstLine nested).Emitted log d m d₁) (hlog : log.Fresh)
    (hp : (m, p) ∈ log.spots) : ∃ k q, (k, q) ∈ log.spots ∧ k ≤ m ∧
      Graph.stamp d.blocks q = d₁.line ∧
      ∀ k' q', (k', q') ∈ log.spots → k < k' → k' ≤ m → Graph.stamp d.blocks q' = 0 := by
  obtain ⟨hbefore, x, i, hx, hi, hr, hafter⟩ := h
  obtain ⟨_, _, _, _, hplace⟩ := Script.mem_spots.mp hp
  have htake : log.take (m + 1) = log.take m ++ [x] := by
    rw [List.take_add_one, hx, Option.toList_some]
  have hwhole : Script.Fresh (log.take (m + 1) ++ log.drop (m + 1)) := by
    rwa [List.take_append_drop]
  have hfresh : Script.Fresh (log.take m ++ [x]) := htake ▸ hwhole.of_append
  have hadded := hbefore.code hi hr
  have hkeeps {k : Nat} {q : Place} (hq : (k, q) ∈ log.spots) (hk : k < m + 1) :
      Graph.stamp d.blocks q = Graph.stamp (d₁.append i).blocks q := by
    rw [← htake] at hadded
    exact hadded.keeps_stamp hafter hwhole (Script.mem_spots_take hq hk)
  have hnew := stamp_append (hbefore.traces hfresh.of_append) hplace (line_of_instruction hi)
  cases hstamped : d₁.stamped with
  | false =>
    rw [hstamped] at hnew
    exact ⟨m, p, hp, Nat.le_refl m, (hkeeps hp (Nat.lt_succ_self m)).trans hnew, by omega⟩
  | true =>
    rw [hstamped] at hnew
    obtain ⟨k, q, hq, hstamp, hlast⟩ := hbefore.exists_stamp hfresh.of_append hstamped
    have hold {k' : Nat} {q' : Place} (hq' : (k', q') ∈ Script.spots (log.take m)) :
        Graph.stamp d.blocks q' = Graph.stamp d₁.blocks q' := by
      obtain ⟨hmem, hlt⟩ := Script.mem_spots_of_take hq'
      exact (hkeeps hmem (by omega)).trans
        (hbefore.keeps_stamp (Writes.nil.code hi hr) hfresh hq')
    obtain ⟨hmem, hlt⟩ := Script.mem_spots_of_take hq
    refine ⟨k, q, hmem, Nat.le_of_lt hlt, (hold hq).trans hstamp, fun k' q' hq' hk hk' => ?_⟩
    rcases Nat.lt_or_eq_of_le hk' with hk' | rfl
    · have hq' := Script.mem_spots_take hq' hk'
      exact (hold hq').trans (hlast k' q' hq' hk)
    · -- The places of one position agree, so this is the instruction itself.
      obtain ⟨_, _, _, _, hplace'⟩ := Script.mem_spots.mp hq'
      cases hplace.symm.trans hplace'
      exact (hkeeps hp (Nat.lt_succ_self _)).trans hnew

end

/-- The wordcode of a script holds the instructions at the positions `kept`, in this order. -/
structure Keeps (log : Script) (kept : List (Nat × Place)) (code : List Decoded) : Prop where
  sublist : kept.Sublist log.spots
  length_eq : kept.length = code.length
  item : ∀ (j : Nat) (e : Decoded) (m : Nat) (p : Place), code[j]? = some e →
    kept[j]? = some (m, p) → ∃ x i, log[m]? = some x ∧ x.instruction? = some i ∧
      e.opcode = i.opcode ∧ (i.target = none → e.arg = i.arg)

/-- The last instruction with a stamp, up to a position of the script, is kept. -/
def KeepsStamp (d : Draft) (log : Script) (kept : List (Nat × Place)) (m : Nat) : Prop :=
  ∃ k q, (k, q) ∈ kept ∧ k ≤ m ∧ Graph.stamp d.blocks q ≠ 0 ∧
    ∀ k' q', (k', q') ∈ log.spots → k < k' → k' ≤ m → Graph.stamp d.blocks q' = 0

section

variable {name qualname : String} {t : ScopeTable} {serial firstLine : UInt32} {nested : Bool}
  {log : Script} {d : Draft} {addNone : Bool} {filename : String} {c : CodeObject}

/-- An instruction has the line of the last stamp that is kept, up to its own. -/
theorem Writes.exists_kept (h : (ofTable name qualname t serial firstLine nested).Writes log d)
    (hlog : log.Sound d.blocks.size) (hc : d.assemble addNone filename = .ok c) :
    ∃ (tail : Script) (kept : List (Nat × Place)) (code : List Decoded),
      (ofTable name qualname t serial firstLine nested).Writes (log ++ tail) (d.close addNone) ∧
      Script.Fresh (log ++ tail) ∧
      (tail = [] ∨ ∃ arg, tail = Script.closing d.blocks.size addNone arg) ∧
      decode c.code = .ok code ∧ Keeps (log ++ tail) kept code ∧
      ∀ j e, code[j]? = some e → c.lineAt? e.offset =
        some (Lines.carry (d.close addNone).startLine ((kept.take (j + 1)).map fun p =>
          Graph.stamp (d.close addNone).blocks p.2)) := by
  obtain ⟨tail, hw, hsound, hend, htail⟩ := h.exists_closed hlog addNone
  have htraces := hw.traces hsound.fresh
  obtain ⟨order, code, hlaid, hcode, horder, hlines⟩ :=
    laid_of_assemble (h.sound hlog) hc (htraces.linked_of_reaches hsound hend)
  obtain ⟨hlayout, _⟩ := hw.layout_eq hsound
  let kept := (Script.spots (log ++ tail)).filter fun p =>
    (reachable (d.close addNone).blocks entry).getD p.2.block false
  have hplaces : Graph.places (d.close addNone).blocks order = kept.map Prod.snd := by
    rw [horder, hlayout, Graph.places_filter, hw.places_eq hsound.fresh, List.filter_map]
    rfl
  have hrealizes := hlaid.realizes
  refine ⟨tail, kept, decodedBody 0 (code.flatMap Placed.body), hw, hsound.fresh, htail, ?_,
    ⟨List.filter_sublist, ?_, ?_⟩, ?_⟩
  · rw [hcode]
    exact decode_bodyBytes (hlaid.sound.not_widening hlaid.alike)
  · rw [hrealizes.length_eq, hplaces, List.length_map]
  · intro j e m p he hp
    have hplace : (Graph.places (d.close addNone).blocks order)[j]? = some p := by
      rw [hplaces, List.getElem?_map, hp]
      rfl
    obtain ⟨i, e', hi, he', hop, harg⟩ := hrealizes.agrees j p hplace
    cases he.symm.trans he'
    obtain ⟨x, i', hx, hxi, hm⟩ := Script.mem_spots.mp (List.mem_of_mem_filter (List.mem_of_getElem? hp))
    obtain ⟨line, hline⟩ := htraces.code m x i' p hx hxi hm
    cases hi.symm.trans hline
    exact ⟨x, i', hx, hxi, hop, harg⟩
  · intro j e he
    rw [getElem?_decodedBody] at he
    obtain ⟨i, hi, rfl⟩ := Option.map_eq_some_iff.mp he
    have hsmall := length_code_lt hc
    rw [hcode, length_bodyBytes] at hsmall
    have hlists := Assembly.Output.lists_foldl_write (d.close addNone).startLine hsmall
    rw [Nat.zero_add, CodeObject.lineAt?, hlines]
    refine (hlists.lookup_eq j (List.getElem?_eq_some_iff.mp hi).1).trans ?_
    rw [List.map_take, map_line_flatMap_body hlaid.alike, hplaces, List.map_map, List.map_take]
    rfl

/-- The line of an instruction is the one at which it was added, if the instruction that carries
this line is kept. -/
theorem Emitted.carry_eq {d₁ : Draft} {kept : List (Nat × Place)} {code : List Decoded} {j m : Nat}
    {p : Place} (h : (ofTable name qualname t serial firstLine nested).Emitted log d m d₁)
    (hlog : log.Fresh) (hkeeps : Keeps log kept code) (hp : kept[j]? = some (m, p))
    (hstamp : d.KeepsStamp log kept m) (hline : d₁.line ≠ 0) (first : UInt32) :
    Lines.carry first ((kept.take (j + 1)).map fun p => Graph.stamp d.blocks p.2) = d₁.line := by
  have hmem := hkeeps.sublist.subset (List.mem_of_getElem? hp)
  have hsorted := (Script.pairwise_spots log).sublist hkeeps.sublist
  have hrises {i k : Nat} {x y : Nat × Place} (hx : kept[i]? = some x) (hy : kept[k]? = some y)
      (hlt : i < k) : x.1 < y.1 := by
    obtain ⟨hi, rfl⟩ := List.getElem?_eq_some_iff.mp hx
    obtain ⟨hk, rfl⟩ := List.getElem?_eq_some_iff.mp hy
    exact List.pairwise_iff_getElem.mp hsorted i k hi hk hlt
  obtain ⟨k, q, hq, hkm, hcarried, hnone⟩ := h.exists_stamp hlog hmem
  obtain ⟨k', q', hq', hkm', hne, hlast⟩ := hstamp
  have hspot := hkeeps.sublist.subset hq'
  -- the instruction that is kept is the one that carries the line
  obtain rfl : k = k' := by
    rcases Nat.lt_trichotomy k k' with hlt | heq | hlt
    · exact absurd (hnone k' q' hspot hlt hkm') hne
    · exact heq
    · exact absurd (hcarried.symm.trans (hlast k q hq hlt hkm)) hline
  obtain rfl : q = q' := by
    obtain ⟨_, _, _, _, hplace⟩ := Script.mem_spots.mp hq
    obtain ⟨_, _, _, _, hplace'⟩ := Script.mem_spots.mp hspot
    exact Option.some.inj (hplace.symm.trans hplace')
  obtain ⟨i, hi⟩ := List.getElem?_of_mem hq'
  have hij : i ≤ j := by
    by_contra hlt
    have := hrises hp hi (Nat.lt_of_not_le hlt)
    omega
  rw [List.map_take]
  refine Lines.carry_take ?_ hline hij fun n hn hnj => ?_
  · rw [List.getElem?_map, hi, Option.map_some, hcarried]
  · rw [List.getD_eq_getElem?_getD, List.getElem?_map]
    cases hnth : kept[n]? with
    | none => rfl
    | some x =>
      refine hnone x.1 x.2 (hkeeps.sublist.subset (List.mem_of_getElem? hnth)) (hrises hi hnth hn) ?_
      rcases Nat.lt_or_eq_of_le hnj with hlt | rfl
      · exact Nat.le_of_lt (hrises hnth hp hlt)
      · cases hnth.symm.trans hp
        exact Nat.le_refl _

end

end Draft

/-- What the lines of a code object are, in terms of the script `log` by which the draft `d` that was
assembled was written from `d₀` on. An instruction has the line of the last stamp up to its own of
those that are kept. This is the line that was current when the instruction was added, if the last
stamp of all up to its own is kept. -/
def CodeObject.CarriesLines (c : CodeObject) (d₀ d : Draft) (log : Script) : Prop :=
  ∃ (kept : List (Nat × Place)) (code : List Decoded), d₀.Writes log d ∧
    Wordcode.decode c.code = .ok code ∧ Draft.Keeps log kept code ∧
    ∀ j e m p, code[j]? = some e → kept[j]? = some (m, p) →
      (∃ d₁, d₀.Emitted log d m d₁) ∧
      c.lineAt? e.offset = some (Lines.carry d.startLine ((kept.take (j + 1)).map fun q =>
        Graph.stamp d.blocks q.2)) ∧
      ∀ d₁, d₀.Emitted log d m d₁ → d₁.line ≠ 0 → d.KeepsStamp log kept m →
        c.lineAt? e.offset = some d₁.line

/-- The code object of a run carries the lines at which the run added its instructions. Behind the
script of the run stands only what returns from the scope. -/
def ScopeRun.CarriesLines (r : ScopeRun) : Prop :=
  ∃ tail : Script, (tail = [] ∨ ∃ arg, tail = Script.closing r.last.draft.blocks.size r.addNone arg) ∧
    r.code.CarriesLines r.first.draft (r.last.draft.close r.addNone) (r.log ++ tail)

section

variable {o : Options} {p : Program} {t : ScopeTable}

theorem ScopeRun.Within.carriesLines {r : ScopeRun} (h : r.Within o p t) : r.CarriesLines := by
  obtain ⟨hr, ⟨_, _, _, _, _, hopened⟩, _⟩ := h
  have hw := hr.runs.writes
  rw [ScopeRun.CarriesLines, hopened]
  rw [hopened] at hw
  obtain ⟨tail, kept, code, hwrites, hfresh, htail, hdecode, hkeeps, hlines⟩ :=
    hw.exists_kept (hr.emits.sound (r.source.closed o _) hr.runs.writes (hopened ▸ rfl))
      (Draft.of_finish_ok hr.finish)
  refine ⟨tail, htail, kept, code, hwrites, hdecode, hkeeps, fun j e m p he hp => ⟨?_, ?_⟩⟩
  · obtain ⟨x, i, hx, hi, _⟩ := hkeeps.item j e m p he hp
    exact hwrites.exists_emitted hx hi
  · refine ⟨hlines j e he, fun d₁ hemitted hline hstamp => ?_⟩
    rw [hlines j e he, hemitted.carry_eq hfresh hkeeps hp hstamp hline]

/-- Line attribution. Every code object that compiling a program makes is what the run of the program,
or of a scope entered within it, was finished to. In the code of every such run an instruction has the
line that was current when the run added it, unless the instruction that was to carry this line was
left out. -/
theorem compile_carriesLines {c : CodeObject} (h : compile p t o = .ok c) :
    (∀ c', c.Yields p.Quotes c' → ∃ r, p.HasRun o t r ∧ r.code = c') ∧
      ∀ r, p.HasRun o t r → r.CarriesLines :=
  ⟨fun _ => exists_hasRun h, fun _ hrun => hrun.within.carriesLines⟩

end

theorem searchProgram_carriesLines : ∃ c, compile searchProgram searchTable {} = .ok c ∧
    (∀ c', c.Yields searchProgram.Quotes c' → ∃ r, searchProgram.HasRun {} searchTable r ∧
      r.code = c') ∧
    ∀ r, searchProgram.HasRun {} searchTable r → r.CarriesLines := by
  obtain ⟨c, hc⟩ := exists_compile_searchProgram
  exact ⟨c, hc, compile_carriesLines hc⟩

open Build

/-- The code of a `try` statement without handlers, up to the instruction that raises again what the
final body was entered with. -/
def Stmt.untilReraise (o : Options) (frames : List Frame) (body finalbody : List Stmt) :
    Build BlockId := do
  let inside ← newBlock
  let final ← newBlock
  let exit ← newBlock
  emitJump .setupFinally final
  fallInto inside
  Stmt.lowerAll o (.finallyTry finalbody :: frames) body
  emit .popBlock
  Stmt.lowerAll o frames finalbody
  emitJump .jumpForward exit
  fallInto final
  Stmt.lowerAll o (.finallyEnd :: frames) finalbody
  return exit

theorem Stmt.lower_tryFinally (o : Options) (frames : List Frame) (line : UInt32)
    (body : List Stmt) (s : Stmt) (ss : List Stmt) :
    Stmt.lower o frames (.tryExcept line body [] [] (s :: ss)) =
      inStatement line (do
        let exit ← untilReraise o frames body (s :: ss)
        emit .reraise
        fallInto exit) := by
  rw [Stmt.lower.eq_def]
  simp [untilReraise, Stmt.line]

/-- The line at hand after a build. -/
def Build.lineAfter? {α : Type} (b : Build α) (s : Session) : Option UInt32 :=
  match b s with
  | .ok _ s' => some s'.draft.line
  | .error .. => none

theorem Build.of_lineAfter? {α : Type} {b : Build α} {s : Session} {line : UInt32}
    (h : b.lineAfter? s = some line) : ∃ a s', b s = .ok a s' ∧ s'.draft.line = line := by
  unfold lineAfter? at h
  split at h
  · next a s' hrun => exact ⟨a, s', hrun, Option.some.inj h⟩
  · cases h

/-- The lines of the instructions with an opcode, in what the draft of a build is finished to. -/
def Build.linesOf? {α : Type} (b : Build α) (s : Session) (op : Opcode) :
    Option (List (Option UInt32)) :=
  match b s with
  | .ok _ s' =>
    match s'.draft.finish true "" with
    | .ok c =>
      match decode c.code with
      | .ok code => some ((code.filter (·.opcode = op)).map fun e => c.lineAt? e.offset)
      | .error _ => none
    | .error _ => none
  | .error .. => none

theorem Build.of_linesOf? {α : Type} {b : Build α} {s : Session} {op : Opcode}
    {lines : List (Option UInt32)} (h : b.linesOf? s op = some lines) : ∃ a s' c code,
      b s = .ok a s' ∧ s'.draft.finish true "" = .ok c ∧ decode c.code = .ok code ∧
      (code.filter (·.opcode = op)).map (fun e => c.lineAt? e.offset) = lines := by
  unfold linesOf? at h
  split at h
  · next a s' hrun =>
    split at h
    · next c hfinish =>
      split at h
      · next code hdecode => exact ⟨a, s', c, code, hrun, hfinish, hdecode, Option.some.inj h⟩
      · cases h
    · cases h
  · cases h

def guardedReturn : List Stmt := [.ret 3 (some (.name 3 "a" .load))]

def branchingFinal : List Stmt :=
  [.expr 5 (.boolOp 5 .and [.name 5 "b" .load, .name 5 "c" .load])]

def functionSession : Session := ⟨.ofTable "f" "f" (.function "f" 1) 1 1 false, 2⟩

/-- The line of a branching final body, which is the line at hand when the code that raises again is
added, is carried by an instruction of the copy that no control gets to, and so it is lost. -/
theorem reraise_loses_line : ∃ exit before after c code e,
    Stmt.lower {} [] (.tryExcept 2 guardedReturn [] [] branchingFinal) = inStatement 2 (do
      let exit ← Stmt.untilReraise {} [] guardedReturn branchingFinal
      emit .reraise
      fallInto exit) ∧
    (do setLine 2; Stmt.untilReraise {} [] guardedReturn branchingFinal) functionSession =
      .ok exit before ∧ before.draft.line = 5 ∧
    Stmt.lower {} [] (.tryExcept 2 guardedReturn [] [] branchingFinal) functionSession =
      .ok () after ∧
    after.draft.finish true "" = .ok c ∧ decode c.code = .ok code ∧
    code.filter (·.opcode = .reraise) = [e] ∧ c.lineAt? e.offset = some 3 := by
  have hline : (do setLine 2; Stmt.untilReraise {} [] guardedReturn branchingFinal).lineAfter?
      functionSession = some 5 := by
    decide +kernel
  have hlines : (Stmt.lower {} [] (.tryExcept 2 guardedReturn [] [] branchingFinal)).linesOf?
      functionSession .reraise = some [some 3] := by
    decide +kernel
  obtain ⟨exit, before, hbefore, hline⟩ := of_lineAfter? hline
  obtain ⟨_, after, c, code, hrun, hfinish, hdecode, hlines⟩ := of_linesOf? hlines
  obtain ⟨e, he, hat⟩ := List.map_eq_singleton_iff.mp hlines
  exact ⟨exit, before, after, c, code, e, Stmt.lower_tryFinally .., hbefore, hline, hrun, hfinish,
    hdecode, he, hat⟩

end Wordcode
