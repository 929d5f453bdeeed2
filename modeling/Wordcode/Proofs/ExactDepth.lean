import Wordcode.Proofs.StackDepth

/-!
# The greatest depth as a number

The walk for the stack depth counts in machine words, takes blocks from a list of those still to
walk, and comes to each block over one edge only. It ends after no more rounds than there are
blocks, whatever the graph; and where depths can be given to the blocks that agree with every edge
and no depth on the way leaves the range of a word, it finds the greatest of these depths, or names
an instruction that makes one negative.
-/

set_option autoImplicit false

namespace Wordcode

theorem toInt_add_of_inWord {w v : Int32} (h : InWord (w.toInt + v.toInt)) :
    (w + v).toInt = w.toInt + v.toInt := by
  obtain ⟨hle, hlt⟩ := inWord_iff.mp h
  rw [Int32.toInt_add, Int.bmod_def]
  split <;> omega

namespace StackDepth

/-- The exact depth behind instructions that start at the depth `x`. -/
def exactAlong (x : Int) (is : List Instruction) : Int :=
  is.foldl (fun x i => x + i.change false) x

theorem exactAlong_take_succ {is : List Instruction} {k : Nat} {i : Instruction}
    (h : is[k]? = some i) (x : Int) :
    exactAlong x (is.take (k + 1)) = exactAlong x (is.take k) + i.change false := by
  rw [List.take_add_one, h, Option.toList_some, exactAlong, List.foldl_append]
  rfl

/-- Where no depth behind an instruction leaves the range of a word, words are exact. -/
theorem toInt_along {w : Int32} {is : List Instruction} (hcomputes : ∀ i ∈ is, i.Computes false)
    (h : ∀ k i, is[k]? = some i → InWord (exactAlong w.toInt (is.take (k + 1)))) (k : Nat) :
    (along w (is.take k)).toInt = exactAlong w.toInt (is.take k) := by
  induction is generalizing w k with
  | nil =>
    rw [List.take_nil]
    rfl
  | cons i rest ih =>
    cases k with
    | zero => rfl
    | succ k =>
      have heffect := (hcomputes i List.mem_cons_self).toInt_effect
      have hstep : (w + i.effect false).toInt = w.toInt + i.change false := by
        rw [← heffect]
        exact toInt_add_of_inWord (heffect ▸ h 0 i rfl)
      have hrest := @ih (w + i.effect false) (fun j hj => hcomputes j (List.mem_cons_of_mem i hj))
        (fun k j hj => by
          rw [hstep]
          exact h (k + 1) j hj) k
      rw [hstep] at hrest
      exact hrest

namespace State

/-- The loop as such: rounds until nothing is pending or a walk fails. The number is that of the
blocks walked. -/
inductive Walks (g : Graph) : Nat → State → Except CompileError State → Prop where
  | done {s : State} : s.pending = [] → Walks g 0 s (.ok s)
  | failed {found : Array Bool} {b : BlockId} {x deepest : Int32}
      {rest : List (BlockId × Int32)} {e : CompileError} :
      walk b 0 x ⟨found, rest, deepest⟩ (g.block b).instructions.toList = .error e →
      Walks g 1 ⟨found, (b, x) :: rest, deepest⟩ (.error e)
  | round {found : Array Bool} {b : BlockId} {x x' deepest : Int32}
      {rest : List (BlockId × Int32)} {s : State} {rounds : Nat}
      {result : Except CompileError State} :
      walk b 0 x ⟨found, rest, deepest⟩ (g.block b).instructions.toList = .ok (x', s) →
      Walks g rounds (s.fallThrough (g.block b) x') result →
      Walks g (rounds + 1) ⟨found, (b, x) :: rest, deepest⟩ result

/-- The loop ends: each round leaves one block fewer to find or to walk. -/
theorem walks_run (g : Graph) (rounds : Nat) (s : State) (h : s.search.todo ≤ rounds) :
    ∃ n ≤ rounds, Walks g n s (State.run g rounds s) := by
  induction rounds generalizing s with
  | zero =>
    refine ⟨0, Nat.le_refl 0, .done (List.length_eq_zero_iff.mp ?_)⟩
    simp only [Search.todo, State.search, List.length_map] at h
    omega
  | succ rounds ih =>
    obtain ⟨found, pending, deepest⟩ := s
    cases pending with
    | nil => exact ⟨0, Nat.zero_le _, .done rfl⟩
    | cons p rest =>
      obtain ⟨b, x⟩ := p
      rw [run_cons]
      cases hwalk : walk b 0 x ⟨found, rest, deepest⟩ (g.block b).instructions.toList with
      | error e => exact ⟨1, Nat.succ_pos rounds, .failed hwalk⟩
      | ok r =>
        have hround := todo_round (g.block b) hwalk
        obtain ⟨n, hn, hwalks⟩ := ih (r.2.fallThrough (g.block b) r.1) (by omega)
        exact ⟨n + 1, Nat.succ_le_succ hn, .round hwalk hwalks⟩

end State
end StackDepth

open StackDepth

namespace Graph

/-- Exact depths at the starts of the blocks that agree with every edge control may take. -/
structure Balanced (g : Graph) (entry : BlockId) (D : BlockId → Int) : Prop where
  start : D entry = 0
  jump : ∀ (b k : Nat) (i : Instruction) (t : BlockId), g.Reaches entry b →
    (g.block b).instructions.toList[k]? = some i → i.target = some t →
    D t = exactAlong (D b) ((g.block b).instructions.toList.take k) + i.change true
  next : ∀ b n, g.Reaches entry b → (g.block b).terminal = false → (g.block b).next = some n →
    D n = exactAlong (D b) (g.block b).instructions.toList

/-- The exact depths that control meets: behind an instruction, or on the way of a jump to its
target. -/
inductive Attains (g : Graph) (entry : BlockId) (D : BlockId → Int) : Int → Prop where
  | after {b k : Nat} {i : Instruction} : g.Reaches entry b →
      (g.block b).instructions.toList[k]? = some i →
      Attains g entry D (exactAlong (D b) ((g.block b).instructions.toList.take (k + 1)))
  | there {b k : Nat} {i : Instruction} : g.Reaches entry b →
      (g.block b).instructions.toList[k]? = some i → i.target.isSome = true →
      Attains g entry D
        (exactAlong (D b) ((g.block b).instructions.toList.take k) + i.change true)

/-- All numbers that are computed on the way are words: those that give the effects of instructions,
and the depths. -/
structure Words (g : Graph) (entry : BlockId) (D : BlockId → Int) : Prop where
  effects : ∀ b, g.Reaches entry b → ∀ i ∈ (g.block b).instructions.toList, ∀ taken,
    i.Leaves taken → i.Computes taken
  depths : ∀ x, g.Attains entry D x → InWord x

namespace Balanced
variable {g : Graph} {entry : BlockId} {D : BlockId → Int}

theorem inWord_start (hD : g.Balanced entry D) (hword : g.Words entry D) {b : BlockId}
    (hb : g.Reaches entry b) : InWord (D b) := by
  induction hb with
  | entry =>
    rw [hD.start]
    exact ⟨by decide, by decide⟩
  | @jump b t i hb hi ht _ =>
    obtain ⟨k, hk⟩ := List.getElem?_of_mem (Array.mem_toList_iff.mpr hi)
    rw [hD.jump b k i t hb hk ht]
    exact hword.depths _ (.there hb hk (by rw [ht, Option.isSome_some]))
  | @next b n hb hopen hn ih =>
    rw [hD.next b n hb hopen hn]
    rcases List.eq_nil_or_concat (g.block b).instructions.toList with hnil | ⟨is, i, hconcat⟩
    · rw [hnil]
      exact ih
    · have hlast : (g.block b).instructions.toList[is.length]? = some i := by
        rw [hconcat, List.concat_eq_append, List.getElem?_concat_length]
      have hall : (g.block b).instructions.toList.take (is.length + 1) =
          (g.block b).instructions.toList := by
        have hlength : (g.block b).instructions.toList.length = is.length + 1 := by
          rw [hconcat, List.length_concat]
        exact List.take_of_length_le (Nat.le_of_eq hlength)
      rw [← hall]
      exact hword.depths _ (.after hb hlast)

section Words
variable (hD : g.Balanced entry D) (hword : g.Words entry D)
include hD hword

/-- Walked in words, a block has the exact depths. -/
theorem toInt_take {b : BlockId} (hb : g.Reaches entry b) (k : Nat) :
    (along (Int32.ofInt (D b)) ((g.block b).instructions.toList.take k)).toInt =
      exactAlong (D b) ((g.block b).instructions.toList.take k) := by
  have hstart := toInt_ofInt_of_inWord (hD.inWord_start hword hb)
  have halong := @toInt_along (Int32.ofInt (D b)) (g.block b).instructions.toList
    (fun i hi => hword.effects b hb i hi false i.leaves_false)
    (fun k i hi => by
      rw [hstart]
      exact hword.depths _ (.after hb hi)) k
  rwa [hstart] at halong

theorem toInt_after {b k : Nat} {i : Instruction} (hb : g.Reaches entry b)
    (hi : (g.block b).instructions.toList[k]? = some i) :
    (along (Int32.ofInt (D b)) ((g.block b).instructions.toList.take k) + i.effect false).toInt =
      exactAlong (D b) ((g.block b).instructions.toList.take (k + 1)) := by
  have htake := toInt_take hD hword hb k
  have hexact := exactAlong_take_succ hi (D b)
  have heffect :=
    (hword.effects b hb i (List.mem_of_getElem? hi) false i.leaves_false).toInt_effect
  have hin := hword.depths _ (.after hb hi)
  rw [hexact, ← htake, ← heffect] at hin ⊢
  exact toInt_add_of_inWord hin

theorem toInt_there {b k : Nat} {i : Instruction} (hb : g.Reaches entry b)
    (hi : (g.block b).instructions.toList[k]? = some i) (ht : i.target.isSome = true) :
    (along (Int32.ofInt (D b)) ((g.block b).instructions.toList.take k) + i.effect true).toInt =
      exactAlong (D b) ((g.block b).instructions.toList.take k) + i.change true := by
  have htake := toInt_take hD hword hb k
  have heffect :=
    (hword.effects b hb i (List.mem_of_getElem? hi) true fun _ => ht).toInt_effect
  have hin := hword.depths _ (.there hb hi ht)
  rw [← htake, ← heffect] at hin ⊢
  exact toInt_add_of_inWord hin

theorem levels : g.Levels entry fun b => Int32.ofInt (D b) := by
  have hstart {b : BlockId} (hb : g.Reaches entry b) : (Int32.ofInt (D b)).toInt = D b :=
    toInt_ofInt_of_inWord (hD.inWord_start hword hb)
  refine ⟨?_, ?_, ?_⟩
  · rw [hD.start]
    rfl
  · rintro b hb ⟨c, x⟩ hp
    obtain ⟨k, i, hi, ht, rfl⟩ := mem_edges.mp hp
    have hc : g.Reaches entry c :=
      hb.jump (Array.mem_toList_iff.mp (List.mem_of_getElem? hi)) ht
    apply Int32.toInt_inj.mp
    rw [hstart hc, hD.jump b k i c hb hi ht]
    exact toInt_there hD hword hb hi (by rw [ht, Option.isSome_some])
  · intro b n hb hopen hn
    have htake := toInt_take hD hword hb (g.block b).instructions.toList.length
    rw [List.take_length] at htake
    apply Int32.toInt_inj.mp
    rw [hstart (hb.next hopen hn), hD.next b n hb hopen hn, htake]

theorem attains_of_mem {b : BlockId} (hb : g.Reaches entry b) {x : Int32}
    (hx : x ∈ g.depths (fun b => Int32.ofInt (D b)) b) : g.Attains entry D x.toInt := by
  obtain ⟨k, i, hi, rfl | ⟨ht, rfl⟩⟩ := mem_depths.mp hx
  · rw [toInt_after hD hword hb hi]
    exact .after hb hi
  · rw [toInt_there hD hword hb hi ht]
    exact .there hb hi ht

theorem exists_mem_of_attains {x : Int} (h : g.Attains entry D x) : ∃ b, g.Reaches entry b ∧
    ∃ y ∈ g.depths (fun b => Int32.ofInt (D b)) b, y.toInt = x := by
  cases h with
  | after hb hi =>
    exact ⟨_, hb, _, mem_depths.mpr ⟨_, _, hi, .inl rfl⟩, toInt_after hD hword hb hi⟩
  | there hb hi ht =>
    exact ⟨_, hb, _, mem_depths.mpr ⟨_, _, hi, .inr ⟨ht, rfl⟩⟩, toInt_there hD hword hb hi ht⟩

/-- A word that bounds the depths met, and is one of them unless it is 0, is the greatest as a
number. -/
theorem greatest {m : Int32} (hbounds : ∀ b, g.Reaches entry b →
      ∀ x ∈ g.depths (fun b => Int32.ofInt (D b)) b, 0 ≤ x ∧ x ≤ m)
    (hattained : m = 0 ∨
      ∃ b, g.Reaches entry b ∧ m ∈ g.depths (fun b => Int32.ofInt (D b)) b) :
    (∀ x, g.Attains entry D x → 0 ≤ x ∧ x ≤ m.toUInt32.toNat) ∧
      (g.Attains entry D m.toUInt32.toNat ∨ m.toUInt32 = 0 ∧ ∀ x, ¬ g.Attains entry D x) := by
  have hm : 0 ≤ m := by
    rcases hattained with rfl | ⟨b, hb, hmem⟩
    · exact Int32.le_refl 0
    · exact (hbounds b hb m hmem).1
  have hnat := toNat_toUInt32_of_nonneg hm
  have hall (x : Int) (hx : g.Attains entry D x) : 0 ≤ x ∧ x ≤ m.toUInt32.toNat := by
    obtain ⟨b, hb, y, hy, rfl⟩ := exists_mem_of_attains hD hword hx
    obtain ⟨hpos, hle⟩ := hbounds b hb y hy
    rw [hnat]
    exact ⟨Int32.le_iff_toInt_le.mp hpos, Int32.le_iff_toInt_le.mp hle⟩
  refine ⟨hall, ?_⟩
  rcases hattained with rfl | ⟨b, hb, hmem⟩
  · by_cases hsome : ∃ x, g.Attains entry D x
    · obtain ⟨x, hx⟩ := hsome
      obtain ⟨hpos, hle⟩ := hall x hx
      have hzero : x = 0 := Int.le_antisymm hle hpos
      rw [hzero] at hx
      exact .inl hx
    · exact .inr ⟨rfl, fun x hx => hsome ⟨x, hx⟩⟩
  · rw [hnat]
    exact .inl (attains_of_mem hD hword hb hmem)

/-- Where words sink below 0, so do the exact depths. -/
theorem negative_of_sinks {b k : Nat} {op : Opcode} (hb : g.Reaches entry b)
    (h : Sinks (Int32.ofInt (D b)) (g.block b).instructions.toList k op) :
    ∃ i, (g.block b).instructions.toList[k]? = some i ∧ i.opcode = op ∧
      (exactAlong (D b) ((g.block b).instructions.toList.take (k + 1)) < 0 ∨
        i.target.isSome = true ∧
          exactAlong (D b) ((g.block b).instructions.toList.take k) + i.change true < 0) := by
  obtain ⟨i, hi, rfl, hneg | ⟨ht, hneg⟩⟩ := h
  · rw [Int32.lt_iff_toInt_lt, toInt_after hD hword hb hi] at hneg
    exact ⟨i, hi, rfl, .inl hneg⟩
  · rw [Int32.lt_iff_toInt_lt, toInt_there hD hword hb hi ht] at hneg
    exact ⟨i, hi, rfl, .inr ⟨ht, hneg⟩⟩

theorem not_overflows {b k : Nat} (hb : g.Reaches entry b) :
    ¬ Overflows (Int32.ofInt (D b)) (g.block b).instructions.toList k := by
  rintro ⟨i, taken, hi, hleaves, hover⟩
  refine hover ⟨hword.effects b hb i (List.mem_of_getElem? hi) taken hleaves, ?_⟩
  rw [toInt_take hD hword hb]
  cases taken with
  | true => exact hword.depths _ (.there hb hi (hleaves rfl))
  | false =>
    rw [← exactAlong_take_succ hi]
    exact hword.depths _ (.after hb hi)

end Words
end Balanced
end Graph

/-- On a graph that control does not leave, with depths that agree with every edge, and with words
for all numbers that are computed: the walk for the depth ends after no more rounds than there are
blocks; if no depth is negative it gives the greatest one, or 0 if there are none; and otherwise it
fails at an instruction that makes the depth negative. -/
theorem maxStackDepth_exact {g : Graph} (hg : g.Inside) {entry : BlockId} (h : entry < g.size)
    {D : BlockId → Int} (hD : g.Balanced entry D) (hword : g.Words entry D) :
    (∃ rounds ≤ g.size, ∃ result, State.Walks g rounds (State.start g.size entry) result ∧
      maxStackDepth g entry = result.map fun s => s.deepest.toUInt32) ∧
    ((∀ x, g.Attains entry D x → 0 ≤ x) → ∃ m : UInt32, maxStackDepth g entry = .ok m ∧
      (∀ x, g.Attains entry D x → x ≤ m.toNat) ∧
      (g.Attains entry D m.toNat ∨ m = 0 ∧ ∀ x, ¬ g.Attains entry D x)) ∧
    ((∃ x, g.Attains entry D x ∧ x < 0) → ∃ (b k : Nat) (i : Instruction),
      maxStackDepth g entry = .error (.fault (.stackUnderflow b k i.opcode)) ∧
      g.Reaches entry b ∧ (g.block b).instructions.toList[k]? = some i ∧
      (exactAlong (D b) ((g.block b).instructions.toList.take (k + 1)) < 0 ∨
        i.target.isSome = true ∧
          exactAlong (D b) ((g.block b).instructions.toList.take k) + i.change true < 0)) := by
  refine ⟨?_, ?_⟩
  · obtain ⟨rounds, hle, hwalks⟩ := State.walks_run g g.size _ (State.todo_start g.size entry)
    exact ⟨rounds, hle, _, hwalks, rfl⟩
  rcases maxStackDepth_of_levels hg h (hD.levels hword) with
    ⟨m, hok, hbounds, _, hattained⟩ | ⟨b, k, op, herr, hb, hsinks⟩ | ⟨b, k, _, hb, hover⟩
  · obtain ⟨hall, hgreatest⟩ := hD.greatest hword hbounds hattained
    refine ⟨fun _ => ⟨m.toUInt32, hok, fun x hx => (hall x hx).2, hgreatest⟩, ?_⟩
    rintro ⟨x, hx, hneg⟩
    exact absurd (hall x hx).1 (Int.not_le.mpr hneg)
  · obtain ⟨i, hi, rfl, hnegative⟩ := hD.negative_of_sinks hword hb hsinks
    refine ⟨fun hall => ?_, fun _ => ⟨b, k, i, herr, hb, hi, hnegative⟩⟩
    rcases hnegative with hneg | ⟨ht, hneg⟩
    · exact absurd (hall _ (.after hb hi)) (Int.not_le.mpr hneg)
    · exact absurd (hall _ (.there hb hi ht)) (Int.not_le.mpr hneg)
  · exact absurd hover (hD.not_overflows hword hb)

/-- Items are taken from a list and dropped one by one; the loop is left when there are no more. -/
def Graph.dropping : Graph := #[⟨#[⟨.loadName, 0, none, 0⟩, ⟨.getIter, 0, none, 0⟩], some 1, false⟩,
  ⟨#[⟨.forIter, 0, some 3, 0⟩], some 2, false⟩,
  ⟨#[⟨.popTop, 0, none, 0⟩, ⟨.jumpAbsolute, 0, some 1, 0⟩], some 3, true⟩,
  ⟨#[⟨.loadConst, 0, none, 0⟩, ⟨.returnValue, 0, none, 0⟩], none, true⟩]

/-- On entering its blocks there is nothing, the iterator, the iterator and an item, nothing. -/
def Graph.droppingDepth (b : BlockId) : Int := [0, 1, 2, 0].getD b 0

namespace Graph

theorem inside_dropping : dropping.Inside := by
  intro b c hc
  rcases Nat.lt_or_ge b 4 with hb | hb
  · have hall : ∀ b < 4, ∀ c ∈ (dropping.block b).successors, c < dropping.size := by
      decide
    exact hall b hb c hc
  · have hsize : dropping.size ≤ b := hb
    have hempty : dropping.block b = {} := by
      rw [block, Array.getD_eq_getD_getElem?, Array.getElem?_eq_none hsize]
      rfl
    rw [hempty] at hc
    cases hc

theorem balanced_dropping : dropping.Balanced 0 droppingDepth := by
  have hjump : ∀ b < 4, ∀ k, (h : k < (dropping.block b).instructions.toList.length) →
      ∀ t ∈ (dropping.block b).instructions.toList[k].target, droppingDepth t =
        exactAlong (droppingDepth b) ((dropping.block b).instructions.toList.take k) +
          ((dropping.block b).instructions.toList[k]).change true := by
    decide
  have hnext : ∀ b < 4, (dropping.block b).terminal = false →
      ∀ n ∈ (dropping.block b).next, droppingDepth n =
        exactAlong (droppingDepth b) (dropping.block b).instructions.toList := by
    decide
  refine ⟨rfl, ?_, ?_⟩
  · intro b k i t hb hi ht
    obtain ⟨hk, rfl⟩ := List.getElem?_eq_some_iff.mp hi
    exact hjump b (inside_dropping.lt (by decide) hb) k hk t ht
  · intro b n hb hopen hn
    exact hnext b (inside_dropping.lt (by decide) hb) hopen n hn

theorem attains_dropping {x : Int} (h : dropping.Attains 0 droppingDepth x) : 0 ≤ x ∧ x ≤ 2 := by
  have hall : ∀ b < 4, ∀ k, (h : k < (dropping.block b).instructions.toList.length) →
      (0 ≤ exactAlong (droppingDepth b) ((dropping.block b).instructions.toList.take (k + 1)) ∧
        exactAlong (droppingDepth b) ((dropping.block b).instructions.toList.take (k + 1)) ≤ 2) ∧
      ((dropping.block b).instructions.toList[k].target.isSome = true →
        0 ≤ exactAlong (droppingDepth b) ((dropping.block b).instructions.toList.take k) +
          ((dropping.block b).instructions.toList[k]).change true ∧
        exactAlong (droppingDepth b) ((dropping.block b).instructions.toList.take k) +
          ((dropping.block b).instructions.toList[k]).change true ≤ 2) := by
    decide
  cases h with
  | @after b k i hb hi =>
    obtain ⟨hk, rfl⟩ := List.getElem?_eq_some_iff.mp hi
    exact (hall b (inside_dropping.lt (by decide) hb) k hk).1
  | @there b k i hb hi ht =>
    obtain ⟨hk, rfl⟩ := List.getElem?_eq_some_iff.mp hi
    exact (hall b (inside_dropping.lt (by decide) hb) k hk).2 ht

theorem words_dropping : dropping.Words 0 droppingDepth := by
  have heffects : ∀ b < 4, ∀ i ∈ (dropping.block b).instructions.toList, ∀ taken,
      ∀ x ∈ i.opcode.effectSteps i.arg taken, InWord x := by
    decide
  refine ⟨fun b hb i hi taken _ => ?_, fun x hx => ?_⟩
  · exact heffects b (inside_dropping.lt (by decide) hb) i hi taken
  · have := attains_dropping hx
    exact inWord_iff.mpr (by omega)

end Graph

theorem dropping_exact : Graph.dropping.Inside ∧ 0 < Graph.dropping.size ∧
    Graph.dropping.Balanced 0 Graph.droppingDepth ∧
    Graph.dropping.Words 0 Graph.droppingDepth ∧
    (∀ x, Graph.dropping.Attains 0 Graph.droppingDepth x → 0 ≤ x) ∧
    ∃ m : UInt32, maxStackDepth Graph.dropping 0 = .ok m ∧
      Graph.dropping.Attains 0 Graph.droppingDepth m.toNat ∧
      ∀ x, Graph.dropping.Attains 0 Graph.droppingDepth x → x ≤ m.toNat := by
  have hnonneg (x : Int) (hx : Graph.dropping.Attains 0 Graph.droppingDepth x) : 0 ≤ x :=
    (Graph.attains_dropping hx).1
  obtain ⟨_, hok, _⟩ := maxStackDepth_exact Graph.inside_dropping (by decide)
    Graph.balanced_dropping Graph.words_dropping
  obtain ⟨m, hm, hle, hattained⟩ := hok hnonneg
  refine ⟨Graph.inside_dropping, by decide, Graph.balanced_dropping, Graph.words_dropping, hnonneg,
    m, hm, ?_, hle⟩
  rcases hattained with hattained | ⟨_, hnone⟩
  · exact hattained
  · have hload : (Graph.dropping.block 0).instructions.toList[0]? = some ⟨.loadName, 0, none, 0⟩ :=
      rfl
    exact absurd (.after .entry hload) (hnone _)

end Wordcode
