import Mathlib.Tactic.Common
import Wordcode.Proofs.Graph

/-!
# The search finds what can be reached

A round of the search looks at one pending block and makes its successors pending unless they were
found before. What is found can be reached; what is found and no longer pending has all its
successors found. The blocks not found yet and those pending are, together, one fewer after each
round, so with as many rounds as there are blocks nothing is pending in the end.
-/

set_option autoImplicit false

namespace Wordcode

/-- The entry of a block in a table of blocks found. -/
def Marked (found : Array Bool) (b : BlockId) : Prop := found[b]? = some true

theorem marked_set {found : Array Bool} {c : BlockId} (hc : c < found.size) (b : BlockId) :
    Marked (found.setIfInBounds c true) b ↔ Marked found b ∨ b = c := by
  simp only [Marked, Array.getElem?_setIfInBounds]
  by_cases h : c = b
  · subst h
    simp [hc]
  · simp [h, Ne.symm h]

theorem not_marked_iff {found : Array Bool} {c : BlockId} (hc : c < found.size) :
    ¬ Marked found c ↔ found[c]? = some false := by
  simp [Marked, Array.getElem?_eq_getElem hc]

/-- Marking a block leaves one fewer to find. -/
theorem count_set {found : Array Bool} {c : BlockId} (h : found[c]? = some false) :
    (found.setIfInBounds c true).count false + 1 = found.count false := by
  obtain ⟨hc, hval⟩ := Array.getElem?_eq_some_iff.mp h
  have hpos : 0 < found.count false := Array.count_pos_iff.mpr (hval ▸ Array.getElem_mem hc)
  rw [Array.setIfInBounds, dif_pos hc, Array.count_set hc, hval, if_pos (beq_self_eq_true _),
    if_neg (by decide)]
  omega

theorem Block.mem_successors {b : Block} {c : BlockId} :
    c ∈ b.successors ↔ (∃ i ∈ b.instructions, i.target = some c) ∨
      (b.terminal = false ∧ b.next = some c) := by
  simp only [Block.successors, List.mem_append, List.mem_filterMap, Array.mem_toList_iff]
  cases b.terminal <;> simp

/-- Control never leaves the graph. -/
def Graph.Inside (g : Graph) : Prop := ∀ b, ∀ c ∈ (g.block b).successors, c < g.size

theorem Graph.Sound.inside {g : Graph} (hg : g.Sound) : g.Inside := by
  intro b c hc
  rcases Block.mem_successors.mp hc with ⟨i, hi, ht⟩ | ⟨_, hn⟩
  · exact ((hg b).instructions i hi).target_lt c ht
  · exact (hg b).next_lt c hn

theorem Graph.Reaches.successor {g : Graph} {entry b c : BlockId} (hb : g.Reaches entry b)
    (hc : c ∈ (g.block b).successors) : g.Reaches entry c := by
  rcases Block.mem_successors.mp hc with ⟨i, hi, ht⟩ | ⟨hterm, hn⟩
  · exact hb.jump hi ht
  · exact hb.next hterm hn

namespace Search

theorem discover_eq (s : Search) (c : BlockId) :
    s.discover c = if s.found[c]? = some false then
      ⟨s.found.setIfInBounds c true, c :: s.pending⟩ else s := rfl

theorem size_discover (s : Search) (c : BlockId) : (s.discover c).found.size = s.found.size := by
  rw [discover_eq]
  split <;> simp

theorem marked_discover {s : Search} {c : BlockId} (hc : c < s.found.size) (b : BlockId) :
    Marked (s.discover c).found b ↔ Marked s.found b ∨ b = c := by
  rw [discover_eq]
  split
  · exact marked_set hc b
  · next h =>
    have hmarked : Marked s.found c := not_not.mp (mt (not_marked_iff hc).mp h)
    constructor
    · exact Or.inl
    · rintro (hb | rfl)
      · exact hb
      · exact hmarked

theorem mem_pending_discover {s : Search} {c : BlockId} (hc : c < s.found.size) (b : BlockId) :
    b ∈ (s.discover c).pending ↔ b ∈ s.pending ∨ (b = c ∧ ¬ Marked s.found b) := by
  rw [discover_eq]
  split
  · next h =>
    have hnot := (not_marked_iff hc).mpr h
    simp only [List.mem_cons]
    constructor
    · rintro (rfl | hb)
      · exact Or.inr ⟨rfl, hnot⟩
      · exact Or.inl hb
    · rintro (hb | ⟨rfl, _⟩)
      · exact Or.inr hb
      · exact Or.inl rfl
  · next h =>
    have hmarked : Marked s.found c := not_not.mp (mt (not_marked_iff hc).mp h)
    constructor
    · exact Or.inl
    · rintro (hb | ⟨rfl, hnot⟩)
      · exact hb
      · exact absurd hmarked hnot

/-- What is still to be done: blocks to find and blocks to look at. -/
def todo (s : Search) : Nat := s.pending.length + s.found.count false

theorem todo_discover (s : Search) (c : BlockId) : (s.discover c).todo = s.todo := by
  rw [discover_eq]
  split
  · next h =>
    have := count_set h
    simp only [todo, List.length_cons]
    omega
  · rfl

theorem size_foldl (s : Search) (cs : List BlockId) :
    (cs.foldl discover s).found.size = s.found.size := by
  induction cs generalizing s with
  | nil => rfl
  | cons c cs ih => rw [List.foldl_cons, ih, size_discover]

theorem todo_foldl (s : Search) (cs : List BlockId) : (cs.foldl discover s).todo = s.todo := by
  induction cs generalizing s with
  | nil => rfl
  | cons c cs ih => rw [List.foldl_cons, ih, todo_discover]

theorem marked_foldl {s : Search} {cs : List BlockId} (hcs : ∀ c ∈ cs, c < s.found.size)
    (b : BlockId) : Marked (cs.foldl discover s).found b ↔ Marked s.found b ∨ b ∈ cs := by
  induction cs generalizing s with
  | nil => simp
  | cons c cs ih =>
    have hc := hcs c List.mem_cons_self
    rw [List.foldl_cons, ih (fun a ha => size_discover s c ▸ hcs a (List.mem_cons_of_mem c ha)),
      marked_discover hc, List.mem_cons, or_assoc]

theorem mem_pending_foldl {s : Search} {cs : List BlockId} (hcs : ∀ c ∈ cs, c < s.found.size)
    (b : BlockId) : b ∈ (cs.foldl discover s).pending ↔
      b ∈ s.pending ∨ (b ∈ cs ∧ ¬ Marked s.found b) := by
  induction cs generalizing s with
  | nil => simp
  | cons c cs ih =>
    have hc := hcs c List.mem_cons_self
    rw [List.foldl_cons, ih (fun a ha => size_discover s c ▸ hcs a (List.mem_cons_of_mem c ha)),
      mem_pending_discover hc, marked_discover hc, List.mem_cons]
    by_cases hbc : b = c
    · subst hbc
      simp
    · simp [hbc]

/-- What holds between the rounds of a search from `entry`. -/
structure Progress (g : Graph) (entry : BlockId) (s : Search) : Prop where
  size_eq : s.found.size = g.size
  reaches : ∀ b, Marked s.found b → g.Reaches entry b
  marked_of_pending : ∀ b ∈ s.pending, Marked s.found b
  closed : ∀ b, Marked s.found b → b ∉ s.pending →
    ∀ c ∈ (g.block b).successors, Marked s.found c
  entry_marked : Marked s.found entry

theorem marked_start {size : Nat} {entry : BlockId} (h : entry < size) (b : BlockId) :
    Marked (start size entry).found b ↔ b = entry := by
  have hnone : ¬ Marked (Array.replicate size false) b := by
    simp [Marked, Array.getElem?_replicate]
  rw [start, marked_discover (by simpa using h)]
  simp [hnone]

theorem mem_pending_start {size : Nat} {entry : BlockId} (h : entry < size) (b : BlockId) :
    b ∈ (start size entry).pending ↔ b = entry := by
  have hnone : ¬ Marked (Array.replicate size false) b := by
    simp [Marked, Array.getElem?_replicate]
  rw [start, mem_pending_discover (by simpa using h)]
  simp [hnone]

theorem progress_start {g : Graph} {entry : BlockId} (h : entry < g.size) :
    Progress g entry (start g.size entry) := by
  have hmarked := marked_start h
  have hpending := mem_pending_start h
  refine ⟨by simp [start, size_discover], ?_, ?_, ?_, (hmarked entry).mpr rfl⟩
  · intro b hb
    rw [(hmarked b).mp hb]
    exact .entry
  · intro b hb
    exact (hmarked b).mpr ((hpending b).mp hb)
  · intro b hb hnot
    exact absurd ((hpending b).mpr ((hmarked b).mp hb)) hnot

/-- One round. -/
theorem Progress.round {g : Graph} (hg : g.Inside) {entry b : BlockId} {found : Array Bool}
    {rest : List BlockId} (h : Progress g entry ⟨found, b :: rest⟩) :
    Progress g entry ((g.block b).successors.foldl discover ⟨found, rest⟩) := by
  have hlt : ∀ c ∈ (g.block b).successors, c < (⟨found, rest⟩ : Search).found.size := by
    intro c hc
    have := h.size_eq
    exact this ▸ hg b c hc
  have hb : Marked found b := h.marked_of_pending b List.mem_cons_self
  refine ⟨by rw [size_foldl]; exact h.size_eq, ?_, ?_, ?_, ?_⟩
  · intro a ha
    rcases (marked_foldl hlt a).mp ha with ha | ha
    · exact h.reaches a ha
    · exact (h.reaches b hb).successor ha
  · intro a ha
    rcases (mem_pending_foldl hlt a).mp ha with ha | ⟨ha, _⟩
    · exact (marked_foldl hlt a).mpr (Or.inl (h.marked_of_pending a (List.mem_cons_of_mem b ha)))
    · exact (marked_foldl hlt a).mpr (Or.inr ha)
  · intro a ha hnot c hc
    rw [mem_pending_foldl hlt] at hnot
    apply (marked_foldl hlt c).mpr
    by_cases hab : a = b
    · subst hab
      exact Or.inr hc
    · rcases (marked_foldl hlt a).mp ha with ha | ha
      · refine Or.inl (h.closed a ha ?_ c hc)
        intro hmem
        rcases List.mem_cons.mp hmem with rfl | hmem
        · exact hab rfl
        · exact hnot (Or.inl hmem)
      · have hmarked : Marked found a := by
          by_contra hno
          exact hnot (Or.inr ⟨ha, hno⟩)
        refine Or.inl (h.closed a hmarked ?_ c hc)
        intro hmem
        rcases List.mem_cons.mp hmem with rfl | hmem
        · exact hab rfl
        · exact hnot (Or.inl hmem)
  · exact (marked_foldl hlt entry).mpr (Or.inl h.entry_marked)

/-- All rounds: nothing is pending after as many as there is to do. -/
theorem Progress.run {g : Graph} (hg : g.Inside) {entry : BlockId} (rounds : Nat) (s : Search)
    (h : Progress g entry s) (htodo : s.todo ≤ rounds) :
    Progress g entry (run g rounds s) ∧ (Search.run g rounds s).pending = [] := by
  induction rounds generalizing s with
  | zero =>
    refine ⟨h, List.length_eq_zero_iff.mp ?_⟩
    simp only [todo] at htodo
    simp only [Search.run]
    omega
  | succ rounds ih =>
    obtain ⟨found, pending⟩ := s
    cases pending with
    | nil => exact ⟨h, rfl⟩
    | cons b rest =>
      apply ih _ (h.round hg)
      rw [todo_foldl]
      simp only [todo, List.length_cons] at htodo ⊢
      omega

end Search

/-- The search marks exactly the blocks that control may get to. -/
theorem marked_reachable_iff {g : Graph} (hg : g.Sound) {entry : BlockId} (h : entry < g.size)
    (b : BlockId) : Marked (reachable g entry) b ↔ g.Reaches entry b := by
  have htodo : (Search.start g.size entry).todo ≤ g.size := by
    rw [Search.start, Search.todo_discover, Search.todo]
    simp
  obtain ⟨hprog, hempty⟩ := Search.Progress.run hg.inside g.size _ (Search.progress_start h) htodo
  constructor
  · exact hprog.reaches b
  · intro hb
    have hclosed (a : BlockId) (ha : Marked (reachable g entry) a) :
        ∀ c ∈ (g.block a).successors, Marked (reachable g entry) c :=
      hprog.closed a ha (by rw [hempty]; simp)
    induction hb with
    | entry => exact hprog.entry_marked
    | jump _ hi ht ih => exact hclosed _ ih _ (Block.mem_successors.mpr (Or.inl ⟨_, hi, ht⟩))
    | next _ hterm hn ih => exact hclosed _ ih _ (Block.mem_successors.mpr (Or.inr ⟨hterm, hn⟩))

theorem Graph.Inside.lt {g : Graph} (hg : g.Inside) {entry b : BlockId} (h : entry < g.size)
    (hb : g.Reaches entry b) : b < g.size := by
  cases hb with
  | entry => exact h
  | jump _ hi ht => exact hg _ _ (Block.mem_successors.mpr (Or.inl ⟨_, hi, ht⟩))
  | next _ hterm hn => exact hg _ _ (Block.mem_successors.mpr (Or.inr ⟨hterm, hn⟩))

theorem Graph.Reaches.lt {g : Graph} (hg : g.Sound) {entry b : BlockId} (h : entry < g.size)
    (hb : g.Reaches entry b) : b < g.size :=
  hg.inside.lt h hb

end Wordcode
