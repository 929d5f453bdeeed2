import Mathlib.Tactic.Common
import Wordcode.Proofs.Reachability

/-!
# The depth found is the depth there is

Where the depths at the starts of the blocks can be assigned so that they agree with every edge,
it does not matter over which edge the walk comes to a block: it fails exactly if some depth on
the way is negative or no word, and otherwise finds the greatest one. Walks that do not overflow
go as arithmetic on words goes that wraps, so that depths are added and compared as words here.
-/

set_option autoImplicit false

namespace Wordcode

theorem of_bind_eq_ok {ε α β : Type} {x : Except ε α} {f : α → Except ε β} {b : β}
    (h : x >>= f = .ok b) : ∃ a, x = .ok a ∧ f a = .ok b := by
  cases x with
  | error e => cases h
  | ok a => exact ⟨a, rfl, h⟩

theorem of_bind_eq_error {ε α β : Type} {x : Except ε α} {f : α → Except ε β} {e : ε}
    (h : x >>= f = .error e) : x = .error e ∨ ∃ a, x = .ok a ∧ f a = .error e := by
  cases x with
  | error e' =>
    cases h
    exact .inl rfl
  | ok a => exact .inr ⟨a, rfl, h⟩

theorem inWord_iff {x : Int} : InWord x ↔ -2147483648 ≤ x ∧ x ≤ 2147483647 := Iff.rfl

theorem inWord_toInt (w : Int32) : InWord w.toInt := ⟨w.minValue_le_toInt, w.toInt_le⟩

theorem toInt_ofInt_of_inWord {x : Int} (h : InWord x) : (Int32.ofInt x).toInt = x := by
  obtain ⟨hle, hlt⟩ := inWord_iff.mp h
  exact Int32.toInt_ofInt_of_le hle (by omega)

theorem signedWord_eq_ok {x : Int} {w : Int32} : signedWord x = .ok w ↔ w.toInt = x := by
  unfold signedWord
  split
  · next h =>
    rw [Except.ok.injEq]
    constructor
    · rintro rfl
      exact toInt_ofInt_of_inWord h
    · rintro rfl
      exact Int32.ofInt_toInt w
  · next h => exact ⟨nofun, fun hw => absurd (hw ▸ inWord_toInt w) h⟩

theorem signedWord_eq_error {x : Int} {e : CompileError} :
    signedWord x = .error e ↔ ¬ InWord x ∧ e = .overflow := by
  unfold signedWord
  split
  · next h => exact ⟨nofun, fun hx => absurd h hx.1⟩
  · next h =>
    rw [Except.error.injEq]
    exact ⟨fun he => ⟨h, he.symm⟩, fun he => he.2.symm⟩

/-- Numbers checked one after the other are all words, and the last one is the result. -/
theorem foldlM_signedWord_eq_ok {xs : List Int} {w v : Int32} :
    xs.foldlM (fun _ x => signedWord x) w = .ok v ↔
      (∀ x ∈ xs, InWord x) ∧ v.toInt = xs.getLastD w.toInt := by
  induction xs generalizing w with
  | nil =>
    simp only [List.foldlM_nil, List.not_mem_nil, false_implies, implies_true, true_and,
      List.getLastD_nil, Int32.toInt_inj]
    exact ⟨fun h => (Except.ok.inj h).symm, fun h => h ▸ rfl⟩
  | cons x xs ih =>
    rw [List.foldlM_cons, List.forall_mem_cons, List.getLastD_cons]
    cases h : signedWord x with
    | error e => exact ⟨nofun, fun hx => absurd hx.1.1 (signedWord_eq_error.mp h).1⟩
    | ok u =>
      have hu := signedWord_eq_ok.mp h
      have hx : InWord x := hu ▸ inWord_toInt u
      rw [and_iff_right (a := InWord x) hx, ← hu]
      exact ih

theorem foldlM_signedWord_eq_error {xs : List Int} {w : Int32} {e : CompileError} :
    xs.foldlM (fun _ x => signedWord x) w = .error e ↔
      (∃ x ∈ xs, ¬ InWord x) ∧ e = .overflow := by
  induction xs generalizing w with
  | nil => exact ⟨nofun, by simp⟩
  | cons x xs ih =>
    have hcons : (∃ y ∈ x :: xs, ¬ InWord y) ↔ ¬ InWord x ∨ ∃ y ∈ xs, ¬ InWord y := by simp
    rw [List.foldlM_cons, hcons]
    cases h : signedWord x with
    | error e' =>
      obtain ⟨hx, rfl⟩ := signedWord_eq_error.mp h
      exact ⟨fun he => ⟨.inl hx, (Except.error.inj he).symm⟩, fun he => he.2 ▸ rfl⟩
    | ok u =>
      have hx : InWord x := signedWord_eq_ok.mp h ▸ inWord_toInt u
      rw [or_iff_right (not_not.mpr hx)]
      exact ih

namespace Opcode

/-- The change of depth as a number. -/
def change (op : Opcode) (arg : UInt32) (taken : Bool) : Int :=
  (op.effectSteps arg taken).getLastD 0

/-- The change of depth as a word, which is no other number if it can be computed. -/
def effect (op : Opcode) (arg : UInt32) (taken : Bool) : Int32 := Int32.ofInt (op.change arg taken)

section Operand
variable {op : Opcode} (arg : UInt32) (taken : Bool)

theorem effect_unpackSequence : effect .unpackSequence arg taken = arg.toInt32 - 1 := by
  change Int32.ofInt (arg.toInt32.toInt - 1) = _
  rw [Int32.ofInt_sub, Int32.ofInt_toInt]
  rfl

theorem effect_build (h : op = .buildTuple ∨ op = .buildList ∨ op = .buildSet) :
    op.effect arg taken = 1 - arg.toInt32 := by
  have heffect : Int32.ofInt (1 - arg.toInt32.toInt) = 1 - arg.toInt32 := by
    rw [Int32.ofInt_sub, Int32.ofInt_toInt]
    rfl
  rcases h with rfl | rfl | rfl <;> exact heffect

theorem effect_buildMap : effect .buildMap arg taken = 1 - 2 * arg.toInt32 := by
  change Int32.ofInt (1 - 2 * arg.toInt32.toInt) = _
  rw [Int32.ofInt_sub, Int32.ofInt_mul, Int32.ofInt_toInt]
  rfl

theorem effect_takes (h : op = .buildConstKeyMap ∨ op = .raiseVarargs ∨ op = .callFunction) :
    op.effect arg taken = -arg.toInt32 := by
  have heffect : Int32.ofInt (-arg.toInt32.toInt) = -arg.toInt32 := by
    rw [Int32.ofInt_neg, Int32.ofInt_toInt]
  rcases h with rfl | rfl | rfl <;> exact heffect

theorem effect_takes_one_more (h : op = .callMethod ∨ op = .callFunctionKw) :
    op.effect arg taken = -arg.toInt32 - 1 := by
  have heffect : Int32.ofInt (-arg.toInt32.toInt - 1) = -arg.toInt32 - 1 := by
    rw [Int32.ofInt_sub, Int32.ofInt_neg, Int32.ofInt_toInt]
    rfl
  rcases h with rfl | rfl <;> exact heffect

end Operand
end Opcode

namespace Instruction

def change (i : Instruction) (taken : Bool) : Int := i.opcode.change i.arg taken

def effect (i : Instruction) (taken : Bool) : Int32 := i.opcode.effect i.arg taken

/-- Control may leave the instruction on this way. -/
def Leaves (i : Instruction) (taken : Bool) : Prop := taken = true → i.target.isSome = true

/-- The change of depth can be computed in words. -/
def Computes (i : Instruction) (taken : Bool) : Prop :=
  ∀ x ∈ i.opcode.effectSteps i.arg taken, InWord x

theorem leaves_false (i : Instruction) : i.Leaves false := nofun

end Instruction

theorem Opcode.effectSteps_ne_nil (op : Opcode) (arg : UInt32) (taken : Bool) :
    op.effectSteps arg taken ≠ [] := by
  cases op <;> exact List.cons_ne_nil _ _

theorem Opcode.stackEffect_eq_ok {op : Opcode} {arg : UInt32} {taken : Bool} {w : Int32} :
    op.stackEffect arg taken = .ok w ↔
      (∀ x ∈ op.effectSteps arg taken, InWord x) ∧ w.toInt = op.change arg taken :=
  foldlM_signedWord_eq_ok

theorem Instruction.Computes.toInt_effect {i : Instruction} {taken : Bool} (h : i.Computes taken) :
    (i.effect taken).toInt = i.change taken := by
  have hlast : i.change taken ∈ i.opcode.effectSteps i.arg taken := by
    rw [change, Opcode.change, List.getLastD_eq_getLast?,
      List.getLast?_eq_some_getLast (i.opcode.effectSteps_ne_nil i.arg taken),
      Option.getD_some]
    exact List.getLast_mem _
  exact toInt_ofInt_of_inWord (h _ hlast)

theorem toNat_toUInt32_of_nonneg {w : Int32} (h : 0 ≤ w) : (w.toUInt32.toNat : Int) = w.toInt := by
  rw [Int32.toNat_toUInt32_of_le h, ← Int32.toNat_toInt]
  exact Int.toNat_of_nonneg (Int32.le_iff_toInt_le.mp h)

namespace StackDepth

theorem moved_eq_ok {i : Instruction} {taken : Bool} {w v : Int32} :
    moved i taken w = .ok v ↔ i.Computes taken ∧ v.toInt = w.toInt + i.change taken := by
  unfold moved
  cases h : i.opcode.stackEffect i.arg taken with
  | error e =>
    obtain ⟨⟨x, hx, hnot⟩, _⟩ := foldlM_signedWord_eq_error.mp h
    exact ⟨nofun, fun hok => absurd (hok.1 x hx) hnot⟩
  | ok u =>
    obtain ⟨hsteps, hu⟩ := Opcode.stackEffect_eq_ok.mp h
    rw [Instruction.change, ← hu]
    exact signedWord_eq_ok.trans (and_iff_right hsteps).symm

theorem moved_eq_error {i : Instruction} {taken : Bool} {w : Int32} {e : CompileError} :
    moved i taken w = .error e ↔
      ¬ (i.Computes taken ∧ InWord (w.toInt + i.change taken)) ∧ e = .overflow := by
  unfold moved
  cases h : i.opcode.stackEffect i.arg taken with
  | error e' =>
    obtain ⟨⟨x, hx, hnot⟩, rfl⟩ := foldlM_signedWord_eq_error.mp h
    exact ⟨fun he => ⟨fun hok => hnot (hok.1 x hx), (Except.error.inj he).symm⟩, fun he => he.2 ▸ rfl⟩
  | ok u =>
    obtain ⟨hsteps, hu⟩ := Opcode.stackEffect_eq_ok.mp h
    rw [Instruction.change, ← hu, and_iff_right (a := i.Computes taken) hsteps]
    exact signedWord_eq_error

/-- A depth that can be computed is the sum of words. -/
theorem of_moved_ok {i : Instruction} {taken : Bool} {w v : Int32} (h : moved i taken w = .ok v) :
    i.Computes taken ∧ v = w + i.effect taken := by
  obtain ⟨hcomputes, hv⟩ := moved_eq_ok.mp h
  refine ⟨hcomputes, ?_⟩
  rw [← Int32.ofInt_toInt v, hv, Int32.ofInt_add, Int32.ofInt_toInt]
  rfl

/-- The depth behind instructions that start at the depth `w`. -/
def along (w : Int32) : List Instruction → Int32
  | [] => w
  | i :: rest => along (w + i.effect false) rest

/-- The edges of jumps among the instructions, with their depths. -/
def edges (w : Int32) : List Instruction → List (BlockId × Int32)
  | [] => []
  | i :: rest =>
    (i.target.map (·, w + i.effect true)).toList ++ edges (w + i.effect false) rest

/-- The depths on the way through instructions: after each, and on the edges of jumps. -/
def depths (w : Int32) : List Instruction → List Int32
  | [] => []
  | i :: rest =>
    (i.target.map fun _ => w + i.effect true).toList ++
      (w + i.effect false) :: depths (w + i.effect false) rest

theorem map_fst_edges (w : Int32) (is : List Instruction) :
    (edges w is).map Prod.fst = is.filterMap Instruction.target := by
  induction is generalizing w with
  | nil => rfl
  | cons i rest ih =>
    rw [edges, List.map_append, ih, List.filterMap_cons]
    cases i.target <;> rfl

theorem along_append (w : Int32) (is js : List Instruction) :
    along w (is ++ js) = along (along w is) js := by
  induction is generalizing w with
  | nil => rfl
  | cons i rest ih => exact ih _

/-- What instruction `k` reaches. -/
theorem mem_depths {w x : Int32} {is : List Instruction} :
    x ∈ depths w is ↔ ∃ k i, is[k]? = some i ∧
      (x = along w (is.take k) + i.effect false ∨
        i.target.isSome ∧ x = along w (is.take k) + i.effect true) := by
  induction is generalizing w with
  | nil => simp [depths]
  | cons i rest ih =>
    have hhead : x ∈ (i.target.map fun _ => w + i.effect true).toList ↔
        i.target.isSome ∧ x = w + i.effect true := by
      cases i.target <;> simp
    rw [depths, List.mem_append, List.mem_cons, hhead, ih]
    constructor
    · rintro (h | h | ⟨k, j, hj, h⟩)
      · exact ⟨0, i, rfl, .inr h⟩
      · exact ⟨0, i, rfl, .inl h⟩
      · exact ⟨k + 1, j, hj, h⟩
    · rintro ⟨k, j, hj, h⟩
      cases k with
      | zero =>
        cases hj
        exact h.elim (fun h => .inr (.inl h)) .inl
      | succ k => exact .inr (.inr ⟨k, j, hj, h⟩)

theorem mem_edges {w x : Int32} {c : BlockId} {is : List Instruction} :
    (c, x) ∈ edges w is ↔ ∃ k i, is[k]? = some i ∧ i.target = some c ∧
      x = along w (is.take k) + i.effect true := by
  induction is generalizing w with
  | nil => simp [edges]
  | cons i rest ih =>
    have hhead : (c, x) ∈ (i.target.map (·, w + i.effect true)).toList ↔
        i.target = some c ∧ x = w + i.effect true := by
      cases i.target <;> simp [eq_comm]
    rw [edges, List.mem_append, hhead, ih]
    constructor
    · rintro (h | ⟨k, j, hj, h⟩)
      · exact ⟨0, i, rfl, h⟩
      · exact ⟨k + 1, j, hj, h⟩
    · rintro ⟨k, j, hj, h⟩
      cases k with
      | zero =>
        cases hj
        exact .inl h
      | succ k => exact .inr ⟨k, j, hj, h⟩

/-- Instruction `k` takes the depth below zero, behind it or on the way to its target. -/
def Sinks (w : Int32) (is : List Instruction) (k : Nat) (op : Opcode) : Prop :=
  ∃ i, is[k]? = some i ∧ i.opcode = op ∧ (along w (is.take k) + i.effect false < 0 ∨
    i.target.isSome ∧ along w (is.take k) + i.effect true < 0)

/-- At instruction `k` a number is computed that is no word. -/
def Overflows (w : Int32) (is : List Instruction) (k : Nat) : Prop :=
  ∃ i taken, is[k]? = some i ∧ i.Leaves taken ∧
    ¬ (i.Computes taken ∧ InWord ((along w (is.take k)).toInt + i.change taken))

theorem Sinks.exists_mem {w : Int32} {is : List Instruction} {k : Nat} {op : Opcode}
    (h : Sinks w is k op) : ∃ x ∈ depths w is, x < 0 := by
  obtain ⟨i, hi, _, hneg | ⟨ht, hneg⟩⟩ := h
  · exact ⟨_, mem_depths.mpr ⟨k, i, hi, .inl rfl⟩, hneg⟩
  · exact ⟨_, mem_depths.mpr ⟨k, i, hi, .inr ⟨ht, rfl⟩⟩, hneg⟩

namespace State

/-- The search that a walk carries out. -/
def search (s : State) : Search := ⟨s.found, s.pending.map Prod.fst⟩

theorem search_discover (s : State) (b : BlockId) (x : Int32) :
    (s.discover b x).search = s.search.discover b := by
  simp only [discover, Search.discover_eq, search]
  split <;> simp

theorem deepest_discover (s : State) (b : BlockId) (x : Int32) :
    (s.discover b x).deepest = s.deepest := by
  simp only [discover]
  split <;> rfl

theorem mem_pending_discover {s : State} {b : BlockId} {x : Int32} {p : BlockId × Int32}
    (h : p ∈ (s.discover b x).pending) : p ∈ s.pending ∨ p = (b, x) := by
  simp only [discover] at h
  split at h
  · exact (List.mem_cons.mp h).symm
  · exact .inl h

theorem max_eq (a b : Int32) : max a b = a ∧ b ≤ a ∨ max a b = b ∧ a ≤ b := by
  rw [show max a b = if a ≤ b then b else a from rfl]
  split
  · next h => exact .inr ⟨rfl, h⟩
  · next h => exact .inl ⟨rfl, Int32.le_of_lt (Int32.not_le.mp h)⟩

/-- What the walk through instructions has done when it ends at the depth `w'`. -/
structure Walked (w : Int32) (s : State) (is : List Instruction) (w' : Int32) (s' : State) :
    Prop where
  along : w' = along w is
  search : s'.search = ((edges w is).map Prod.fst).foldl Search.discover s.search
  pending : ∀ p ∈ s'.pending, p ∈ s.pending ∨ p ∈ edges w is
  computes : ∀ i ∈ is, ∀ taken, i.Leaves taken → i.Computes taken
  nonneg : ∀ x ∈ depths w is, 0 ≤ x
  le : s.deepest ≤ s'.deepest ∧ ∀ x ∈ depths w is, x ≤ s'.deepest
  attained : s'.deepest = s.deepest ∨ s'.deepest ∈ depths w is

theorem of_reach_ok {s s' : State} {b : BlockId} {index : Nat} {op : Opcode} {x : Int32}
    (h : s.reach b index op x = .ok s') : 0 ≤ x ∧ s' = { s with deepest := max s.deepest x } := by
  unfold reach at h
  split at h
  · cases h
  · next hx =>
    cases h
    exact ⟨Int32.not_lt.mp hx, rfl⟩

theorem of_reach_error {s : State} {b : BlockId} {index : Nat} {op : Opcode} {x : Int32}
    {e : CompileError} (h : s.reach b index op x = .error e) :
    x < 0 ∧ e = .fault (.stackUnderflow b index op) := by
  unfold reach at h
  split at h
  · next hx =>
    cases h
    exact ⟨hx, rfl⟩
  · cases h

/-- The edge of one instruction. -/
theorem of_branch_ok {s s' : State} {b : BlockId} {index : Nat} {i : Instruction} {w : Int32}
    (h : s.branch b index i w = .ok s') : (i.target = none ∧ s' = s) ∨
      ∃ c, i.target = some c ∧ i.Computes true ∧ 0 ≤ w + i.effect true ∧
        s' = ({ s with deepest := max s.deepest (w + i.effect true) } : State).discover c
          (w + i.effect true) := by
  unfold branch at h
  split at h
  · next ht =>
    cases h
    exact .inl ⟨ht, rfl⟩
  · next c ht =>
    obtain ⟨there, hmoved, h⟩ := of_bind_eq_ok h
    obtain ⟨s₁, hr, h⟩ := of_bind_eq_ok h
    obtain ⟨hcomputes, rfl⟩ := of_moved_ok hmoved
    obtain ⟨hx, rfl⟩ := of_reach_ok hr
    exact .inr ⟨c, ht, hcomputes, hx, (Except.ok.inj h).symm⟩

theorem of_branch_error {s : State} {b : BlockId} {index : Nat} {i : Instruction} {w : Int32}
    {e : CompileError} (h : s.branch b index i w = .error e) : i.target.isSome = true ∧
      ((¬ (i.Computes true ∧ InWord (w.toInt + i.change true)) ∧ e = .overflow) ∨
        w + i.effect true < 0 ∧ e = .fault (.stackUnderflow b index i.opcode)) := by
  unfold branch at h
  split at h
  · cases h
  · next c ht =>
    refine ⟨by rw [ht, Option.isSome_some], ?_⟩
    rcases of_bind_eq_error h with hmoved | ⟨there, hmoved, h⟩
    · exact .inl (moved_eq_error.mp hmoved)
    · obtain ⟨_, rfl⟩ := of_moved_ok hmoved
      rcases of_bind_eq_error h with hr | ⟨s₁, _, h⟩
      · exact .inr (of_reach_error hr)
      · cases h

theorem Walked.nil (w : Int32) (s : State) : Walked w s [] w s :=
  ⟨rfl, rfl, fun _ hp => .inl hp, fun _ hi => absurd hi List.not_mem_nil, by simp [depths],
    ⟨Int32.le_refl _, by simp [depths]⟩, .inl rfl⟩

/-- A number in front of those whose greatest is sought. -/
theorem greatest_cons {m m' x : Int32} {xs : List Int32} (hle : max m x ≤ m' ∧ ∀ y ∈ xs, y ≤ m')
    (hattained : m' = max m x ∨ m' ∈ xs) :
    (m ≤ m' ∧ ∀ y ∈ x :: xs, y ≤ m') ∧ (m' = m ∨ m' ∈ x :: xs) := by
  obtain ⟨hmax, hall⟩ := hle
  rcases max_eq m x with ⟨heq, hxm⟩ | ⟨heq, hmx⟩
  · rw [heq] at hmax hattained
    exact ⟨⟨hmax, List.forall_mem_cons.mpr ⟨Int32.le_trans hxm hmax, hall⟩⟩,
      hattained.imp_right (List.mem_cons_of_mem x)⟩
  · rw [heq] at hmax hattained
    exact ⟨⟨Int32.le_trans hmx hmax, List.forall_mem_cons.mpr ⟨hmax, hall⟩⟩,
      .inr (hattained.elim (fun h => h ▸ List.mem_cons_self) (List.mem_cons_of_mem x))⟩

/-- One instruction and the rest. -/
theorem Walked.cons {w w' : Int32} {s s₁ s' : State} {b : BlockId} {index : Nat}
    {i : Instruction} {rest : List Instruction} (hb : s.branch b index i w = .ok s₁)
    (hcomputes : i.Computes false) (hx : 0 ≤ w + i.effect false)
    (h : Walked (w + i.effect false) { s₁ with deepest := max s₁.deepest (w + i.effect false) }
      rest w' s') : Walked w s (i :: rest) w' s' := by
  obtain ⟨halong, hsearch, hpending, hrest, hnonneg, hle, hattained⟩ := h
  have hgreatest := greatest_cons hle hattained
  have hpositive := List.forall_mem_cons.mpr ⟨hx, hnonneg⟩
  rcases of_branch_ok hb with ⟨ht, rfl⟩ | ⟨c, ht, hthere, hc, rfl⟩
  · have hi (taken : Bool) (htaken : i.Leaves taken) : i.Computes taken := by
      cases taken with
      | false => exact hcomputes
      | true =>
        have hsome := htaken rfl
        rw [ht] at hsome
        cases hsome
    have hedges : edges w (i :: rest) = edges (w + i.effect false) rest := by
      rw [edges, ht]
      rfl
    have hdepths : depths w (i :: rest) =
        (w + i.effect false) :: depths (w + i.effect false) rest := by
      rw [depths, ht]
      rfl
    rw [← hdepths] at hgreatest hpositive
    exact ⟨halong, hedges ▸ hsearch, hedges ▸ hpending, List.forall_mem_cons.mpr ⟨hi, hrest⟩,
      hpositive, hgreatest.1, hgreatest.2⟩
  · have hi (taken : Bool) (_ : i.Leaves taken) : i.Computes taken := by
      cases taken with
      | false => exact hcomputes
      | true => exact hthere
    have hedges : edges w (i :: rest) =
        (c, w + i.effect true) :: edges (w + i.effect false) rest := by
      rw [edges, ht]
      rfl
    have hdepths : depths w (i :: rest) = (w + i.effect true) ::
        (w + i.effect false) :: depths (w + i.effect false) rest := by
      rw [depths, ht]
      rfl
    rw [deepest_discover] at hgreatest
    have hgreatest' := greatest_cons hgreatest.1 hgreatest.2
    rw [← hdepths] at hgreatest'
    refine ⟨halong, ?_, ?_, List.forall_mem_cons.mpr ⟨hi, hrest⟩, ?_, hgreatest'.1, hgreatest'.2⟩
    · rw [hedges, List.map_cons, List.foldl_cons]
      refine hsearch.trans (congrArg₂ _ ?_ rfl)
      exact search_discover _ c _
    · intro p hp
      rw [hedges, List.mem_cons]
      rcases hpending p hp with hp | hp
      · rcases mem_pending_discover hp with hp | hp
        · exact .inl hp
        · exact .inr (.inl hp)
      · exact .inr (.inr hp)
    · rw [hdepths]
      exact List.forall_mem_cons.mpr ⟨hc, hpositive⟩

theorem walked_of_walk_ok {b : BlockId} {index : Nat} {w w' : Int32} {s s' : State}
    {is : List Instruction} (h : walk b index w s is = .ok (w', s')) : Walked w s is w' s' := by
  induction is generalizing index w s with
  | nil =>
    cases h
    exact .nil ..
  | cons i rest ih =>
    obtain ⟨s₁, hb, h⟩ := of_bind_eq_ok h
    obtain ⟨v, hmoved, h⟩ := of_bind_eq_ok h
    obtain ⟨s₂, hr, h⟩ := of_bind_eq_ok h
    obtain ⟨hcomputes, rfl⟩ := of_moved_ok hmoved
    obtain ⟨hx, rfl⟩ := of_reach_ok hr
    exact .cons hb hcomputes hx (ih h)

theorem of_walk_error {b : BlockId} {index : Nat} {w : Int32} {s : State}
    {is : List Instruction} {e : CompileError} (h : walk b index w s is = .error e) :
    (∃ k op, Sinks w is k op ∧ e = .fault (.stackUnderflow b (index + k) op)) ∨
      (∃ k, Overflows w is k) ∧ e = .overflow := by
  induction is generalizing index w s with
  | nil => cases h
  | cons i rest ih =>
    rcases of_bind_eq_error h with hb | ⟨s₁, hb, h⟩
    · obtain ⟨ht, ⟨hnot, he⟩ | ⟨hx, he⟩⟩ := of_branch_error hb
      · exact .inr ⟨⟨0, i, true, rfl, fun _ => ht, hnot⟩, he⟩
      · exact .inl ⟨0, i.opcode, ⟨i, rfl, rfl, .inr ⟨ht, hx⟩⟩, he⟩
    rcases of_bind_eq_error h with hmoved | ⟨v, hmoved, h⟩
    · obtain ⟨hnot, he⟩ := moved_eq_error.mp hmoved
      exact .inr ⟨⟨0, i, false, rfl, i.leaves_false, hnot⟩, he⟩
    obtain ⟨_, rfl⟩ := of_moved_ok hmoved
    rcases of_bind_eq_error h with hr | ⟨s₂, _, h⟩
    · obtain ⟨hx, he⟩ := of_reach_error hr
      exact .inl ⟨0, i.opcode, ⟨i, rfl, rfl, .inl hx⟩, he⟩
    rcases ih h with ⟨k, op, ⟨j, hj, hop, hneg⟩, rfl⟩ | ⟨⟨k, j, taken, hj, hover⟩, rfl⟩
    · exact .inl ⟨k + 1, op, ⟨j, hj, hop, hneg⟩, by rw [Nat.add_right_comm, Nat.add_assoc]⟩
    · exact .inr ⟨⟨k + 1, j, taken, hj, hover⟩, rfl⟩

end State
end StackDepth

open StackDepth

/-- Depths at the starts of the blocks that agree with every edge control may take. -/
structure Graph.Levels (g : Graph) (entry : BlockId) (w : BlockId → Int32) : Prop where
  start : w entry = 0
  jump : ∀ b, g.Reaches entry b → ∀ p ∈ edges (w b) (g.block b).instructions.toList, p.2 = w p.1
  next : ∀ b n, g.Reaches entry b → (g.block b).terminal = false → (g.block b).next = some n →
    along (w b) (g.block b).instructions.toList = w n

/-- The depths on the way through a block. -/
def Graph.depths (g : Graph) (w : BlockId → Int32) (b : BlockId) : List Int32 :=
  StackDepth.depths (w b) (g.block b).instructions.toList

namespace StackDepth.State

/-- What holds between the rounds of a walk. -/
structure Progress (g : Graph) (entry : BlockId) (w : BlockId → Int32) (s : State) : Prop where
  search : s.search.Progress g entry
  pending : ∀ p ∈ s.pending, p.2 = w p.1
  walked : ∀ b, Marked s.found b → b ∉ s.search.pending →
    (∀ x ∈ g.depths w b, 0 ≤ x ∧ x ≤ s.deepest) ∧
    ∀ i ∈ (g.block b).instructions.toList, ∀ taken, i.Leaves taken → i.Computes taken
  attained : s.deepest = 0 ∨ ∃ b, g.Reaches entry b ∧ s.deepest ∈ g.depths w b

theorem progress_start {g : Graph} {entry : BlockId} {w : BlockId → Int32} (hw : g.Levels entry w)
    (h : entry < g.size) : Progress g entry w (start g.size entry) := by
  have hsearch : (start g.size entry).search = Search.start g.size entry := search_discover ..
  have hprog := Search.progress_start h
  refine ⟨hsearch ▸ hprog, ?_, ?_, .inl ?_⟩
  · intro p hp
    rcases mem_pending_discover hp with hp | rfl
    · cases hp
    · exact hw.start.symm
  · intro b hb hnot
    rw [hsearch] at hnot
    have hfound : (start g.size entry).found = (Search.start g.size entry).found :=
      congrArg Search.found hsearch
    rw [hfound, Search.marked_start h] at hb
    exact absurd ((Search.mem_pending_start h b).mpr hb) hnot
  · exact deepest_discover ..

theorem search_fallThrough (s : State) (blk : Block) (x : Int32) :
    (s.fallThrough blk x).search =
      (if blk.terminal then [] else blk.next.toList).foldl Search.discover s.search := by
  unfold fallThrough
  cases blk.terminal <;> cases blk.next <;> simp [search_discover]

theorem deepest_fallThrough (s : State) (blk : Block) (x : Int32) :
    (s.fallThrough blk x).deepest = s.deepest := by
  unfold fallThrough
  split
  · rfl
  · exact deepest_discover ..

theorem mem_pending_fallThrough {s : State} {blk : Block} {x : Int32} {p : BlockId × Int32}
    (h : p ∈ (s.fallThrough blk x).pending) :
    p ∈ s.pending ∨ blk.terminal = false ∧ ∃ n, blk.next = some n ∧ p = (n, x) := by
  unfold fallThrough at h
  split at h
  · exact .inl h
  · next n hn =>
    split at hn
    · cases hn
    · next hopen => exact (mem_pending_discover h).imp_right fun hp =>
        ⟨Bool.eq_false_iff.mpr hopen, n, hn, hp⟩

/-- One round that meets no negative depth. -/
theorem Progress.round {g : Graph} (hg : g.Inside) {entry b : BlockId} {w : BlockId → Int32}
    (hw : g.Levels entry w) {found : Array Bool} {x x' deepest : Int32} {s' : State}
    {rest : List (BlockId × Int32)} (h : Progress g entry w ⟨found, (b, x) :: rest, deepest⟩)
    (hwalk : Walked x ⟨found, rest, deepest⟩ (g.block b).instructions.toList x' s') :
    Progress g entry w (s'.fallThrough (g.block b) x') := by
  have hx : x = w b := h.pending _ List.mem_cons_self
  subst hx
  have hreach : g.Reaches entry b :=
    h.search.reaches b (h.search.marked_of_pending b List.mem_cons_self)
  have hsearch : (s'.fallThrough (g.block b) x').search =
      (g.block b).successors.foldl Search.discover ⟨found, rest.map Prod.fst⟩ := by
    rw [search_fallThrough, hwalk.search, map_fst_edges, Block.successors, List.foldl_append]
    rfl
  have hround := h.search.round hg
  have hdeepest := deepest_fallThrough s' (g.block b) x'
  refine ⟨hsearch ▸ hround, ?_, ?_, ?_⟩
  · intro p hp
    rcases mem_pending_fallThrough hp with hp | ⟨hopen, n, hn, rfl⟩
    · rcases hwalk.pending p hp with hp | hp
      · exact h.pending p (List.mem_cons_of_mem _ hp)
      · exact hw.jump b hreach p hp
    · rw [hwalk.along]
      exact hw.next b n hreach hopen hn
  · intro a ha hnot
    rw [hdeepest]
    by_cases hab : a = b
    · subst hab
      exact ⟨fun y hy => ⟨hwalk.nonneg y hy, hwalk.le.2 y hy⟩, hwalk.computes⟩
    · have hlt : ∀ c ∈ (g.block b).successors,
          c < (⟨found, rest.map Prod.fst⟩ : Search).found.size := by
        intro c hc
        have := h.search.size_eq
        exact this ▸ hg b c hc
      have hfound : (s'.fallThrough (g.block b) x').found = _ := congrArg Search.found hsearch
      rw [hfound, Search.marked_foldl hlt] at ha
      rw [hsearch, Search.mem_pending_foldl hlt] at hnot
      have hmarked : Marked found a := by
        rcases ha with ha | ha
        · exact ha
        · by_contra hno
          exact hnot (.inr ⟨ha, hno⟩)
      have hold : a ∉ (State.mk found ((b, w b) :: rest) deepest).search.pending := by
        intro hmem
        rcases List.mem_cons.mp hmem with hmem | hmem
        · exact hab hmem
        · exact hnot (.inl hmem)
      obtain ⟨hbounds, hcomputes⟩ := h.walked a hmarked hold
      exact ⟨fun y hy => ⟨(hbounds y hy).1, Int32.le_trans (hbounds y hy).2 hwalk.le.1⟩, hcomputes⟩
  · rw [hdeepest]
    rcases hwalk.attained with heq | hmem
    · rw [heq]
      exact h.attained
    · exact .inr ⟨b, hreach, hmem⟩

theorem run_cons (g : Graph) (rounds : Nat) (found : Array Bool) (b : BlockId) (x deepest : Int32)
    (rest : List (BlockId × Int32)) :
    State.run g (rounds + 1) ⟨found, (b, x) :: rest, deepest⟩ =
      (walk b 0 x ⟨found, rest, deepest⟩ (g.block b).instructions.toList).bind fun r =>
        State.run g rounds (r.2.fallThrough (g.block b) r.1) := by
  simp only [State.run, Graph.block]
  cases walk b 0 x ⟨found, rest, deepest⟩ (g.getD b {}).instructions.toList <;> rfl

/-- Walking a block leaves one fewer to do. -/
theorem todo_round {found : Array Bool} {b : BlockId} {x x' deepest : Int32} {s : State}
    {rest : List (BlockId × Int32)} {is : List Instruction} (blk : Block)
    (h : walk b 0 x ⟨found, rest, deepest⟩ is = .ok (x', s)) :
    (s.fallThrough blk x').search.todo + 1 =
      (State.mk found ((b, x) :: rest) deepest).search.todo := by
  rw [search_fallThrough, Search.todo_foldl, (walked_of_walk_ok h).search, Search.todo_foldl]
  simp only [Search.todo, State.search, List.length_map, List.length_cons]
  omega

theorem todo_start (size : Nat) (entry : BlockId) : (start size entry).search.todo ≤ size := by
  rw [start, search_discover, Search.todo_discover, Search.todo]
  simp [search]

/-- All rounds: either a number is met that is negative or no word, or nothing is pending in the
end. -/
theorem Progress.run {g : Graph} (hg : g.Inside) {entry : BlockId} {w : BlockId → Int32}
    (hw : g.Levels entry w) (rounds : Nat) (s : State) (h : Progress g entry w s)
    (htodo : s.search.todo ≤ rounds) :
    (∃ s', State.run g rounds s = .ok s' ∧ Progress g entry w s' ∧ s'.pending = []) ∨
    (∃ b k op, State.run g rounds s = .error (.fault (.stackUnderflow b k op)) ∧
      g.Reaches entry b ∧ Sinks (w b) (g.block b).instructions.toList k op) ∨
    ∃ b k, State.run g rounds s = .error .overflow ∧ g.Reaches entry b ∧
      Overflows (w b) (g.block b).instructions.toList k := by
  induction rounds generalizing s with
  | zero =>
    refine .inl ⟨s, rfl, h, List.length_eq_zero_iff.mp ?_⟩
    simp only [Search.todo, State.search, List.length_map] at htodo
    omega
  | succ rounds ih =>
    obtain ⟨found, pending, deepest⟩ := s
    cases pending with
    | nil => exact .inl ⟨_, rfl, h, rfl⟩
    | cons p rest =>
      obtain ⟨b, x⟩ := p
      have hx : x = w b := h.pending _ List.mem_cons_self
      rw [run_cons]
      cases hwalk : walk b 0 x ⟨found, rest, deepest⟩ (g.block b).instructions.toList with
      | error e =>
        have hreach := h.search.reaches b (h.search.marked_of_pending b List.mem_cons_self)
        subst hx
        rcases of_walk_error hwalk with ⟨k, op, hsinks, rfl⟩ | ⟨⟨k, hover⟩, rfl⟩
        · rw [Nat.zero_add]
          exact .inr (.inl ⟨b, k, op, rfl, hreach, hsinks⟩)
        · exact .inr (.inr ⟨b, k, rfl, hreach, hover⟩)
      | ok r =>
        have hround := todo_round (g.block b) hwalk
        exact ih _ (h.round hg hw (walked_of_walk_ok hwalk)) (by omega)

end StackDepth.State

/-- On a graph with levels the depth found is the greatest there is; only a depth that is negative
or no word makes the walk fail. -/
theorem maxStackDepth_of_levels {g : Graph} (hg : g.Inside) {entry : BlockId} (h : entry < g.size)
    {w : BlockId → Int32} (hw : g.Levels entry w) :
    (∃ m : Int32, maxStackDepth g entry = .ok m.toUInt32 ∧
      (∀ b, g.Reaches entry b → ∀ x ∈ g.depths w b, 0 ≤ x ∧ x ≤ m) ∧
      (∀ b, g.Reaches entry b → ∀ i ∈ (g.block b).instructions.toList, ∀ taken, i.Leaves taken →
        i.Computes taken) ∧
      (m = 0 ∨ ∃ b, g.Reaches entry b ∧ m ∈ g.depths w b)) ∨
    (∃ b k op, maxStackDepth g entry = .error (.fault (.stackUnderflow b k op)) ∧
      g.Reaches entry b ∧ Sinks (w b) (g.block b).instructions.toList k op) ∨
    ∃ b k, maxStackDepth g entry = .error .overflow ∧ g.Reaches entry b ∧
      Overflows (w b) (g.block b).instructions.toList k := by
  rcases State.Progress.run hg hw g.size _ (State.progress_start hw h)
    (State.todo_start g.size entry) with
    ⟨s, hrun, hprog, hempty⟩ | ⟨b, k, op, hrun, hsinks⟩ | ⟨b, k, hrun, hover⟩
  · have hpending : s.search.pending = [] := by rw [State.search, hempty]; rfl
    have hmarked (b : BlockId) (hb : g.Reaches entry b) : Marked s.found b := by
      induction hb with
      | entry => exact hprog.search.entry_marked
      | jump _ hi ht ih =>
        exact hprog.search.closed _ ih (by simp [hpending]) _
          (Block.mem_successors.mpr (.inl ⟨_, hi, ht⟩))
      | next _ hterm hn ih =>
        exact hprog.search.closed _ ih (by simp [hpending]) _
          (Block.mem_successors.mpr (.inr ⟨hterm, hn⟩))
    have hwalked (b : BlockId) (hb : g.Reaches entry b) :=
      hprog.walked b (hmarked b hb) (by simp [hpending])
    refine .inl ⟨s.deepest, ?_, fun b hb => (hwalked b hb).1, fun b hb => (hwalked b hb).2,
      hprog.attained⟩
    rw [maxStackDepth, hrun]
    rfl
  · refine .inr (.inl ⟨b, k, op, ?_, hsinks⟩)
    rw [maxStackDepth, hrun]
    rfl
  · refine .inr (.inr ⟨b, k, ?_, hover⟩)
    rw [maxStackDepth, hrun]
    rfl

end Wordcode
