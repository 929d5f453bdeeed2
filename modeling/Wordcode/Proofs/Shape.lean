import Wordcode.Proofs.Rendering
import Wordcode.Proofs.StackDepth

/-!
# Shapes of the stacks

At each point of a script the operand stack has a depth, and the exceptions that may be raised
there find handlers. `Flow` says how an item changes both; `Checks` says that a whole script does
so from one shape to another, where control comes to each label with the shape given for it.
-/

set_option autoImplicit false

namespace Wordcode

/-- An entry of the block stack: a handler that is set up, or the mark of one that is running. Both
remember a depth of the operand stack. -/
inductive Guard (β δ : Type) where
  | finally (handler : β) (level : δ)
  | handler (level : δ)
  deriving DecidableEq

structure Shape where
  depth : Nat
  guards : List (Guard BlockId Nat)

namespace Shape

def empty : Shape := ⟨0, []⟩

/-- With some more entries on the operand stack. -/
def up (σ : Shape) (k : Nat) : Shape := ⟨σ.depth + k, σ.guards⟩

/-- With a handler set up. -/
def guarded (σ : Shape) (h : BlockId) : Shape := ⟨σ.depth, .finally h σ.depth :: σ.guards⟩

/-- In a handler that an exception has just led to. -/
def caught (σ : Shape) : Shape := ⟨σ.depth + 6, .handler σ.depth :: σ.guards⟩

/-- In a handler that has dropped the exception; what it replaced is still there. -/
def handling (σ : Shape) : Shape := ⟨σ.depth + 3, .handler σ.depth :: σ.guards⟩

theorem up_up (σ : Shape) (k l : Nat) : (σ.up k).up l = σ.up (k + l) := by
  simp [up, Nat.add_assoc]

@[simp] theorem depth_up (σ : Shape) (k : Nat) : (σ.up k).depth = σ.depth + k := rfl

@[simp] theorem up_zero (σ : Shape) : σ.up 0 = σ := rfl

end Shape

/-- Opcodes that go on with the next instruction and leave the block stack alone. -/
def Opcode.isOrdinary (op : Opcode) : Bool :=
  !op.isJump && !op.isTerminal && decide (op ≠ .popBlock) && decide (op ≠ .popExcept)

/-- Jumps that may also go on with the next instruction, and leave the block stack alone. -/
def Opcode.isBranch (op : Opcode) : Bool :=
  op.isJump && !op.isTerminal && decide (op ≠ .setupFinally)

/-- The shapes at labels. -/
abbrev Shapes := List (BlockId × Shape)

/-- What an item makes of a shape, if no depth goes beyond `M`. Depths are counted as machine
words. Behind an instruction that control does not pass, any shape will do. -/
inductive Flow (M : Nat) (Γ : Shapes) : Item → Shape → Shape → Prop where
  | plain {x : Item} {i : Instruction} {d d' : Nat} {gs : List (Guard BlockId Nat)} :
      x.instruction? = some i → i.target = none → i.opcode.isOrdinary = true → d' ≤ M →
      Int32.ofNat d' = Int32.ofNat d + i.effect false → Flow M Γ x ⟨d, gs⟩ ⟨d', gs⟩
  | branch {op : Opcode} {b : BlockId} {d d' there : Nat} {gs : List (Guard BlockId Nat)} :
      op.isBranch = true → (b, ⟨there, gs⟩) ∈ Γ → there ≤ M → d' ≤ M →
      Int32.ofNat there = Int32.ofNat d + op.effect 0 true →
      Int32.ofNat d' = Int32.ofNat d + op.effect 0 false →
      Flow M Γ (.jump op b) ⟨d, gs⟩ ⟨d', gs⟩
  | jump {op : Opcode} {b : BlockId} {σ σ' : Shape} : op = .jumpForward ∨ op = .jumpAbsolute →
      (b, σ) ∈ Γ → σ.depth ≤ M → Flow M Γ (.jump op b) σ σ'
  | setup {b : BlockId} {σ : Shape} : (b, σ.caught) ∈ Γ → σ.depth + 6 ≤ M →
      Flow M Γ (.jump .setupFinally b) σ (σ.guarded b)
  | popBlock {h : BlockId} {d l : Nat} {gs : List (Guard BlockId Nat)} : d ≤ M →
      Flow M Γ (.emit .popBlock 0) ⟨d, .finally h l :: gs⟩ ⟨d, gs⟩
  | popExcept {d l : Nat} {gs : List (Guard BlockId Nat)} : d = l ∨ d = l + 1 → d ≤ M →
      Flow M Γ (.emit .popExcept 0) ⟨d + 3, .handler l :: gs⟩ ⟨d, gs⟩
  | returnValue {σ : Shape} : Flow M Γ (.emit .returnValue 0) (Shape.empty.up 1) σ
  | raise {n : Nat} {σ σ' : Shape} : n ≤ 2 → σ.depth ≤ M →
      Flow M Γ (.emit .raiseVarargs (UInt32.ofNat n)) (σ.up n) σ'
  | reraise {σ σ' : Shape} : σ.depth ≤ M → Flow M Γ (.emit .reraise 0) (σ.up 3) σ'
  | label {b : BlockId} {σ : Shape} : (b, σ) ∈ Γ → Flow M Γ (.label b) σ σ
  | alloc {σ : Shape} : Flow M Γ .alloc σ σ
  | intern {c : Constant} {σ : Shape} : Flow M Γ (.intern c) σ σ

inductive Checks (M : Nat) (Γ : Shapes) : Shape → Script → Shape → Prop where
  | nil {σ : Shape} : Checks M Γ σ [] σ
  | cons {x : Item} {log : Script} {σ σ' σ'' : Shape} : Flow M Γ x σ σ' →
      Checks M Γ σ' log σ'' → Checks M Γ σ (x :: log) σ''

variable {M : Nat} {Γ Γ' : Shapes}

theorem Flow.mono {x : Item} {σ σ' : Shape} (h : Flow M Γ x σ σ') (hsub : Γ ⊆ Γ') :
    Flow M Γ' x σ σ' := by
  cases h with
  | plain hi ht hop hd heff => exact .plain hi ht hop hd heff
  | branch hop hb hthere hd heff heff' => exact .branch hop (hsub hb) hthere hd heff heff'
  | jump hop hb hd => exact .jump hop (hsub hb) hd
  | setup hb hd => exact .setup (hsub hb) hd
  | popBlock hd => exact .popBlock hd
  | popExcept hl hd => exact .popExcept hl hd
  | returnValue => exact .returnValue
  | raise hn hd => exact .raise hn hd
  | reraise hd => exact .reraise hd
  | label hb => exact .label (hsub hb)
  | alloc => exact .alloc
  | intern => exact .intern

theorem Checks.mono {log : Script} {σ σ' : Shape} (h : Checks M Γ σ log σ') (hsub : Γ ⊆ Γ') :
    Checks M Γ' σ log σ' := by
  induction h with
  | nil => exact .nil
  | cons hx _ ih => exact .cons (hx.mono hsub) ih

theorem Checks.append {log log' : Script} {σ σ' σ'' : Shape} (h : Checks M Γ σ log σ')
    (h' : Checks M Γ σ' log' σ'') : Checks M Γ σ (log ++ log') σ'' := by
  induction h with
  | nil => exact h'
  | cons hx _ ih => exact .cons hx (ih h')

theorem checks_replicate_alloc (σ : Shape) (k : Nat) :
    Checks M Γ σ (List.replicate k .alloc) σ := by
  induction k with
  | zero => exact .nil
  | succ k ih => exact .cons .alloc ih

/-- The shapes before the items of a script. -/
theorem Checks.exists_shapes {log : Script} {σ σ' : Shape} (h : Checks M Γ σ log σ') :
    ∃ S : Nat → Shape, S 0 = σ ∧
      ∀ m x, log[m]? = some x → Flow M Γ x (S m) (S (m + 1)) := by
  induction h with
  | @nil σ => exact ⟨fun _ => σ, rfl, by simp⟩
  | @cons x log σ σ' σ'' hx _ ih =>
    obtain ⟨S, hS, hflow⟩ := ih
    refine ⟨fun m => m.casesOn σ S, rfl, fun m y hy => ?_⟩
    cases m with
    | zero =>
      cases hy
      show Flow M Γ x σ (S 0)
      rw [hS]
      exact hx
    | succ m => exact hflow m y hy

theorem word_add (d k : Nat) : Int32.ofNat (d + k) = Int32.ofNat d + Int32.ofNat k :=
  Int32.ofNat_add d k

/-- The depth behind an instruction. One that control does not pass adds nothing. -/
theorem Flow.after {x : Item} {i : Instruction} {σ σ' : Shape} (h : Flow M Γ x σ σ')
    (hi : x.instruction? = some i) : ∃ d, d ≤ M ∧
      Int32.ofNat d = Int32.ofNat σ.depth + i.effect false ∧
      if i.opcode.isTerminal then (i.effect false).toInt ≤ 0 else d = σ'.depth := by
  have hdrop (d k : Nat) (e : Int32) (he : Int32.ofNat k + e = 0) :
      Int32.ofNat d = Int32.ofNat (d + k) + e := by
    rw [word_add, Int32.add_assoc, he, Int32.add_zero]
  cases h with
  | @plain _ _ d d' gs hi' _ hop hd heff =>
    rw [hi'] at hi
    cases hi
    refine ⟨d', hd, heff, ?_⟩
    have hterm : i.opcode.isTerminal = false := by
      simp only [Opcode.isOrdinary, Bool.and_eq_true, Bool.not_eq_true'] at hop
      exact hop.1.1.2
    simp [hterm]
  | branch hop _ _ hd _ heff =>
    cases hi
    refine ⟨_, hd, heff, ?_⟩
    simp only [Opcode.isBranch, Bool.and_eq_true, Bool.not_eq_true'] at hop
    simp [hop.1.2]
  | jump hop _ hd =>
    cases hi
    refine ⟨_, hd, hdrop _ 0 _ ?_, ?_⟩
    · rcases hop with rfl | rfl <;> rfl
    · rcases hop with rfl | rfl <;> exact Int.le_refl _
  | @setup b σ _ hd =>
    cases hi
    exact ⟨σ.depth, by omega, hdrop _ 0 _ rfl, rfl⟩
  | popBlock hd =>
    cases hi
    exact ⟨_, hd, hdrop _ 0 _ (by decide), rfl⟩
  | popExcept _ hd =>
    cases hi
    exact ⟨_, hd, hdrop _ 3 _ (by decide), rfl⟩
  | returnValue =>
    cases hi
    exact ⟨0, Nat.zero_le _, by decide, (by decide : (-1 : Int32).toInt ≤ 0)⟩
  | @raise n σ _ hn hd =>
    cases hi
    refine ⟨σ.depth, hd, hdrop _ n _ ?_, ?_⟩
    · match n, hn with
      | 0, _ | 1, _ | 2, _ => decide
    · show (Opcode.effect .raiseVarargs (UInt32.ofNat n) false).toInt ≤ 0
      match n, hn with
      | 0, _ | 1, _ | 2, _ => decide
  | @reraise σ _ hd =>
    cases hi
    exact ⟨σ.depth, hd, hdrop _ 3 _ (by decide), (by decide : (-3 : Int32).toInt ≤ 0)⟩
  | label | alloc | intern => cases hi

/-- The shape with which a jump comes to its label. -/
theorem Flow.there {x : Item} {i : Instruction} {σ σ' : Shape} (h : Flow M Γ x σ σ')
    (hi : x.instruction? = some i) {b : BlockId} (hb : i.target = some b) :
    ∃ τ, (b, τ) ∈ Γ ∧ τ.depth ≤ M ∧
      Int32.ofNat τ.depth = Int32.ofNat σ.depth + i.effect true := by
  cases h with
  | plain hi' ht =>
    rw [hi'] at hi
    cases hi
    rw [ht] at hb
    cases hb
  | branch hop hmem hthere _ heff _ =>
    cases hi
    cases hb
    exact ⟨_, hmem, hthere, heff⟩
  | @jump op _ σ _ hop hmem hd =>
    cases hi
    cases hb
    refine ⟨σ, hmem, hd, ?_⟩
    rcases hop with rfl | rfl <;> exact (Int32.add_zero _).symm
  | @setup _ σ hmem hd =>
    cases hi
    cases hb
    exact ⟨σ.caught, hmem, hd, word_add σ.depth 6⟩
  | popBlock | popExcept | returnValue | raise | reraise =>
    cases hi
    cases hb
  | label | alloc | intern => cases hi

/-- What is no instruction changes no shape. -/
theorem Flow.still {x : Item} {σ σ' : Shape} (h : Flow M Γ x σ σ') (hx : x.instruction? = none) :
    σ' = σ := by
  cases h with
  | plain hi =>
    rw [hx] at hi
    cases hi
  | label | alloc | intern => rfl
  | _ => cases hx

/-- The shapes before the items of a script that starts with empty stacks. -/
structure Script.Shaped (M : Nat) (Γ : Shapes) (log : Script) (S : Nat → Shape) : Prop where
  start : S 0 = .empty
  flow : ∀ m x, log[m]? = some x → Flow M Γ x (S m) (S (m + 1))
  nodup : (Γ.map Prod.fst).Nodup
  entry : ∀ p ∈ Γ, p.1 ≠ Draft.entry

variable {log : Script} {S : Nat → Shape}

theorem Script.Shaped.unique (h : log.Shaped M Γ S) {b : BlockId} {σ τ : Shape}
    (hσ : (b, σ) ∈ Γ) (hτ : (b, τ) ∈ Γ) : σ = τ := by
  have := List.inj_on_of_nodup_map h.nodup hσ hτ rfl
  exact congrArg Prod.snd this

/-- Control takes its shape along to the next instruction. -/
theorem Script.Shaped.next (h : log.Shaped M Γ S) {m k : Nat} (hnext : log.Next m k) :
    S k = S m := by
  induction hnext with
  | here => rfl
  | skip hx hi _ ih => rw [ih, (h.flow _ _ hx).still hi]

theorem Script.Shaped.label (h : log.Shaped M Γ S) {m : Nat} {b : BlockId}
    (hb : log[m]? = some (.label b)) : (b, S m) ∈ Γ := by
  have hflow := h.flow m _ hb
  generalize S m = σ at hflow
  generalize S (m + 1) = σ' at hflow
  cases hflow with
  | label hmem => exact hmem
  | plain hi => cases hi

/-- The depth at a label, as a machine word. -/
def Shapes.level (Γ : Shapes) (b : BlockId) : Int32 :=
  Int32.ofNat ((Γ.find? (·.1 == b)).elim 0 fun p => p.2.depth)

theorem Script.Shaped.level_eq (h : log.Shaped M Γ S) {b : BlockId} {σ : Shape}
    (hσ : (b, σ) ∈ Γ) : Γ.level b = Int32.ofNat σ.depth := by
  unfold Shapes.level
  cases hfind : Γ.find? (·.1 == b) with
  | none =>
    have := List.find?_eq_none.mp hfind _ hσ
    simp at this
  | some p =>
    obtain ⟨c, τ⟩ := p
    obtain rfl : c = b := by simpa using List.find?_some hfind
    rw [h.unique hσ (List.mem_of_find?_eq_some hfind)]
    rfl

theorem Script.Shaped.level_entry (h : log.Shaped M Γ S) : Γ.level Draft.entry = 0 := by
  unfold Shapes.level
  cases hfind : Γ.find? (·.1 == Draft.entry) with
  | none => rfl
  | some p =>
    exact absurd (by simpa using List.find?_some hfind) (h.entry p (List.mem_of_find?_eq_some hfind))

open StackDepth in
/-- The walk through a block goes along the shapes of the script. -/
theorem Script.Shaped.along (h : log.Shaped M Γ S) {d : Draft} (ht : d.Traces log) (m : Nat)
    (hm : m ≤ log.length) (p : Place) (hp : Script.place (log.take m) = some p) :
    along (Γ.level p.block) ((d.block p.block).instructions.toList.take p.index) =
      Int32.ofNat (S m).depth := by
  induction m generalizing p with
  | zero =>
    cases hp
    rw [h.start, h.level_entry]
    rfl
  | succ m ih =>
    obtain ⟨x, hx⟩ : ∃ x, log[m]? = some x := ⟨_, List.getElem?_eq_getElem (by omega)⟩
    have hflow := h.flow m x hx
    rw [Script.place_take_succ hx] at hp
    cases hi : x.instruction? with
    | none =>
      rw [hflow.still hi]
      cases x with
      | label b =>
        cases hp
        exact h.level_eq (h.label hx)
      | alloc | intern => exact ih (by omega) p hp
      | _ => cases hi
    | some i =>
      rw [Item.advance_of_instruction hi] at hp
      obtain ⟨q, hq, hstep⟩ := Option.bind_eq_some_iff.mp hp
      obtain ⟨line, hline⟩ := ht.code m x i q hx hi hq
      obtain ⟨_, _, hafter, hterm⟩ := hflow.after hi
      split at hstep
      · cases hstep
      · next hopen =>
        cases hstep
        rw [if_neg hopen] at hterm
        subst hterm
        have hget : (d.block q.block).instructions.toList[q.index]? =
            some { i with line := line } := by
          rw [Array.getElem?_toList]
          exact hline
        rw [List.take_add_one, hget, along_append, ih (by omega) q hq, hafter]
        rfl

/-- A script that comes to the end of an open block goes on at the label the block leads to. -/
theorem Draft.Traces.exists_label {d : Draft} (ht : d.Traces log) (hend : log.place = none)
    {b n : BlockId} (hnext : (d.block b).next = some n) (m : Nat)
    (hp : Script.place (log.take m) = some ⟨b, (d.block b).instructions.size⟩) :
    ∃ k, log[k]? = some (.label n) ∧
      Script.place (log.take k) = some ⟨b, (d.block b).instructions.size⟩ := by
  have hlt : m < log.length := by
    by_contra hge
    rw [List.take_of_length_le (by omega), hend] at hp
    cases hp
  obtain ⟨x, hx⟩ : ∃ x, log[m]? = some x := ⟨_, List.getElem?_eq_getElem hlt⟩
  cases hi : x.instruction? with
  | some i =>
    obtain ⟨_, hline⟩ := ht.code m x i _ hx hi hp
    exact absurd (Array.getElem?_eq_some_iff.mp hline).1 (Nat.lt_irrefl _)
  | none =>
    cases x with
    | label c =>
      have := (ht.falls m c _ hx hp).2.2.2
      rw [hnext] at this
      cases this
      exact ⟨m, hx, hp⟩
    | alloc | intern =>
      exact ht.exists_label hend hnext (m + 1) (by rw [Script.place_take_succ hx]; exact hp)
    | _ => cases hi
termination_by log.length - m

/-- Somewhere a script stands at the end of each block that it goes on at and that is open. -/
theorem Draft.Traces.exists_end {d : Draft} (ht : d.Traces log) {b : BlockId}
    (hb : b ∈ Draft.entry :: log.labels) (hopen : (d.block b).terminal = false)
    (hsound : (d.block b).Sound d.blocks.size) :
    ∃ m, m ≤ log.length ∧
      Script.place (log.take m) = some ⟨b, (d.block b).instructions.size⟩ := by
  rcases Nat.eq_zero_or_pos (d.block b).instructions.size with hzero | hpos
  · rw [hzero]
    rcases List.mem_cons.mp hb with rfl | hb
    · exact ⟨0, Nat.zero_le _, rfl⟩
    · obtain ⟨m, hm⟩ := List.getElem?_of_mem (Script.mem_labels.mp hb)
      exact ⟨m + 1, (List.getElem?_eq_some_iff.mp hm).1, Script.place_take_succ hm⟩
  · -- the instruction at the end of the block is not one that closes it
    obtain ⟨k, hk⟩ : ∃ k, (d.block b).instructions.size = k + 1 :=
      ⟨_, (Nat.succ_pred_eq_of_pos hpos).symm⟩
    obtain ⟨i, hget⟩ : ∃ i, (d.block b).instructions[k]? = some i :=
      ⟨_, Array.getElem?_eq_getElem (by omega)⟩
    obtain ⟨m, x, hx, hi, hp⟩ := ht.covered ⟨b, k⟩ i hget
    have hterm := hsound.terminal_eq k i hget
    rw [hopen, Bool.false_and] at hterm
    refine ⟨m + 1, (List.getElem?_eq_some_iff.mp hx).1, ?_⟩
    rw [Script.place_take_succ hx, Item.advance_of_instruction hi, hp, hk]
    simp [hterm]

open StackDepth in
/-- A draft written by a script has the levels that the shapes of the script say. -/
theorem Script.Shaped.levels (h : log.Shaped M Γ S) {d : Draft} (ht : d.Traces log)
    (hg : Graph.Sound d.blocks) (hlog : log.Sound d.blocks.size) (hend : log.place = none) :
    Graph.Levels d.blocks Draft.entry Γ.level where
  start := h.level_entry
  jump b _ p hp := by
    obtain ⟨c, w⟩ := p
    obtain ⟨k, i, hi, htarget, hw⟩ := mem_edges.mp hp
    rw [Array.getElem?_toList] at hi
    obtain ⟨m, x, hx, hxi, hplace⟩ := ht.covered ⟨b, k⟩ i hi
    have hm := (List.getElem?_eq_some_iff.mp hx).1
    obtain ⟨τ, hτ, _, heff⟩ := (h.flow m x hx).there hxi (b := c) htarget
    have halong := h.along ht m (Nat.le_of_lt hm) _ hplace
    show w = Γ.level c
    rw [hw, h.level_eq hτ, heff, ← halong]
    rfl
  next b n hreach hopen hnext := by
    have hmem := ht.mem_of_reaches hlog.targets_subset hreach
    obtain ⟨m, _, hp⟩ := ht.exists_end hmem hopen (hg b)
    obtain ⟨k, hk, hplace⟩ := ht.exists_label hend hnext m hp
    have hlt := (List.getElem?_eq_some_iff.mp hk).1
    have halong := h.along ht k (Nat.le_of_lt hlt) _ hplace
    rw [h.level_eq (h.label hk), ← halong, List.take_of_length_le (by simp)]
    rfl

open StackDepth in
/-- The depths that a block reaches are those of the instructions written to it. -/
theorem Script.Shaped.mem_depths (h : log.Shaped M Γ S) {d : Draft} (ht : d.Traces log)
    {b : BlockId} {x : Int32} : x ∈ Graph.depths d.blocks Γ.level b ↔
      ∃ m item i k, log[m]? = some item ∧ item.instruction? = some i ∧
        Script.place (log.take m) = some ⟨b, k⟩ ∧
        (x = Int32.ofNat (S m).depth + i.effect false ∨
          i.target.isSome ∧ x = Int32.ofNat (S m).depth + i.effect true) := by
  constructor
  · intro hx
    obtain ⟨k, i, hi, hx⟩ := StackDepth.mem_depths.mp hx
    rw [Array.getElem?_toList] at hi
    obtain ⟨m, item, hitem, hxi, hplace⟩ := ht.covered ⟨b, k⟩ i hi
    have hm := (List.getElem?_eq_some_iff.mp hitem).1
    have halong := h.along ht m (Nat.le_of_lt hm) _ hplace
    refine ⟨m, item, _, k, hitem, hxi, hplace, ?_⟩
    rw [← halong]
    exact hx
  · rintro ⟨m, item, i, k, hitem, hi, hplace, hx⟩
    obtain ⟨line, hline⟩ := ht.code m item i _ hitem hi hplace
    have hm := (List.getElem?_eq_some_iff.mp hitem).1
    rw [← h.along ht m (Nat.le_of_lt hm) _ hplace] at hx
    refine StackDepth.mem_depths.mpr ⟨k, { i with line := line }, ?_, hx⟩
    rw [Array.getElem?_toList]
    exact hline

/-- A code object that was assembled from a script with shapes; `pos` tells where its instructions
stand in the script. -/
structure CodeObject.Shaped (c : CodeObject) (M : Nat) (Γ : Shapes) (d : Draft) (log : Script)
    (S : Nat → Shape) (code : List Decoded) (pos : Nat → Nat) : Prop where
  traces : d.Traces log
  graph : Graph.Sound d.blocks
  sound : log.Sound d.blocks.size
  ends : log.place = none
  shapes : log.Shaped M Γ S
  decodes : Wordcode.decode c.code = .ok code
  renders : log.Renders code pos
  covers : d.Covers log code pos
  deepest : maxStackDepth d.blocks Draft.entry = .ok c.stackSize

def CodeObject.HasShapes (c : CodeObject) : Prop :=
  ∃ M Γ d log S code pos, c.Shaped M Γ d log S code pos

/-- The code objects of a tree, without those for which `K` holds and what is below them. -/
inductive CodeObject.Yields (K : CodeObject → Prop) : CodeObject → CodeObject → Prop where
  | root {c : CodeObject} : Yields K c c
  | nested {c c' c'' : CodeObject} : c' ∈ c.nested → ¬ K c' → Yields K c' c'' → Yields K c c''

/-- A constant that may be loaded: a code object was there before, or it and all of its tree have
shapes. -/
def Constant.Known (K : CodeObject → Prop) (c : Constant) : Prop :=
  ∀ k, c.code? = some k → K k ∨ ∀ k', k.Yields K k' → k'.HasShapes

theorem Constant.known_of_code? {K : CodeObject → Prop} {c : Constant} (h : c.code? = Option.none) :
    c.Known K := by
  intro k hk
  rw [h] at hk
  cases hk

end Wordcode
