import Mathlib.Logic.Relation
import Wordcode.Lower.Expr
import Wordcode.Proofs.Rendering

/-!
# Running code

A machine for code in which nothing is raised: an operand stack, a point where control is, and a
trace of the expressions that were evaluated. Control goes through a course, which may be wordcode or
a plot: a script in which the code that pushes the values of some expressions is taken as a whole.
Such an expression is evaluated in one move, and what its value is a meaning tells. What becomes of
the value, and where control goes by its truth, is left to the instructions.
-/

set_option autoImplicit false

namespace Wordcode

/-- What expressions evaluate to, and what is done with the values. The value of an expression may
depend on what was evaluated before it. -/
structure Meaning (V : Type) where
  value : List Expr → Expr → V
  truth : V → Bool
  ofBool : Bool → V
  truth_ofBool : ∀ b, truth (ofBool b) = b
  compare : CmpOp → V → V → V
  /-- What iterating over a value gives. -/
  items : V → List V

/-- What stands on the operand stack: a value, a constant that was loaded by its number, or what is
left of an iterator. -/
inductive Cell (V : Type) where
  | value (v : V)
  | constant (number : UInt32)
  | iterator (items : List V)

/-- What an instruction compares by: `COMPARE_OP` by the relation that its operand numbers, `IS_OP`
and `CONTAINS_OP` by identity and membership, or by their negation if the operand is 1. -/
def Opcode.comparison? (op : Opcode) (arg : UInt32) : Option CmpOp :=
  match op, arg.toNat with
  | .compareOp, 0 => some .lt
  | .compareOp, 1 => some .le
  | .compareOp, 2 => some .eq
  | .compareOp, 3 => some .notEq
  | .compareOp, 4 => some .gt
  | .compareOp, 5 => some .ge
  | .isOp, 0 => some .is
  | .isOp, 1 => some .isNot
  | .containsOp, 0 => some .in
  | .containsOp, 1 => some .notIn
  | _, _ => none

/-- What is written for a comparison compares by it. -/
theorem CmpOp.comparison?_opcode (c : CmpOp) : c.opcode.1.comparison? c.opcode.2 = some c := by
  cases c <;> rfl

namespace Meaning

variable {V : Type}

/-- What an instruction makes of the stack if control goes on to the next one. As nothing is raised,
the instructions that set handlers up and take them down leave all as it is. -/
def falls (M : Meaning V) (op : Opcode) (arg : UInt32) (st : List (Cell V)) :
    Option (List (Cell V)) :=
  match op, st with
  | .nop, st | .setupFinally, st | .popBlock, st => some st
  | .popTop, _ :: st => some st
  | .rotTwo, a :: b :: st => some (b :: a :: st)
  | .rotThree, a :: b :: c :: st => some (b :: c :: a :: st)
  | .dupTop, a :: st => some (a :: a :: st)
  | .loadConst, st => some (.constant arg :: st)
  | .storeName, _ :: st | .storeFast, _ :: st | .storeGlobal, _ :: st | .storeDeref, _ :: st => some st
  | .getIter, .value v :: st => some (.iterator (M.items v) :: st)
  | .forIter, .iterator (x :: xs) :: st => some (.value x :: .iterator xs :: st)
  | .unaryNot, .value v :: st => some (.value (M.ofBool (!M.truth v)) :: st)
  | .popJumpIfFalse, .value v :: st | .jumpIfFalseOrPop, .value v :: st =>
    if M.truth v then some st else none
  | .popJumpIfTrue, .value v :: st | .jumpIfTrueOrPop, .value v :: st =>
    if M.truth v then none else some st
  | .compareOp, .value w :: .value v :: st | .isOp, .value w :: .value v :: st
  | .containsOp, .value w :: .value v :: st =>
    (op.comparison? arg).map fun c => .value (M.compare c v w) :: st
  | _, _ => none

/-- What an instruction makes of the stack if it jumps. -/
def jumps (M : Meaning V) (op : Opcode) (st : List (Cell V)) : Option (List (Cell V)) :=
  match op, st with
  | .jumpAbsolute, st | .jumpForward, st => some st
  | .popJumpIfFalse, .value v :: st => if M.truth v then none else some st
  | .popJumpIfTrue, .value v :: st => if M.truth v then some st else none
  | .jumpIfFalseOrPop, .value v :: st => if M.truth v then none else some (.value v :: st)
  | .jumpIfTrueOrPop, .value v :: st => if M.truth v then some (.value v :: st) else none
  | .forIter, .iterator [] :: st => some st
  | _, _ => none

/-- The operand of a jump is for control only. -/
theorem falls_of_isJump (M : Meaning V) {op : Opcode} (h : op.isJump = true) (arg arg' : UInt32)
    (st : List (Cell V)) : M.falls op arg st = M.falls op arg' st := by
  unfold falls
  split <;> first | rfl | cases h

theorem isTerminal_of_falls {M : Meaning V} {op : Opcode} {arg : UInt32} {st st' : List (Cell V)}
    (h : M.falls op arg st = some st') : op.isTerminal = false := by
  unfold falls at h
  split at h <;> first | rfl | cases h

/-- An instruction either goes on or jumps. -/
theorem jumps_of_falls {M : Meaning V} {op : Opcode} {arg : UInt32} {st st' : List (Cell V)}
    (h : M.falls op arg st = some st') : M.jumps op st = none := by
  have hpass {c : Bool} {x y : List (Cell V)} (h : (if c then some x else none) = some st') :
      (if c then none else some y) = none := by
    cases c with
    | false => cases h
    | true => rfl
  have hstay {c : Bool} {x y : List (Cell V)} (h : (if c then none else some x) = some st') :
      (if c then some y else none) = none := by
    cases c with
    | false => rfl
    | true => cases h
  unfold jumps
  split
  all_goals first
  | rfl
  | exact hpass h
  | exact hstay h
  | cases h

theorem falls_compare (M : Meaning V) (c : CmpOp) (v w : V) (st : List (Cell V)) :
    M.falls c.opcode.1 c.opcode.2 (.value w :: .value v :: st) =
      some (.value (M.compare c v w) :: st) := by
  have h := congrArg (Option.map fun c => .value (M.compare c v w) :: st) c.comparison?_opcode
  cases c <;> exact h

end Meaning

/-- How control goes from point to point. -/
structure Course (Pt : Type) where
  /-- There is an instruction at a point, with its operand. -/
  op : Pt → Opcode → UInt32 → Prop
  next : Pt → Pt → Prop
  target : Pt → Pt → Prop
  /-- Nothing happens at a point but that control goes on. -/
  silent : Pt → Pt → Prop
  /-- The code of an expression, and where control is when its value has been pushed. -/
  value : Pt → Expr → Pt → Prop

structure Config (Pt V : Type) where
  point : Pt
  stack : List (Cell V)
  trace : List Expr

section

variable {Pt V : Type}

inductive Moves (M : Meaning V) (F : Course Pt) : Config Pt V → Config Pt V → Prop where
  | silent {p q : Pt} {st : List (Cell V)} {tr : List Expr} : F.silent p q →
      Moves M F ⟨p, st, tr⟩ ⟨q, st, tr⟩
  | next {p q : Pt} {op : Opcode} {arg : UInt32} {st st' : List (Cell V)} {tr : List Expr} :
      F.op p op arg → M.falls op arg st = some st' → F.next p q →
      Moves M F ⟨p, st, tr⟩ ⟨q, st', tr⟩
  | jump {p q : Pt} {op : Opcode} {arg : UInt32} {st st' : List (Cell V)} {tr : List Expr} :
      F.op p op arg → M.jumps op st = some st' → F.target p q →
      Moves M F ⟨p, st, tr⟩ ⟨q, st', tr⟩
  | value {p q : Pt} {e : Expr} {st : List (Cell V)} {tr : List Expr} : F.value p e q →
      Moves M F ⟨p, st, tr⟩ ⟨q, .value (M.value tr e) :: st, tr ++ [e]⟩

/-- Finitely many moves. -/
abbrev Runs (M : Meaning V) (F : Course Pt) : Config Pt V → Config Pt V → Prop :=
  Relation.ReflTransGen (Moves M F)

/-- The code is about to return what is on top of the stack. -/
def Course.Returns (F : Course Pt) (c : Config Pt V) (x : Cell V) : Prop :=
  (∃ arg, F.op c.point .returnValue arg) ∧ c.stack.head? = some x

end

/-- A part of a script: one item of it, or the code that pushes the value of an expression. -/
inductive Piece where
  | item (x : Item)
  | whole (e : Expr) (log : Script)

def Piece.script : Piece → Script
  | .item x => [x]
  | .whole _ log => log

abbrev Plot := List Piece

namespace Plot

def script (P : Plot) : Script := P.flatMap Piece.script

@[simp] theorem script_nil : script [] = [] := rfl

@[simp] theorem script_cons (p : Piece) (P : Plot) : script (p :: P) = p.script ++ script P := rfl

@[simp] theorem script_append (P Q : Plot) : script (P ++ Q) = script P ++ script Q :=
  List.flatMap_append

@[simp] theorem script_map_item (log : Script) : script (log.map .item) = log := by
  induction log with
  | nil => rfl
  | cons x log ih => exact congrArg (x :: ·) ih

theorem script_suffix {pt P : Plot} (h : pt <:+ P) : script pt <:+ script P := by
  obtain ⟨pre, rfl⟩ := h
  rw [script_append]
  exact List.suffix_append _ _

/-- Control in a plot is where some rest of it begins. A jump leads behind its label. -/
def course (P : Plot) : Course Plot where
  op pt op arg := ∃ x rest i, pt = .item x :: rest ∧ x.instruction? = some i ∧ i.opcode = op ∧
    i.arg = arg
  next pt pt' := ∃ x, pt = .item x :: pt'
  target pt pt' := ∃ op b rest, pt = .item (.jump op b) :: rest ∧ .item (.label b) :: pt' <:+ P
  silent pt pt' := ∃ x, pt = .item x :: pt' ∧ x.instruction? = none
  value pt e pt' := ∃ log, pt = .whole e log :: pt'

variable {V : Type} {M : Meaning V} {P : Plot} {rest taken : Plot} {st st' : List (Cell V)}
  {tr : List Expr}

theorem run_label (b : BlockId) :
    Runs M P.course ⟨.item (.label b) :: rest, st, tr⟩ ⟨rest, st, tr⟩ :=
  .single (.silent ⟨_, rfl, rfl⟩)

theorem run_intern (c : Constant) :
    Runs M P.course ⟨.item (.intern c) :: rest, st, tr⟩ ⟨rest, st, tr⟩ :=
  .single (.silent ⟨_, rfl, rfl⟩)

theorem run_allocs (n : Nat) :
    Runs M P.course ⟨(List.replicate n .alloc).map .item ++ rest, st, tr⟩ ⟨rest, st, tr⟩ := by
  induction n with
  | zero => exact .refl
  | succ n ih => exact .head (.silent ⟨_, rfl, rfl⟩) ih

theorem run_emit {op : Opcode} {arg : UInt32} (h : M.falls op arg st = some st') :
    Runs M P.course ⟨.item (.emit op arg) :: rest, st, tr⟩ ⟨rest, st', tr⟩ :=
  .single (.next ⟨_, _, _, rfl, rfl, rfl, rfl⟩ h ⟨_, rfl⟩)

theorem run_named {op : Opcode} {arg : UInt32} {name : String} (h : M.falls op arg st = some st') :
    Runs M P.course ⟨.item (.named op arg name) :: rest, st, tr⟩ ⟨rest, st', tr⟩ :=
  .single (.next ⟨_, _, _, rfl, rfl, rfl, rfl⟩ h ⟨_, rfl⟩)

theorem run_load (arg : UInt32) (c : Constant) :
    Runs M P.course ⟨.item (.load arg c) :: rest, st, tr⟩ ⟨rest, .constant arg :: st, tr⟩ :=
  .single (.next ⟨_, _, _, rfl, rfl, rfl, rfl⟩ rfl ⟨_, rfl⟩)

theorem run_past {op : Opcode} {b : BlockId} (h : M.falls op 0 st = some st') :
    Runs M P.course ⟨.item (.jump op b) :: rest, st, tr⟩ ⟨rest, st', tr⟩ :=
  .single (.next ⟨_, _, _, rfl, rfl, rfl, rfl⟩ h ⟨_, rfl⟩)

theorem run_jump {op : Opcode} {b : BlockId} (h : M.jumps op st = some st')
    (hb : .item (.label b) :: taken <:+ P) :
    Runs M P.course ⟨.item (.jump op b) :: rest, st, tr⟩ ⟨taken, st', tr⟩ :=
  .single (.jump ⟨_, _, _, rfl, rfl, rfl, rfl⟩ h ⟨_, _, _, rfl, hb⟩)

theorem run_value (e : Expr) (log : Script) :
    Runs M P.course ⟨.whole e log :: rest, st, tr⟩
      ⟨rest, .value (M.value tr e) :: st, tr ++ [e]⟩ :=
  .single (.value ⟨_, rfl⟩)

end Plot
end Wordcode
