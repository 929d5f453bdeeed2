import Wordcode.Proofs.Conditions
import Wordcode.Proofs.FlowCode
import Wordcode.Proofs.Keys
import Wordcode.Proofs.Operands

/-!
# Effects of code

A machine for code that does something: it reads and writes variables, attributes and items, and
builds lists and maps. It goes through the same courses as the machine that only evaluates, and what
that one does it does too. All that happens is kept in a history, on which values may depend.
-/

set_option autoImplicit false

namespace Wordcode

/-- Where a value is kept. -/
inductive Site (V : Type) where
  | variable (how : Access) (name : String)
  | attribute (object : V) (name : String)
  | item (object index : V)

inductive Event (V : Type) where
  | evaluated (e : Expr)
  | read (p : Site V)
  | combined (op : Operator) (left right : V)
  | stored (p : Site V) (v : V)
  /-- A value, which is on top of the stack, is appended to the list that is so far below it. -/
  | appended (distance : Nat) (stack : List (Cell V))
  | called (function : V) (items : List V)

abbrev History (V : Type) := List (Event V)

/-- Evaluating a constant is nothing that happens. -/
def Expr.note {V : Type} (e : Expr) : History V := if e.isConstant then [] else [.evaluated e]

/-- What has happened when expressions have been evaluated one after the other. -/
def Expr.notes {V : Type} (es : List Expr) : History V := es.flatMap Expr.note

theorem Expr.notes_cons {V : Type} (e : Expr) (es : List Expr) :
    (Expr.notes (e :: es) : History V) = e.note ++ Expr.notes es := List.flatMap_cons

theorem Expr.notes_append {V : Type} (es es' : List Expr) :
    (Expr.notes (es ++ es') : History V) = Expr.notes es ++ Expr.notes es' := List.flatMap_append

/-- Values, and what is done with them. What an expression evaluates to may depend on all that
happened before. -/
structure World (V : Type) where
  value : History V → Expr → V
  constant : Constant → V
  value_constant : ∀ h line c, value h (.constant line c) = constant c
  constant_alike : ∀ {c c' : Constant}, c.Alike c' → constant c = constant c'
  truth : V → Bool
  ofBool : Bool → V
  truth_ofBool : ∀ b, truth (ofBool b) = b
  compare : CmpOp → V → V → V
  /-- What iterating over a value gives. -/
  items : V → List V
  /-- What unpacking a value gives for each number. -/
  component : V → Nat → V
  read : History V → Site V → V
  combine : History V → Operator → V → V → V
  list : List V → V
  elements : V → Option (List V)
  elements_list : ∀ vs, elements (list vs) = some vs
  map : List (V × V) → V
  entries : V → Option (List (V × V))
  entries_map : ∀ ps, entries (map ps) = some ps
  /-- Two keys of a map are the same. -/
  same : V → V → Bool
  same_symm : ∀ {v w}, same v w = true → same w v = true
  same_trans : ∀ {u v w}, same u v = true → same v w = true → same u w = true
  tuple : List V → V
  cell : String → V
  /-- A function of the code with a serial number, and of the cells that the code refers to. -/
  function : UInt32 → Option V → V
  /-- What a function returns that is called with an iterator. -/
  call : History V → V → List V → V

/-- What operands stand for in a scope, and the iterator that the scope is run with. -/
structure Env (V : Type) where
  name? : Opcode → UInt32 → Option String
  constant? : UInt32 → Option Constant
  input : Option (List V)

/-- How an opcode accesses a variable. -/
def Opcode.access? : Opcode → Option Access
  | .loadFast | .storeFast => some .fast
  | .loadGlobal | .storeGlobal => some .global
  | .loadName | .storeName => some .name
  | .loadDeref | .loadClassderef | .storeDeref => some .deref
  | _ => none

/-- What an in-place instruction combines two values by. -/
def Opcode.inplace? : Opcode → Option Operator
  | .inplaceAdd => some .add
  | .inplaceSubtract => some .sub
  | .inplaceMultiply => some .mult
  | .inplaceMatrixMultiply => some .matMult
  | .inplaceTrueDivide => some .div
  | .inplaceFloorDivide => some .floorDiv
  | .inplaceModulo => some .mod
  | .inplacePower => some .pow
  | .inplaceLshift => some .lshift
  | .inplaceRshift => some .rshift
  | .inplaceAnd => some .bitAnd
  | .inplaceXor => some .bitXor
  | .inplaceOr => some .bitOr
  | _ => none

/-- What is written for an augmented assignment combines by its operator. -/
theorem Operator.inplace?_inplaceOpcode (o : Operator) : o.inplaceOpcode.inplace? = some o := by
  cases o <;> rfl

/-- The values on top of a stack, the deepest one first, and what is below them. -/
def popValues {V : Type} : Nat → List (Cell V) → Option (List V × List (Cell V))
  | 0, st => some ([], st)
  | n + 1, .value v :: st => (popValues n st).map fun (vs, st) => (vs ++ [v], st)
  | _ + 1, _ => none

/-- The tuple of cells that a function is made with, if the operand tells that there is one. -/
def popCells {V : Type} (arg : UInt32) : List (Cell V) → Option (Option V × List (Cell V))
  | .value cells :: st => if arg = 8 then some (cells, st)
    else if arg = 0 then some (none, .value cells :: st) else none
  | st => if arg = 0 then some (none, st) else none

/-- Values pushed one after the other. -/
def pushValues {V : Type} (vs : List V) (st : List (Cell V)) : List (Cell V) :=
  vs.foldl (fun st v => .value v :: st) st

/-- Keys and values that were pushed in turn. -/
def pairUp {V : Type} : List V → List (V × V)
  | k :: v :: vs => (k, v) :: pairUp vs
  | _ => []

section

variable {V : Type}

@[simp] theorem pushValues_nil (st : List (Cell V)) : pushValues [] st = st := rfl

@[simp] theorem pushValues_cons (v : V) (vs : List V) (st : List (Cell V)) :
    pushValues (v :: vs) st = pushValues vs (.value v :: st) := rfl

theorem pushValues_append (vs ws : List V) (st : List (Cell V)) :
    pushValues (vs ++ ws) st = pushValues ws (pushValues vs st) := List.foldl_append

@[simp] theorem popValues_pushValues (vs : List V) (st : List (Cell V)) :
    popValues vs.length (pushValues vs st) = some (vs, st) := by
  induction vs using List.reverseRecOn generalizing st with
  | nil => rfl
  | append_singleton vs v ih =>
    rw [pushValues_append, List.length_append, List.length_singleton, pushValues_cons,
      pushValues_nil, popValues, ih]
    rfl

end

namespace World

variable {V : Type} (W : World V)

/-- A key that is there keeps its place and gets the value. -/
def insert (k v : V) : List (V × V) → List (V × V)
  | [] => [(k, v)]
  | p :: m => if W.same p.1 k then (p.1, v) :: m else p :: insert k v m

/-- Pairs inserted one after the other. -/
def insertAll (m : List (V × V)) (ps : List (V × V)) : List (V × V) :=
  ps.foldl (fun m p => W.insert p.1 p.2 m) m

end World

/-- Values that a small world is made of. -/
inductive Datum where
  | unit
  | bool (b : Bool)
  | constant (key : List UInt8)
  | list (vs : List Datum)
  | map (ps : List (Datum × Datum))

namespace Datum

def truth : Datum → Bool
  | .unit => false
  | .bool b => b
  | .constant _ => true
  | .list vs => !vs.isEmpty
  | .map ps => !ps.isEmpty

/-- The items of a list; other values do not have any. -/
def items : Datum → List Datum
  | .list vs => vs
  | _ => []

def same : Datum → Datum → Bool
  | .constant k, .constant k' => k == k'
  | _, _ => false

/-- What has been stored last in a variable. -/
def latest (h : History Datum) (name : String) : Datum :=
  h.foldl (fun v x => match x with
    | .stored (.variable _ name') w => if name' = name then w else v
    | _ => v) .unit

end Datum

/-- A world in which names and constants have values, lists have items, and nothing else is of
interest. -/
def World.small : World Datum where
  value h e :=
    match e with
    | .name _ id _ => Datum.latest h id
    | .constant _ c => .constant c.key
    | _ => .unit
  constant c := .constant c.key
  value_constant _ _ _ := rfl
  constant_alike h := congrArg Datum.constant h.key_eq
  truth := Datum.truth
  ofBool := .bool
  truth_ofBool _ := rfl
  compare _ _ _ := .unit
  items := Datum.items
  component v i := v.items.getD i .unit
  read h p :=
    match p with
    | .variable _ name => Datum.latest h name
    | _ => .unit
  combine _ _ _ _ := .unit
  list := .list
  elements v :=
    match v with
    | .list vs => some vs
    | _ => none
  elements_list _ := rfl
  map := .map
  entries v :=
    match v with
    | .map ps => some ps
    | _ => none
  entries_map _ := rfl
  same := Datum.same
  same_symm {v w} h := by
    cases v <;> cases w <;> simp_all [Datum.same]
  same_trans {u v w} h h' := by
    cases u <;> cases v <;> cases w <;> simp_all [Datum.same]
  tuple := .list
  cell _ := .unit
  function _ _ := .unit
  call _ _ _ := .unit

namespace World

variable {V : Type} (W : World V)

/-- What the machine goes by that only evaluates, if it is started after a history. -/
def after (h : History V) : Meaning V where
  value tr e := W.value (h ++ Expr.notes tr) e
  truth := W.truth
  ofBool := W.ofBool
  truth_ofBool := W.truth_ofBool
  compare := W.compare
  items := W.items

/-- What loading a variable pushes. The parameter `.0` holds the iterator that the scope is run
with. -/
def load (env : Env V) (h : History V) (how : Access) (name : String) : Cell V × History V :=
  match if name = ".0" then env.input else none with
  | some xs => (.iterator xs, h)
  | none => (.value (W.read h (.variable how name)), h ++ [.read (.variable how name)])

/-- What an instruction makes of the stack and the history if control goes on to the next one. -/
def does (env : Env V) (op : Opcode) (arg : UInt32) (st : List (Cell V)) (h : History V) :
    Option (List (Cell V) × History V) :=
  match op, st with
  | .dupTopTwo, a :: b :: st => some (a :: b :: a :: b :: st, h)
  | .loadName, st | .loadGlobal, st | .loadFast, st | .loadDeref, st | .loadClassderef, st => do
    let (x, h) := W.load env h (← op.access?) (← env.name? op arg)
    return (x :: st, h)
  | .loadAttr, .value o :: st => do
    let p := Site.attribute o (← env.name? op arg)
    return (.value (W.read h p) :: st, h ++ [.read p])
  | .binarySubscr, .value i :: .value o :: st =>
    some (.value (W.read h (.item o i)) :: st, h ++ [.read (.item o i)])
  | .storeName, .value v :: st | .storeGlobal, .value v :: st | .storeFast, .value v :: st
  | .storeDeref, .value v :: st => do
    return (st, h ++ [.stored (.variable (← op.access?) (← env.name? op arg)) v])
  | .storeAttr, .value o :: .value v :: st => do
    return (st, h ++ [.stored (.attribute o (← env.name? op arg)) v])
  | .storeSubscr, .value i :: .value o :: .value v :: st => some (st, h ++ [.stored (.item o i) v])
  | .storeName, _ | .storeGlobal, _ | .storeFast, _ | .storeDeref, _ => none
  | .unpackSequence, .value v :: st =>
    some ((List.range arg.toNat).map (fun i => .value (W.component v i)) ++ st, h)
  | .buildList, st => do
    let (vs, st) ← popValues arg.toNat st
    return (.value (W.list vs) :: st, h)
  | .listAppend, .value v :: st =>
    match st[arg.toNat - 1]? with
    | some (.value l) => do
      let vs ← W.elements l
      return (st.set (arg.toNat - 1) (.value (W.list (vs ++ [v]))),
        h ++ [.appended arg.toNat (.value v :: st)])
    | _ => none
  | .buildMap, st => do
    let (vs, st) ← popValues (2 * arg.toNat) st
    return (.value (W.map (W.insertAll [] (pairUp vs))) :: st, h)
  | .buildConstKeyMap, .constant k :: st =>
    match env.constant? k with
    | some (.tuple cs) => do
      let (vs, st) ← popValues arg.toNat st
      return (.value (W.map (W.insertAll [] ((cs.map W.constant).zip vs))) :: st, h)
    | _ => none
  | .dictUpdate, .value w :: .value v :: st =>
    if arg = 1 then do
      return (.value (W.map (W.insertAll (← W.entries v) (← W.entries w))) :: st, h)
    else none
  | .buildTuple, st => do
    let (vs, st) ← popValues arg.toNat st
    return (.value (W.tuple vs) :: st, h)
  | .loadClosure, st => do return (.value (W.cell (← env.name? op arg)) :: st, h)
  | .makeFunction, .constant _ :: .constant k :: st =>
    match env.constant? k with
    | some (.code c) => do
      let (cells, st) ← popCells arg st
      return (.value (W.function c.serial cells) :: st, h)
    | _ => none
  | .callFunction, .iterator xs :: .value f :: st =>
    if arg = 1 then some (.value (W.call h f xs) :: st, h ++ [.called f xs]) else none
  | op, st =>
    match op.inplace?, st with
    | some o, .value w :: .value v :: st =>
      some (.value (W.combine h o v w) :: st, h ++ [.combined o v w])
    | some _, _ => none
    | none, st => ((W.after h).falls op arg st).map (·, h)

end World

structure State (Pt V : Type) where
  point : Pt
  stack : List (Cell V)
  history : History V

namespace World

variable {Pt V : Type}

inductive Moves (W : World V) (env : Env V) (F : Course Pt) : State Pt V → State Pt V → Prop where
  | silent {p q : Pt} {st : List (Cell V)} {h : History V} : F.silent p q →
      Moves W env F ⟨p, st, h⟩ ⟨q, st, h⟩
  | next {p q : Pt} {op : Opcode} {arg : UInt32} {st st' : List (Cell V)} {h h' : History V} :
      F.op p op arg → W.does env op arg st h = some (st', h') → F.next p q →
      Moves W env F ⟨p, st, h⟩ ⟨q, st', h'⟩
  | jump {p q : Pt} {op : Opcode} {arg : UInt32} {st st' : List (Cell V)} {h : History V} :
      F.op p op arg → (W.after h).jumps op st = some st' → F.target p q →
      Moves W env F ⟨p, st, h⟩ ⟨q, st', h⟩
  | value {p q : Pt} {e : Expr} {st : List (Cell V)} {h : History V} : F.value p e q →
      Moves W env F ⟨p, st, h⟩ ⟨q, .value (W.value h e) :: st, h ++ e.note⟩

abbrev Runs (W : World V) (env : Env V) (F : Course Pt) : State Pt V → State Pt V → Prop :=
  Relation.ReflTransGen (W.Moves env F)

/-- The code is about to return what is on top of the stack. -/
def Returns (F : Course Pt) (s : State Pt V) (x : Cell V) : Prop :=
  (∃ arg, F.op s.point .returnValue arg) ∧ s.stack.head? = some x

end World

/-- The opcode takes a value off the stack to a variable. -/
def Opcode.storesVariable : Opcode → Bool
  | .storeName | .storeGlobal | .storeFast | .storeDeref => true
  | _ => false

namespace Draft

theorem access?_load (d : Draft) (name : String) :
    (d.nameOpcode name .load).access? = some (d.access name) := by
  unfold nameOpcode
  cases d.access name with
  | deref =>
    dsimp only [derefOpcode]
    split <;> rfl
  | _ => rfl

theorem storesVariable_load (d : Draft) (name : String) :
    (d.nameOpcode name .load).storesVariable = false := by
  unfold nameOpcode
  cases d.access name with
  | deref =>
    dsimp only [derefOpcode]
    split <;> rfl
  | _ => rfl

theorem access?_store (d : Draft) (name : String) :
    (d.nameOpcode name .store).access? = some (d.access name) := by
  unfold nameOpcode
  cases d.access name <;> rfl

theorem storesVariable_store (d : Draft) (name : String) :
    (d.nameOpcode name .store).storesVariable = true := by
  unfold nameOpcode
  cases d.access name <;> rfl

end Draft

namespace World

variable {V : Type} {W : World V} {env : Env V} {op : Opcode} {arg : UInt32}
  {st st' : List (Cell V)} {h h' : History V}

/-- What the machine does that only evaluates is done here too, except that storing is noted. -/
theorem does_of_falls (hop : op.storesVariable = false)
    (hfalls : (W.after h).falls op arg st = some st') : W.does env op arg st h = some (st', h) := by
  have hrest : W.does env op arg st h = ((W.after h).falls op arg st).map (·, h) := by
    cases op <;> first
      | rfl
      | exact absurd hop (by decide)
      | simp [Meaning.falls] at hfalls
  rw [hrest, hfalls]
  rfl

theorem isTerminal_of_does (hdoes : W.does env op arg st h = some (st', h')) :
    op.isTerminal = false := by
  cases op <;> first | rfl | cases hdoes

/-- An instruction either goes on or jumps. -/
theorem jumps_of_does (hdoes : W.does env op arg st h = some (st', h')) :
    (W.after h).jumps op st = none := by
  have hfalls (hop : W.does env op arg st h = ((W.after h).falls op arg st).map (·, h)) :
      (W.after h).jumps op st = none := by
    rw [hop] at hdoes
    obtain ⟨_, hfalls, _⟩ := Option.map_eq_some_iff.mp hdoes
    exact Meaning.jumps_of_falls hfalls
  cases op <;> first | rfl | exact hfalls rfl

/-- The operand of a jump is for control only. -/
theorem does_of_isJump (hop : op.isJump = true) (arg arg' : UInt32) :
    W.does env op arg st h = W.does env op arg' st h := by
  have hrest (hdoes : ∀ arg, W.does env op arg st h = ((W.after h).falls op arg st).map (·, h)) :
      W.does env op arg st h = W.does env op arg' st h := by
    rw [hdoes, hdoes, Meaning.falls_of_isJump _ hop arg arg']
  cases op <;> first | exact hrest fun _ => rfl | cases hop

theorem does_of_load {how : Access} {name : String} (hop : op.access? = some how)
    (hload : op.storesVariable = false) (hname : env.name? op arg = some name) :
    W.does env op arg st h = some ((W.load env h how name).1 :: st, (W.load env h how name).2) := by
  cases op <;> cases hop <;> cases hload <;> (rw [does, hname]; rfl)

theorem does_of_store {how : Access} {name : String} {v : V} (hop : op.access? = some how)
    (hstore : op.storesVariable = true) (hname : env.name? op arg = some name) :
    W.does env op arg (.value v :: st) h = some (st, h ++ [.stored (.variable how name) v]) := by
  cases op <;> cases hop <;> cases hstore <;> (rw [does, hname]; rfl)

theorem does_load {d : Draft} {name : String}
    (hname : env.name? (d.nameOpcode name .load) arg = some name) :
    W.does env (d.nameOpcode name .load) arg st h =
      some ((W.load env h (d.access name) name).1 :: st, (W.load env h (d.access name) name).2) :=
  does_of_load (d.access?_load name) (d.storesVariable_load name) hname

theorem load_of_input (hinput : env.input = none) (how : Access) (name : String) :
    W.load env h how name =
      (.value (W.read h (.variable how name)), h ++ [.read (.variable how name)]) := by
  simp [load, hinput]

theorem does_store {d : Draft} {name : String} {v : V}
    (hname : env.name? (d.nameOpcode name .store) arg = some name) :
    W.does env (d.nameOpcode name .store) arg (.value v :: st) h =
      some (st, h ++ [.stored (.variable (d.access name) name) v]) :=
  does_of_store (d.access?_store name) (d.storesVariable_store name) hname

theorem does_loadAttr {name : String} {v : V} (hname : env.name? .loadAttr arg = some name) :
    W.does env .loadAttr arg (.value v :: st) h =
      some (.value (W.read h (.attribute v name)) :: st, h ++ [.read (.attribute v name)]) := by
  simp [does, hname]

theorem does_storeAttr {name : String} {v w : V} (hname : env.name? .storeAttr arg = some name) :
    W.does env .storeAttr arg (.value v :: .value w :: st) h =
      some (st, h ++ [.stored (.attribute v name) w]) := by
  simp [does, hname]

theorem does_of_inplace {o : Operator} (hop : op.inplace? = some o) (v w : V) :
    W.does env op arg (.value w :: .value v :: st) h =
      some (.value (W.combine h o v w) :: st, h ++ [.combined o v w]) := by
  cases op <;> cases hop <;> rfl

theorem does_inplace (o : Operator) (v w : V) :
    W.does env o.inplaceOpcode arg (.value w :: .value v :: st) h =
      some (.value (W.combine h o v w) :: st, h ++ [.combined o v w]) :=
  does_of_inplace o.inplace?_inplaceOpcode v w

end World

/-- The operands of the instructions of a script stand for the names and constants that they were
written for. -/
structure Env.Knows {V : Type} (env : Env V) (log : Script) : Prop where
  name : ∀ op arg name, .named op arg name ∈ log → env.name? op arg = some name
  constant : ∀ arg c, .load arg c ∈ log → ∃ c', env.constant? arg = some c' ∧ c'.Alike c

theorem Env.Knows.mono {V : Type} {env : Env V} {log log' : Script} (h : env.Knows log)
    (hsub : log' ⊆ log) : env.Knows log' :=
  ⟨fun op arg name hmem => h.name op arg name (hsub hmem),
    fun arg c hmem => h.constant arg c (hsub hmem)⟩

theorem Env.Knows.left {V : Type} {env : Env V} {log log' : Script}
    (h : env.Knows (log ++ log')) : env.Knows log := h.mono (List.subset_append_left _ _)

theorem Env.Knows.right {V : Type} {env : Env V} {log log' : Script}
    (h : env.Knows (log ++ log')) : env.Knows log' := h.mono (List.subset_append_right _ _)

theorem Env.Knows.tail {V : Type} {env : Env V} {x : Item} {log : Script}
    (h : env.Knows (x :: log)) : env.Knows log := h.mono (List.subset_cons_self _ _)

theorem Env.Knows.head_name {V : Type} {env : Env V} {op : Opcode} {arg : UInt32} {name : String}
    {log : Script} (h : env.Knows (.named op arg name :: log)) : env.name? op arg = some name :=
  h.name op arg name List.mem_cons_self

namespace World

variable {V : Type} {W : World V} {env : Env V} {P rest taken : Plot} {st st' : List (Cell V)}
  {h h' : History V}

theorem run_label (b : BlockId) :
    W.Runs env P.course ⟨.item (.label b) :: rest, st, h⟩ ⟨rest, st, h⟩ :=
  .single (.silent ⟨_, rfl, rfl⟩)

theorem run_allocs (n : Nat) :
    W.Runs env P.course ⟨(List.replicate n .alloc).map .item ++ rest, st, h⟩ ⟨rest, st, h⟩ := by
  induction n with
  | zero => exact .refl
  | succ n ih => exact .head (.silent ⟨_, rfl, rfl⟩) ih

theorem run_item {x : Item} {i : Instruction} (hx : x.instruction? = some i)
    (hdoes : W.does env i.opcode i.arg st h = some (st', h')) :
    W.Runs env P.course ⟨.item x :: rest, st, h⟩ ⟨rest, st', h'⟩ :=
  .single (.next ⟨_, _, _, rfl, hx, rfl, rfl⟩ hdoes ⟨_, rfl⟩)

theorem run_jump {op : Opcode} {b : BlockId} (hjumps : (W.after h).jumps op st = some st')
    (hb : .item (.label b) :: taken <:+ P) :
    W.Runs env P.course ⟨.item (.jump op b) :: rest, st, h⟩ ⟨taken, st', h⟩ :=
  .single (.jump ⟨_, _, _, rfl, rfl, rfl, rfl⟩ hjumps ⟨_, _, _, rfl, hb⟩)

end World

/-- Control that goes through a part of a plot makes one stack and history of another. -/
def Plot.Makes {V : Type} (pl : Plot) (W : World V) (env : Env V)
    (before after : List (Cell V) × History V) : Prop :=
  ∀ (P rest : Plot), pl ++ rest <:+ P →
    W.Runs env P.course ⟨pl ++ rest, before.1, before.2⟩ ⟨rest, after.1, after.2⟩

namespace Plot.Makes

variable {V : Type} {W : World V} {env : Env V} {pl pl' : Plot} {a b c : List (Cell V) × History V}
  {st st' : List (Cell V)} {h h' : History V}

theorem nil (a : List (Cell V) × History V) : Makes [] W env a a := fun _ _ _ => .refl

theorem append (hpl : pl.Makes W env a b) (hpl' : pl'.Makes W env b c) :
    Makes (pl ++ pl') W env a c := by
  intro P rest hP
  rw [List.append_assoc] at hP ⊢
  exact (hpl P _ hP).trans (hpl' P rest ((List.suffix_append _ _).trans hP))

theorem item {x : Item} {i : Instruction} (hx : x.instruction? = some i)
    (hdoes : W.does env i.opcode i.arg st h = some (st', h')) :
    Makes [.item x] W env (st, h) (st', h') := fun _ _ _ => World.run_item hx hdoes

theorem emit {op : Opcode} {arg : UInt32} (hdoes : W.does env op arg st h = some (st', h')) :
    Makes [.item (.emit op arg)] W env (st, h) (st', h') := item rfl hdoes

theorem named {op : Opcode} {arg : UInt32} {name : String}
    (hdoes : W.does env op arg st h = some (st', h')) :
    Makes [.item (.named op arg name)] W env (st, h) (st', h') := item rfl hdoes

theorem load (arg : UInt32) (k : Constant) :
    Makes [.item (.intern k), .item (.load arg k)] W env (st, h) (.constant arg :: st, h) :=
  fun _ _ _ => .head (.silent ⟨_, rfl, rfl⟩) (World.run_item rfl rfl)

theorem allocs (n : Nat) : Makes ((List.replicate n .alloc).map .item) W env a a :=
  fun _ _ _ => World.run_allocs n

theorem whole (e : Expr) (log : Script) :
    Makes [.whole e log] W env (st, h) (.value (W.value h e) :: st, h ++ e.note) :=
  fun _ _ _ => .single (.value ⟨_, rfl⟩)

end Plot.Makes

/-- Apart from what is taken as a whole there is no instruction. -/
def Plot.Bare (pl : Plot) : Prop := ∀ x, .item x ∈ pl → x.instruction? = none

theorem Plot.Bare.append {pl pl' : Plot} (h : pl.Bare) (h' : pl'.Bare) : Bare (pl ++ pl') :=
  fun x hx => (List.mem_append.mp hx).elim (h x) (h' x)

/-- The code of an expression that is read pushes its value. -/
theorem Expr.exists_bare_plot {o : Options} {d : Draft} {n m : Nat} {log : Script} {e : Expr}
    (he : e.Fits (fun _ => True) .load) (h : Emits o d [.run (.expr e .push)] n log m) :
    ∃ pl : Plot, pl.Shows o TakesAll log ∧ pl.Bare ∧
      ∀ {V : Type} (W : World V) (env : Env V) (st : List (Cell V)) (h : History V),
        pl.Makes W env (st, h) (.value (W.value h e) :: st, h ++ e.note) := by
  obtain ⟨out, rfl, hsteps⟩ := h.of_task
  refine ⟨_, (Plot.shows_items o _).append (Plot.shows_whole trivial he ⟨_, _, _, _, hsteps⟩), ?_,
    fun W env st h => (Plot.Makes.allocs _).append (.whole e out)⟩
  intro x hx
  rcases List.mem_append.mp hx with hx | hx
  · obtain ⟨y, hy, heq⟩ := List.mem_map.mp hx
    cases heq
    rw [(List.mem_replicate.mp hy).2]
    rfl
  · cases List.mem_singleton.mp hx

theorem Expr.exists_plot_pushes {o : Options} {d : Draft} {n m : Nat} {log : Script} {e : Expr}
    (he : e.Fits (fun _ => True) .load) (h : Emits o d [.run (.expr e .push)] n log m) :
    ∃ pl : Plot, pl.Shows o TakesAll log ∧
      ∀ {V : Type} (W : World V) (env : Env V) (st : List (Cell V)) (h : History V),
        pl.Makes W env (st, h) (.value (W.value h e) :: st, h ++ e.note) := by
  obtain ⟨pl, hshows, -, hmakes⟩ := e.exists_bare_plot he h
  exact ⟨pl, hshows, hmakes⟩

end Wordcode
