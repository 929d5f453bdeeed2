import Wordcode.Proofs.StrippedAssertions

/-!
# Visits to nested scopes

Tables of nested scopes are matched with the scopes of a program by their order alone. Which scopes
code visits, and in which order, is said here once for the order in which the parts of a construct
are evaluated and once for the order in which they are written. A few constructs make a
difference: a condition stands behind what it decides on, a value behind the targets that it is
stored to, and annotations of parameters stand among their defaults.
-/

set_option autoImplicit false

namespace Wordcode

open Build

/-- The order in which the parts of a construct are gone through. -/
inductive Reading where
  | evaluated
  | written

/-- Parts of which the first are evaluated before the second, but written behind them. -/
def Reading.swap {α : Type} (r : Reading) (xs ys : List α) : List α :=
  match r with
  | .evaluated => xs ++ ys
  | .written => ys ++ xs

/-- What happens to the next table: a scope is entered with it, or it is passed over. -/
inductive Visit where
  | enter (body : Body) (name : String) (line : UInt32)
  | skip

/-- The parts of an expression that are evaluated in the scope it stands in. Where comparisons and
comparators do not match, only the last of the comparators left over is evaluated. -/
def Expr.partsIn (r : Reading) : Expr → List Expr
  | .lambda _ args _ => args.defaults ++ args.kwDefaultValues
  | .ifExp _ test body orelse => r.swap [test] [body] ++ [orelse]
  | .dict _ keys values => (keys.zip values).flatMap fun p => [p.1, p.2]
  | .listComp _ _ [] => []
  | .listComp _ _ (g :: _) => [g.iter]
  | .compare _ left ops comparators =>
    left :: (comparators.dropLast.take (ops.length - 1) ++ comparators.getLast?.toList)
  | e => e.parts

/-- The scope that an expression opens before its parts are evaluated. -/
def Expr.opens : Expr → List Visit
  | .listComp line elt (⟨target, _, filters⟩ :: rest) =>
    [.enter (.comprehension target filters rest elt) "<listcomp>" line]
  | _ => []

/-- The scope that an expression opens when its parts are evaluated. -/
def Expr.closes : Expr → List Visit
  | .lambda line _ body => [.enter (.lambda body) "<lambda>" line]
  | _ => []

theorem mem_flatMap_zip {xs ys : List Expr} {e : Expr}
    (h : e ∈ (xs.zip ys).flatMap fun p => [p.1, p.2]) : e ∈ xs ∨ e ∈ ys := by
  obtain ⟨p, hp, he⟩ := List.mem_flatMap.mp h
  obtain ⟨hx, hy⟩ := List.of_mem_zip hp
  simp only [List.mem_cons, List.not_mem_nil, or_false] at he
  rcases he with rfl | rfl
  · exact .inl hx
  · exact .inr hy

theorem Reading.mem_swap {α : Type} {r : Reading} {xs ys : List α} {x : α} :
    x ∈ r.swap xs ys ↔ x ∈ xs ∨ x ∈ ys := by
  cases r
  · exact List.mem_append
  · exact List.mem_append.trans or_comm

theorem Expr.mem_operands_of_mem_partsIn {r : Reading} {e e' : Expr} (h : e' ∈ e.partsIn r) :
    e' ∈ e.operands := by
  cases e with
  | lambda line args body =>
    exact (List.mem_append.mp h).elim (List.mem_append_left _) fun h =>
      List.mem_append_right _ (List.mem_filterMap.mpr ⟨_, mem_kwDefaults_of_mem_values h, rfl⟩)
  | ifExp line test body orelse =>
    simp only [partsIn, List.mem_append, Reading.mem_swap, List.mem_singleton] at h
    simp only [operands, parts, List.mem_cons, List.not_mem_nil, or_false]
    tauto
  | dict line keys values => exact List.mem_append.mpr (mem_flatMap_zip h)
  | listComp line elt gs => cases gs <;> exact h
  | compare line left ops comparators =>
    simp only [partsIn, List.mem_cons, List.mem_append, Option.mem_toList] at h
    simp only [operands, parts, List.mem_cons]
    rcases h with rfl | h | h
    · exact .inl rfl
    · exact .inr (List.dropLast_sublist _ |>.subset ((List.take_sublist _ _).subset h))
    · exact .inr (List.mem_of_getLast? h)
  | _ => exact h

/-- The scopes that an expression visits. -/
def Expr.visits (r : Reading) (e : Expr) : List Visit :=
  e.opens ++ (e.partsIn r).attach.flatMap (fun ⟨e', _⟩ => e'.visits r) ++ e.closes
termination_by sizeOf e
decreasing_by
  exact Expr.sizeOf_lt_of_mem_operands (Expr.mem_operands_of_mem_partsIn ‹_›)

/-- The scopes that expressions visit one after the other. -/
def Expr.visitsOf (r : Reading) (es : List Expr) : List Visit := es.flatMap (Expr.visits r)

@[simp] theorem Expr.visitsOf_nil (r : Reading) : Expr.visitsOf r [] = [] := rfl

@[simp] theorem Expr.visitsOf_cons (r : Reading) (e : Expr) (es : List Expr) :
    Expr.visitsOf r (e :: es) = e.visits r ++ Expr.visitsOf r es := List.flatMap_cons

@[simp] theorem Expr.visitsOf_append (r : Reading) (es es' : List Expr) :
    Expr.visitsOf r (es ++ es') = Expr.visitsOf r es ++ Expr.visitsOf r es' := List.flatMap_append

theorem Expr.visits_eq (r : Reading) (e : Expr) :
    e.visits r = e.opens ++ Expr.visitsOf r (e.partsIn r) ++ e.closes := by
  rw [visits]
  simp [visitsOf, List.flatMap]

/-- Parameters beside their defaults, as far as there are any. -/
def Param.beside (ps : List Param) (defaults : List (Option Expr)) : List (Param × Option Expr) :=
  ps.zip (defaults ++ List.replicate (ps.length - defaults.length) none)

/-- Positional parameters beside their defaults, which belong to the last of them. -/
def Arguments.positional (a : Arguments) : List (Param × Option Expr) :=
  Param.beside (a.posonly ++ a.params)
    (List.replicate (a.posonly.length + a.params.length - a.defaults.length) none ++
      a.defaults.map some)

/-- The annotation of a parameter and its default. -/
def Param.written (p : Param × Option Expr) : List Expr := (Param.annotation p.1).toList ++ p.2.toList

/-- The expressions in the head of a function behind its decorators. -/
def Arguments.partsIn (r : Reading) (a : Arguments) (returns : Option Expr) : List Expr :=
  match r with
  | .evaluated => a.defaults ++ a.kwDefaultValues ++ (a.annotated returns).map Prod.snd
  | .written =>
    a.positional.flatMap Param.written ++ a.vararg.toList.filterMap Param.annotation ++
      (Param.beside a.kwonly a.kwDefaults).flatMap Param.written ++
      a.kwarg.toList.filterMap Param.annotation ++ returns.toList

mutual

/-- The scopes that a statement visits in which no final body stands. -/
def Stmt.visits (r : Reading) (o : Options) : Stmt → List Visit
  | .functionDef line name args body decorators returns =>
    Expr.visitsOf r (decorators ++ args.partsIn r returns) ++
      [.enter (.function body) name (definitionLine line decorators)]
  | .classDef line name bases keywords body decorators =>
    Expr.visitsOf r decorators ++
      .enter (.classBody body) name (definitionLine line decorators) ::
        Expr.visitsOf r (bases ++ keywords.map Keyword.value)
  | .ret _ value => Expr.visitsOf r value.toList
  | .delete _ targets => Expr.visitsOf r targets
  | .assign _ targets value => Expr.visitsOf r (r.swap [value] targets)
  | .augAssign _ target _ value => Expr.visitsOf r [target, value]
  | .raise _ none _ => []
  | .raise _ (some exc) cause => Expr.visitsOf r (exc :: cause.toList)
  | .assert _ test msg =>
    if o.stripsAsserts then List.replicate (Expr.scopesOf (test :: msg.toList)) .skip
    else Expr.visitsOf r (test :: msg.toList)
  | .expr _ value => value.visits r
  | .forLoop _ target iter body orelse =>
    Expr.visitsOf r (r.swap [iter] [target]) ++ Stmt.visitsOf r o body ++ Stmt.visitsOf r o orelse
  | .whileLoop _ test body orelse | .ifElse _ test body orelse =>
    test.visits r ++ Stmt.visitsOf r o body ++ Stmt.visitsOf r o orelse
  | .tryExcept _ body handlers orelse _ =>
    Stmt.visitsOf r o body ++ Handler.visitsOf r o handlers ++ Stmt.visitsOf r o orelse
  | _ => []

def Stmt.visitsOf (r : Reading) (o : Options) : List Stmt → List Visit
  | [] => []
  | s :: ss => Stmt.visits r o s ++ Stmt.visitsOf r o ss

def Handler.visitsOf (r : Reading) (o : Options) : List Handler → List Visit
  | [] => []
  | ⟨type, _, body, _⟩ :: hs =>
    Expr.visitsOf r type.toList ++ Stmt.visitsOf r o body ++ Handler.visitsOf r o hs

end

def Stmt.finalbody : Stmt → List Stmt
  | .tryExcept _ _ _ _ finalbody => finalbody
  | _ => []

/-- No final body stands in a statement, scopes nested in it apart. -/
inductive Stmt.NoFinal : Stmt → Prop where
  | intro {s : Stmt} : s.finalbody = [] → (∀ s' ∈ s.block, NoFinal s') → NoFinal s

/-- The expressions of a loop of a comprehension that is not the outermost. -/
def Generator.partsIn (r : Reading) (g : Generator) : List Expr :=
  r.swap [g.iter] [g.target] ++ g.filters

/-- The scopes that a nested scope visits. The element of a comprehension is evaluated last. -/
def Body.visits (r : Reading) (o : Options) : Body → List Visit
  | .lambda e => e.visits r
  | .comprehension target filters rest element =>
    Expr.visitsOf r
      (r.swap (target :: (filters ++ rest.flatMap (Generator.partsIn r))) [element])
  | .function body | .classBody body => Stmt.visitsOf r o (withoutDocstring o body)

/-- No final body stands in a nested scope, scopes inside it apart. -/
def Body.NoFinal : Body → Prop
  | .function body | .classBody body => ∀ s ∈ body, s.NoFinal
  | _ => True

def Program.visits (r : Reading) (o : Options) : Program → List Visit
  | .module body => Stmt.visitsOf r o (withoutDocstring o body)
  | .expression e => e.visits r
  | .interactive _ => []

def Program.NoFinal : Program → Prop
  | .module body => ∀ s ∈ body, s.NoFinal
  | _ => True

end Wordcode
