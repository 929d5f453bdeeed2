import Wordcode.Proofs.Scheme

/-!
# Programs in context

A program is in context if its expressions stand where they make sense: values are read, targets
are of a kind that can be assigned or deleted. For such a program `need` tells how many entries of
the operand stack its code may take, counted from where the construct begins.
-/

set_option autoImplicit false

namespace Wordcode

/-- An expression that is used in one way throughout: read, assigned or deleted. -/
inductive Expr.Fits (K : CodeObject → Prop) : Expr → Ctx → Prop where
  | boolOp {line : UInt32} {op : BoolOp} {values : List Expr} :
      (∀ e ∈ values, Fits K e .load) → Fits K (.boolOp line op values) .load
  | binOp {line : UInt32} {left right : Expr} {op : Operator} : Fits K left .load →
      Fits K right .load → Fits K (.binOp line left op right) .load
  | unaryOp {line : UInt32} {op : UnaryOp} {operand : Expr} : Fits K operand .load →
      Fits K (.unaryOp line op operand) .load
  | lambda {line : UInt32} {args : Arguments} {body : Expr} :
      (∀ e ∈ args.defaults, Fits K e .load) → (∀ e, some e ∈ args.kwDefaults → Fits K e .load) →
      Fits K body .load → Fits K (.lambda line args body) .load
  | ifExp {line : UInt32} {test body orelse : Expr} : Fits K test .load → Fits K body .load →
      Fits K orelse .load → Fits K (.ifExp line test body orelse) .load
  | dict {line : UInt32} {keys values : List Expr} : (∀ e ∈ keys, Fits K e .load) →
      (∀ e ∈ values, Fits K e .load) → Fits K (.dict line keys values) .load
  | set {line : UInt32} {elts : List Expr} : (∀ e ∈ elts, Fits K e .load) →
      Fits K (.set line elts) .load
  | listComp {line : UInt32} {elt : Expr} {generators : List Generator} : Fits K elt .load →
      (∀ g ∈ generators, Fits K g.target .store) → (∀ g ∈ generators, Fits K g.iter .load) →
      (∀ g ∈ generators, ∀ e ∈ g.filters, Fits K e .load) →
      Fits K (.listComp line elt generators) .load
  | yield {line : UInt32} {value : Option Expr} : (∀ e, value = some e → Fits K e .load) →
      Fits K (.yield line value) .load
  | compare {line : UInt32} {left : Expr} {ops : List CmpOp} {comparators : List Expr} :
      ops.length = comparators.length → Fits K left .load → (∀ e ∈ comparators, Fits K e .load) →
      Fits K (.compare line left ops comparators) .load
  | call {line : UInt32} {func : Expr} {args : List Expr} {keywords : List Keyword} :
      Fits K func .load → (∀ e ∈ args, Fits K e .load) → (∀ k ∈ keywords, Fits K k.value .load) →
      Fits K (.call line func args keywords) .load
  | constant {line : UInt32} {value : Constant} : (∀ c, value.code? = some c → K c) →
      Fits K (.constant line value) .load
  | attribute {line : UInt32} {object : Expr} {attr : String} {ctx : Ctx} : Fits K object .load →
      Fits K (.attribute line object attr ctx) ctx
  | subscript {line : UInt32} {object index : Expr} {ctx : Ctx} : Fits K object .load →
      Fits K index .load → Fits K (.subscript line object index ctx) ctx
  | slice {line : UInt32} {lower upper step : Option Expr} :
      (∀ e, lower = some e → Fits K e .load) → (∀ e, upper = some e → Fits K e .load) →
      (∀ e, step = some e → Fits K e .load) → Fits K (.slice line lower upper step) .load
  | name {line : UInt32} {id : String} {ctx : Ctx} : Fits K (.name line id ctx) ctx
  | list {line : UInt32} {elts : List Expr} {ctx : Ctx} : (∀ e ∈ elts, Fits K e ctx) →
      Fits K (.list line elts ctx) ctx
  | tuple {line : UInt32} {elts : List Expr} {ctx : Ctx} : (∀ e ∈ elts, Fits K e ctx) →
      Fits K (.tuple line elts ctx) ctx

/-- The defaults of parameters are values. -/
structure Arguments.Fits (K : CodeObject → Prop) (a : Arguments) : Prop where
  defaults : ∀ e ∈ a.defaults, e.Fits K .load
  kwDefaults : ∀ e, some e ∈ a.kwDefaults → e.Fits K .load

/-- All parameters. -/
def Arguments.all (a : Arguments) : List Param :=
  a.posonly ++ a.params ++ a.vararg.toList ++ a.kwonly ++ a.kwarg.toList

inductive Stmt.Fits (K : CodeObject → Prop) : Stmt → Prop where
  | functionDef {line : UInt32} {name : String} {args : Arguments} {body : List Stmt}
      {decorators : List Expr} {returns : Option Expr} : (∀ e ∈ decorators, e.Fits K .load) →
      args.Fits K → (∀ p ∈ args.all, ∀ e, p.annotation = some e → e.Fits K .load) →
      (∀ e, returns = some e → e.Fits K .load) → (∀ s ∈ body, Fits K s) →
      Fits K (.functionDef line name args body decorators returns)
  | classDef {line : UInt32} {name : String} {bases : List Expr} {keywords : List Keyword}
      {body : List Stmt} {decorators : List Expr} : (∀ e ∈ decorators, e.Fits K .load) →
      (∀ e ∈ bases, e.Fits K .load) → (∀ k ∈ keywords, k.value.Fits K .load) →
      (∀ s ∈ body, Fits K s) → Fits K (.classDef line name bases keywords body decorators)
  | ret {line : UInt32} {value : Option Expr} : (∀ e, value = some e → e.Fits K .load) →
      Fits K (.ret line value)
  | delete {line : UInt32} {targets : List Expr} : (∀ e ∈ targets, e.Fits K .del) →
      Fits K (.delete line targets)
  | assign {line : UInt32} {targets : List Expr} {value : Expr} : targets ≠ [] →
      (∀ e ∈ targets, e.Fits K .store) → value.Fits K .load → Fits K (.assign line targets value)
  | augAssign {line : UInt32} {target : Expr} {op : Operator} {value : Expr} :
      target.Fits K .store → value.Fits K .load → Fits K (.augAssign line target op value)
  | raise {line : UInt32} {exc cause : Option Expr} : (∀ e, exc = some e → e.Fits K .load) →
      (∀ e, cause = some e → e.Fits K .load) → Fits K (.raise line exc cause)
  | assert {line : UInt32} {test : Expr} {msg : Option Expr} : test.Fits K .load →
      (∀ e, msg = some e → e.Fits K .load) → Fits K (.assert line test msg)
  | importNames {line : UInt32} {names : List Alias} : Fits K (.importNames line names)
  | importFrom {line : UInt32} {origin : Option String} {names : List Alias} {level : UInt32} :
      Fits K (.importFrom line origin names level)
  | global {line : UInt32} {names : List String} : Fits K (.global line names)
  | nonlocal {line : UInt32} {names : List String} : Fits K (.nonlocal line names)
  | expr {line : UInt32} {value : Expr} : value.Fits K .load → Fits K (.expr line value)
  | pass {line : UInt32} : Fits K (.pass line)
  | breakLoop {line : UInt32} : Fits K (.breakLoop line)
  | continueLoop {line : UInt32} : Fits K (.continueLoop line)
  | forLoop {line : UInt32} {target iter : Expr} {body orelse : List Stmt} :
      target.Fits K .store → iter.Fits K .load → (∀ s ∈ body, Fits K s) → (∀ s ∈ orelse, Fits K s) →
      Fits K (.forLoop line target iter body orelse)
  | whileLoop {line : UInt32} {test : Expr} {body orelse : List Stmt} : test.Fits K .load →
      (∀ s ∈ body, Fits K s) → (∀ s ∈ orelse, Fits K s) → Fits K (.whileLoop line test body orelse)
  | ifElse {line : UInt32} {test : Expr} {body orelse : List Stmt} : test.Fits K .load →
      (∀ s ∈ body, Fits K s) → (∀ s ∈ orelse, Fits K s) → Fits K (.ifElse line test body orelse)
  | tryExcept {line : UInt32} {body orelse finalbody : List Stmt} {handlers : List Handler} :
      (∀ s ∈ body, Fits K s) → (∀ h ∈ handlers, ∀ e, h.type = some e → e.Fits K .load) →
      (∀ h ∈ handlers, ∀ s ∈ h.body, Fits K s) → (∀ s ∈ orelse, Fits K s) →
      (∀ s ∈ finalbody, Fits K s) → Fits K (.tryExcept line body handlers orelse finalbody)

/-- Values are read, targets are assigned or deleted, an assignment has a target, and a comparison
has as many operators as comparators. -/
def Program.Fits (K : CodeObject → Prop) : Program → Prop
  | .module body | .interactive body => ∀ s ∈ body, s.Fits K
  | .expression e => e.Fits K .load

/-- Values pushed one after the other. -/
def rowNeed : List Nat → Nat
  | [] => 0
  | n :: ns => max n (rowNeed ns + 1)

/-- Things done one after the other, from the same depth. -/
def mostNeed : List Nat → Nat
  | [] => 0
  | n :: ns => max n (mostNeed ns)

/-- Values that are taken off one after the other. -/
def storeNeed : List Nat → Nat
  | [] => 0
  | n :: ns => max (n + ns.length) (storeNeed ns)

mutual

/-- How many entries the code of an expression takes at most, if no scope captures more than
`free` names. A value to be stored counts. -/
def Expr.need (free : Nat) : Expr → Nat
  | .boolOp _ _ values => max 1 (mostNeed (Expr.needs free values))
  | .binOp _ left _ right => max (Expr.need free left) (Expr.need free right + 1)
  | .unaryOp _ _ operand => Expr.need free operand
  | .lambda _ args body =>
    max (Arguments.need free args) (max (Expr.need free body) (max free 3 + 2))
  | .ifExp _ test body orelse =>
    max (Expr.need free test) (max (Expr.need free body) (Expr.need free orelse))
  | .dict _ keys values =>
    2 * min keys.length Build.maxMapEntries +
      max (mostNeed (Expr.needs free keys)) (mostNeed (Expr.needs free values)) + 2
  | .set _ elts => max 1 (rowNeed (Expr.needs free elts))
  | .listComp _ elt generators =>
    max (max free 3) (Generator.need free (Expr.need free elt) 1 generators)
  | .yield _ value => Expr.needOrNone free value
  | .compare _ left _ comparators =>
    max (Expr.need free left) (max 3 (mostNeed (Expr.needs free comparators) + 1))
  | .call _ func args keywords =>
    max (Expr.need free func) (max (rowNeed (Expr.needs free args) + 2)
      (rowNeed (Keyword.needs free keywords) + args.length + 2))
  | .constant _ _ => 1
  | .attribute _ object _ .store => Expr.need free object + 1
  | .attribute _ object _ _ => Expr.need free object
  | .subscript _ object index .store =>
    max (Expr.need free object + 1) (Expr.need free index + 2)
  | .subscript _ object index _ => max (Expr.need free object) (Expr.need free index + 1)
  | .slice _ lower upper step =>
    max (Expr.needOrNone free lower) (max (Expr.needOrNone free upper + 1)
      (Expr.needOrNone free step + 2))
  | .name _ _ .del => 0
  | .name _ _ _ => 1
  | .list _ elts .load | .tuple _ elts .load => max 1 (rowNeed (Expr.needs free elts))
  | .list _ elts .store | .tuple _ elts .store =>
    max (max 1 elts.length) (storeNeed (Expr.needs free elts))
  | .list _ elts .del | .tuple _ elts .del => mostNeed (Expr.needs free elts)

def Expr.needs (free : Nat) : List Expr → List Nat
  | [] => []
  | e :: es => Expr.need free e :: Expr.needs free es

def Expr.needOrNone (free : Nat) : Option Expr → Nat
  | none => 1
  | some e => Expr.need free e

def Keyword.needs (free : Nat) : List Keyword → List Nat
  | [] => []
  | ⟨_, value⟩ :: ks => Expr.need free value :: Keyword.needs free ks

/-- The loops of a comprehension with `depth` entries below them. -/
def Generator.need (free element depth : Nat) : List Generator → Nat
  | [] => element + depth
  | ⟨target, iter, filters⟩ :: rest =>
    max (max (Expr.need free iter + depth) (Expr.need free target + depth + 1))
      (max (mostNeed (Expr.needs free filters) + depth + 1)
        (Generator.need free element (depth + 1) rest))

/-- The defaults of keyword-only parameters. -/
def Expr.needsGiven (free : Nat) : List Param → List (Option Expr) → List Nat
  | _ :: ps, some e :: es => Expr.need free e :: Expr.needsGiven free ps es
  | _ :: ps, none :: es => Expr.needsGiven free ps es
  | _, _ => []

def Arguments.need (free : Nat) : Arguments → Nat
  | ⟨_, _, _, kwonly, kwDefaults, _, defaults⟩ =>
    max (rowNeed (Expr.needs free defaults)) (rowNeed (Expr.needsGiven free kwonly kwDefaults) + 2)

end

mutual

/-- How many entries the code of a statement takes at most. A final body also runs above a value
that is to be returned, or above the six values of an exception. -/
def Stmt.need (free : Nat) : Stmt → Nat
  | .functionDef _ _ args body decorators returns =>
    max (max (rowNeed (Expr.needs free decorators))
      (decorators.length + max (args.need free)
        (max (rowNeed (Expr.needs free ((args.annotated returns).map Prod.snd)) + 3)
          (max free 3 + 3))))
      (max 1 (Stmt.needOfAll free body))
  | .classDef _ _ bases keywords body decorators =>
    max (max (rowNeed (Expr.needs free decorators))
      (decorators.length + max (max free 3 + 1) (max (rowNeed (Expr.needs free bases) + 3)
        (rowNeed (Keyword.needs free keywords) + bases.length + 4))))
      (max 2 (Stmt.needOfAll free body))
  | .ret _ value => Expr.needOrNone free value
  | .delete _ targets => mostNeed (Expr.needs free targets)
  | .assign _ targets value =>
    max (value.need free) (mostNeed (Expr.needs free targets) + 1)
  | .augAssign _ target _ value => max (target.need free) (value.need free + 3)
  | .raise _ exc cause => max (Expr.needOrNone free exc) (Expr.needOrNone free cause + 1)
  | .assert _ test msg => max (test.need free) (Expr.needOrNone free msg + 1)
  | .importNames _ _ | .importFrom _ _ _ _ => 2
  | .global _ _ | .nonlocal _ _ | .pass _ | .breakLoop _ | .continueLoop _ => 0
  | .expr _ value => value.need free
  | .forLoop _ target iter body orelse =>
    max (max (iter.need free) (target.need free + 1))
      (max (Stmt.needOfAll free body + 1) (Stmt.needOfAll free orelse))
  | .whileLoop _ test body orelse | .ifElse _ test body orelse =>
    max (test.need free) (max (Stmt.needOfAll free body) (Stmt.needOfAll free orelse))
  | .tryExcept _ body handlers orelse finalbody =>
    max (max (Stmt.needOfAll free body) (Handler.needOfAll free handlers))
      (max (Stmt.needOfAll free orelse) (Stmt.needOfAll free finalbody + 6))

def Stmt.needOfAll (free : Nat) : List Stmt → Nat
  | [] => 0
  | s :: ss => max (Stmt.need free s) (Stmt.needOfAll free ss)

def Handler.needOfAll (free : Nat) : List Handler → Nat
  | [] => 0
  | ⟨type, name, body, _⟩ :: hs =>
    max (max (if name.isSome then 10 else 6) (max (Expr.needOrNone free type + 7)
      (Stmt.needOfAll free body + 3))) (Handler.needOfAll free hs)

end

theorem Stmt.need_expr (free : Nat) (line : UInt32) (value : Expr) :
    (Stmt.expr line value).need free = value.need free := by
  rw [Stmt.need]

def Program.need (free : Nat) : Program → Nat
  | .module body | .interactive body => max 1 (Stmt.needOfAll free body)
  | .expression e => e.need free

mutual

/-- The greatest number of names that a scope of a table captures. -/
def ScopeTable.widest : ScopeTable → Nat
  | ⟨_, _, _, _, _, _, _, _, symbols, _, _, children⟩ =>
    max (symbols.sortedNames .free).length (ScopeTable.widestOfAll children)

def ScopeTable.widestOfAll : List ScopeTable → Nat
  | [] => 0
  | t :: ts => max (ScopeTable.widest t) (ScopeTable.widestOfAll ts)

end

theorem ScopeTable.widest_le_of_mem {t : ScopeTable} {ts : List ScopeTable} (h : t ∈ ts) :
    t.widest ≤ widestOfAll ts := by
  induction ts with
  | nil => cases h
  | cons t' ts ih =>
    rw [widestOfAll]
    rcases List.mem_cons.mp h with rfl | h
    · exact Nat.le_max_left _ _
    · exact Nat.le_trans (ih h) (Nat.le_max_right _ _)

theorem ScopeTable.widest_child {t c : ScopeTable} (h : c ∈ t.children) : c.widest ≤ t.widest := by
  cases t
  rw [ScopeTable.widest]
  exact Nat.le_trans (widest_le_of_mem h) (Nat.le_max_right _ _)

theorem ScopeTable.length_freevars_le (t : ScopeTable) : t.freevars.length ≤ t.widest := by
  cases t
  rw [ScopeTable.widest]
  exact Nat.le_max_left _ _

theorem length_le_rowNeed (ns : List Nat) : ns.length ≤ rowNeed ns := by
  induction ns with
  | nil => exact Nat.le_refl _
  | cons n ns ih =>
    rw [rowNeed, List.length_cons]
    omega

theorem rowNeed_le (ns : List Nat) : rowNeed ns ≤ ns.length + mostNeed ns := by
  induction ns with
  | nil => exact Nat.le_refl _
  | cons n ns ih =>
    rw [rowNeed, mostNeed, List.length_cons]
    omega

theorem le_mostNeed {n : Nat} {ns : List Nat} (h : n ∈ ns) : n ≤ mostNeed ns := by
  induction ns with
  | nil => cases h
  | cons m ns ih =>
    rw [mostNeed]
    rcases List.mem_cons.mp h with rfl | h
    · exact Nat.le_max_left _ _
    · exact Nat.le_trans (ih h) (Nat.le_max_right _ _)

theorem needs_eq (free : Nat) (es : List Expr) : Expr.needs free es = es.map (Expr.need free) := by
  induction es with
  | nil => rfl
  | cons e es ih => rw [Expr.needs, ih, List.map_cons]

@[simp] theorem length_needs (free : Nat) (es : List Expr) :
    (Expr.needs free es).length = es.length := by
  simp [needs_eq]

theorem keywordNeeds_eq (free : Nat) (ks : List Keyword) :
    Keyword.needs free ks = Expr.needs free (ks.map Keyword.value) := by
  induction ks with
  | nil => rfl
  | cons k ks ih =>
    cases k
    rw [Keyword.needs, ih, List.map_cons, Expr.needs]

theorem needsGiven_eq (free : Nat) (ps : List Param) (es : List (Option Expr)) :
    Expr.needsGiven free ps es = Expr.needs free ((ps.zip es).filterMap Prod.snd) := by
  induction ps generalizing es with
  | nil => cases es <;> rfl
  | cons p ps ih =>
    cases es with
    | nil => rfl
    | cons e es =>
      cases e with
      | none => exact (Expr.needsGiven.eq_2 ..).trans (ih es)
      | some e => exact (Expr.needsGiven.eq_1 ..).trans (congrArg _ (ih es))

/-- A value takes an entry. -/
theorem Expr.Fits.need_pos {K : CodeObject → Prop} {e : Expr} {ctx : Ctx} (h : e.Fits K ctx)
    (hctx : ctx ≠ .del) (free : Nat) : 1 ≤ e.need free := by
  induction h with
  | boolOp | lambda | dict | set | compare | call | listComp =>
    rw [Expr.need]
    omega
  | constant => exact Nat.le_refl _
  | binOp _ _ ih _ =>
    rw [Expr.need]
    have := ih hctx
    omega
  | unaryOp _ ih => exact ih hctx
  | ifExp _ _ _ ih _ _ =>
    rw [Expr.need]
    have := ih hctx
    omega
  | @yield _ value h ih =>
    cases value with
    | none => exact Nat.le_refl _
    | some e => exact ih e rfl hctx
  | @«attribute» _ _ _ ctx _ ih =>
    have := ih (by decide)
    cases ctx <;> simp only [Expr.need] <;> omega
  | @subscript _ _ _ ctx _ _ ih _ =>
    have := ih (by decide)
    cases ctx <;> simp only [Expr.need] <;> omega
  | slice =>
    rw [Expr.need]
    omega
  | @name _ _ ctx => cases ctx <;> first | exact Nat.le_refl _ | exact absurd rfl hctx
  | @list _ _ ctx _ | @tuple _ _ ctx _ =>
    cases ctx with
    | load | store =>
      rw [Expr.need]
      omega
    | del => exact absurd rfl hctx

end Wordcode
