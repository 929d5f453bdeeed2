/-!
# Scope tables

What is known beforehand about each lexical scope: its parameters, how each name resolves in it,
and the scopes nested in it in the order in which they are entered. The compiler takes these
tables as given and never works out for itself where a name is bound.
-/

set_option autoImplicit false

namespace Wordcode

inductive ScopeKind where
  | module
  | classBody
  | function
  | lambda
  | comprehension
  deriving DecidableEq

namespace ScopeKind

def text : ScopeKind → String
  | .module => "Module"
  | .classBody => "Class"
  | .function => "Function"
  | .lambda => "Lambda"
  | .comprehension => "Comprehension"

/-- Such scopes keep their locals in numbered slots. -/
def isFunctionLike : ScopeKind → Bool
  | .function | .lambda | .comprehension => true
  | .module | .classBody => false

end ScopeKind

/-- Where a name of a scope lives. -/
inductive Resolution where
  /-- Bound in this scope and captured by no scope inside it. -/
  | local
  /-- Bound in no enclosing scope, so looked up among the globals. -/
  | globalImplicit
  /-- Declared global in this scope. -/
  | globalExplicit
  /-- Bound in an enclosing function and captured here. -/
  | free
  /-- Bound here and captured by a scope inside. -/
  | cell
  deriving DecidableEq

/-- The names of a scope, in the order of their first mention. -/
abbrev Symbols := List (String × Resolution)

namespace Symbols

/-- Sets the resolution of a name, at its old place if it has one. -/
def assign (name : String) (r : Resolution) : Symbols → Symbols
  | [] => [(name, r)]
  | (n, q) :: rest => if n = name then (n, r) :: rest else (n, q) :: assign name r rest

/-- Makes a name local unless it is known already. -/
def mention (name : String) (s : Symbols) : Symbols :=
  if (s.lookup name).isSome then s else assign name .local s

/-- The names that resolve in one way, in increasing order. -/
def sortedNames (r : Resolution) (s : Symbols) : List String :=
  ((s.filter fun p => p.2 = r).map Prod.fst).mergeSort fun a b => !decide (b < a)

end Symbols

/-- One scope and, through `children`, all scopes inside it. A comprehension's own scope comes
before the scopes of its outermost iterable; otherwise children stand in source order. -/
structure ScopeTable where
  name : String
  kind : ScopeKind
  line : UInt32
  posonly : List String := []
  params : List String := []
  kwonly : List String := []
  vararg : Option String := none
  kwarg : Option String := none
  symbols : Symbols := []
  /-- A class whose methods refer to the class itself. -/
  needsClassCell : Bool := false
  isGenerator : Bool := false
  children : List ScopeTable := []

namespace ScopeTable

def module : ScopeTable := { name := "top", kind := .module, line := 0 }

def function (name : String) (line : UInt32) : ScopeTable :=
  { name := name, kind := .function, line := line }

def ofClass (name : String) (line : UInt32) : ScopeTable :=
  { name := name, kind := .classBody, line := line }

def lambda (line : UInt32) : ScopeTable := { name := "<lambda>", kind := .lambda, line := line }

def mentionAll (t : ScopeTable) (names : List String) : ScopeTable :=
  { t with symbols := names.foldl (fun s n => s.mention n) t.symbols }

def addParams (t : ScopeTable) (names : List String) : ScopeTable :=
  { t.mentionAll names with params := t.params ++ names }

def addPosonly (t : ScopeTable) (names : List String) : ScopeTable :=
  { t.mentionAll names with posonly := t.posonly ++ names }

def addKwonly (t : ScopeTable) (names : List String) : ScopeTable :=
  { t.mentionAll names with kwonly := t.kwonly ++ names }

def setVararg (t : ScopeTable) (name : String) : ScopeTable :=
  { t.mentionAll [name] with vararg := some name }

def setKwarg (t : ScopeTable) (name : String) : ScopeTable :=
  { t.mentionAll [name] with kwarg := some name }

def resolve (t : ScopeTable) (name : String) (r : Resolution) : ScopeTable :=
  { t with symbols := t.symbols.assign name r }

def addChild (t child : ScopeTable) : ScopeTable := { t with children := t.children ++ [child] }

def withClassCell (t : ScopeTable) : ScopeTable := { t with needsClassCell := true }

def generator (t : ScopeTable) : ScopeTable := { t with isGenerator := true }

/-- A comprehension receives its outermost iterator as parameter `.0`. -/
def listComprehension (line : UInt32) : ScopeTable :=
  addParams { name := "<listcomp>", kind := .comprehension, line := line } [".0"]

/-- The parameters in the order of their slots. -/
def parameterNames (t : ScopeTable) : List String :=
  t.posonly ++ t.params ++ t.kwonly ++ t.vararg.toList ++ t.kwarg.toList

def cellvars (t : ScopeTable) : List String := t.symbols.sortedNames .cell

def freevars (t : ScopeTable) : List String := t.symbols.sortedNames .free

end ScopeTable
end Wordcode
