import Wordcode.Assembly
import Wordcode.Build

/-!
# Nested scopes

A nested scope is built in a draft of its own, which is finished before the enclosing draft goes
on. Its code object becomes a constant there, and a closure over the cells it captures.
-/

set_option autoImplicit false

namespace Wordcode

namespace Draft

/-- The dotted path of a scope nested in this one. -/
def qualnameOf (d : Draft) (name : String) (kind : ScopeKind) : String :=
  let declaredGlobal :=
    (kind = .function || kind = .classBody) && d.resolution? name = some .globalExplicit
  match d.kind with
  | .module => name
  | .function | .lambda => if declaredGlobal then name else s!"{d.qualname}.<locals>.{name}"
  | .classBody | .comprehension => if declaredGlobal then name else s!"{d.qualname}.{name}"

/-- The draft of a scope nested in this one. -/
def child (d : Draft) (name : String) (t : ScopeTable) (serial firstLine : UInt32) : Draft :=
  ofTable name (d.qualnameOf name t.kind) t serial firstLine (d.nested || d.kind.isFunctionLike)

/-- Assembles a draft for which no nested scope is left over. -/
def finish (d : Draft) (addNone : Bool) (filename : String) : Except CompileError CodeObject :=
  let result :=
    if d.children.isEmpty then d.assemble addNone filename
    else .error (.fault (.childScopesLeft d.children.length))
  result.mapError (·.withContext d.qualname 0)

/-- The slot of a name that the nested scope `child` captures. -/
def closureSlot (d : Draft) (name child : String) : Except CompileError UInt32 :=
  let isCell :=
    d.resolution? name = some .cell || (d.kind = .classBody && name = classCell)
  let slot :=
    if isCell then d.cellvars.find? name
    else (d.freevars.find? name).map (· + d.cellvars.size)
  match slot with
  | some i => .ok (UInt32.ofNat i)
  | none => .error (.fault (.unboundFreeName name child d.name))

end Draft

/-- The operand bits of `makeFunction`: what is on the stack below the code object. -/
structure FunctionParts where
  defaults : Bool := false
  kwDefaults : Bool := false
  annotations : Bool := false
  closure : Bool := false

def FunctionParts.operand (p : FunctionParts) : UInt32 :=
  (if p.defaults then 1 else 0) + (if p.kwDefaults then 2 else 0) +
    (if p.annotations then 4 else 0) + (if p.closure then 8 else 0)

namespace Build

/-- Builds a nested scope. The body tells whether it returns `None` at its end. -/
def inScope (filename name : String) (kind : ScopeKind) (firstLine : UInt32) (body : Build Bool) :
    Build CodeObject := do
  let table ← nextChild
  if table.kind ≠ kind then fail (.childScopeMismatch kind name table.kind table.name)
  let outer ← get
  set (Session.mk (outer.draft.child name table outer.nextSerial firstLine)
    (outer.nextSerial + 1))
  let addNone ← body
  let inner ← get
  set (Session.mk outer.draft inner.nextSerial)
  ofExcept (inner.draft.finish addNone filename)

/-- Pushes the cells that a nested scope captures. -/
def loadCells (child : String) : List String → Build Unit
  | [] => pure ()
  | name :: rest => do
    emitArg .loadClosure (← ofExcept (← ask (·.closureSlot name child)))
    loadCells child rest

/-- Pushes a function object made from `code` and the parts below it. -/
def makeClosure (code : CodeObject) (parts : FunctionParts) (qualname : String) : Build Unit := do
  if !code.freevars.isEmpty then
    loadCells code.name code.freevars
    emitArg .buildTuple (UInt32.ofNat code.freevars.length)
  loadConst (.code code)
  loadConst (.str qualname)
  emitArg .makeFunction
    { parts with closure := !code.freevars.isEmpty }.operand

end Build
end Wordcode
