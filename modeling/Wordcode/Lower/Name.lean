import Wordcode.Build
import Wordcode.Tree

/-!
# Names

How a scope reaches a name: through a cell, in a slot of its own, among the globals, or by looking
it up. This follows from the scope's table and kind alone.
-/

set_option autoImplicit false

namespace Wordcode

inductive Access where
  | deref
  | fast
  | global
  | name
  deriving DecidableEq

def Draft.access (d : Draft) (name : String) : Access :=
  match d.resolution? name with
  | some .free | some .cell => .deref
  | some .local => if d.kind.isFunctionLike then .fast else .name
  | some .globalExplicit => .global
  | some .globalImplicit => if d.kind.isFunctionLike then .global else .name
  | none => .name

/-- A class body looks into its own namespace before it follows a cell. -/
def derefOpcode (kind : ScopeKind) : Ctx → Opcode
  | .load => if kind = .classBody then .loadClassderef else .loadDeref
  | .store => .storeDeref
  | .del => .deleteDeref

def fastOpcode : Ctx → Opcode
  | .load => .loadFast
  | .store => .storeFast
  | .del => .deleteFast

def globalOpcode : Ctx → Opcode
  | .load => .loadGlobal
  | .store => .storeGlobal
  | .del => .deleteGlobal

def nameOpcode : Ctx → Opcode
  | .load => .loadName
  | .store => .storeName
  | .del => .deleteName

namespace Build

def accessName (name : String) (ctx : Ctx) : Build Unit := do
  match ← ask (·.access name) with
  | .deref =>
    let op ← ask fun d => derefOpcode d.kind ctx
    emitArg op (← derefSlot name)
  | .fast => emitArg (fastOpcode ctx) (← internVarname name)
  | .global => emitName (globalOpcode ctx) name
  | .name => emitName (nameOpcode ctx) name

/-- Unbinds the name of an exception: sets it to `None`, then deletes it. -/
def clearName (name : String) : Build Unit := do
  loadConst .none
  accessName name .store
  accessName name .del

end Build
end Wordcode
