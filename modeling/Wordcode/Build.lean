import Wordcode.Draft

/-!
# Building code

A build writes the draft of the scope at hand and numbers the scopes it meets. When a build fails
the draft is that of the scope in which it failed.
-/

set_option autoImplicit false

namespace Wordcode

structure Session where
  draft : Draft
  /-- The serial number of the next scope. -/
  nextSerial : UInt32

abbrev Build := EStateM CompileError Session

namespace Build

def fail {α : Type} (f : Fault) : Build α := throw (.fault f)

def ofExcept {α : Type} : Except CompileError α → Build α
  | .ok a => pure a
  | .error e => throw e

/-- Looks something up in the draft. -/
def ask {α : Type} (f : Draft → α) : Build α := return f (← get).draft

def modifyDraft (f : Draft → Draft) : Build Unit :=
  modify fun
    | ⟨d, serial⟩ => ⟨f d, serial⟩

def onDraft {α : Type} (f : Draft → α × Draft) : Build α :=
  modifyGet fun
    | ⟨d, serial⟩ =>
      let (a, d) := f d
      (a, ⟨d, serial⟩)

def newBlock : Build BlockId := onDraft Draft.newBlock

def useBlock (b : BlockId) : Build Unit := modifyDraft (·.useBlock b)

def fallInto (b : BlockId) : Build Unit := modifyDraft (·.fallInto b)

/-- Goes on in a new block behind the current one. -/
def nextBlock : Build BlockId := do
  let b ← newBlock
  fallInto b
  return b

def setLine (line : UInt32) : Build Unit := modifyDraft (·.setLine line)

def restamp : Build Unit := modifyDraft Draft.restamp

def emitArg (op : Opcode) (arg : UInt32) : Build Unit := do
  let i ← ofExcept (Instruction.plain op arg)
  modifyDraft (·.append i)

def emit (op : Opcode) : Build Unit := emitArg op 0

def emitJump (op : Opcode) (target : BlockId) : Build Unit := do
  let i ← ofExcept (Instruction.jump op target)
  modifyDraft (·.append i)

def internConstant (c : Constant) : Build UInt32 :=
  return UInt32.ofNat (← onDraft (·.internConstant c))

def internName (name : String) : Build UInt32 :=
  return UInt32.ofNat (← onDraft (·.internName name))

def internVarname (name : String) : Build UInt32 :=
  return UInt32.ofNat (← onDraft (·.internVarname name))

def derefSlot (name : String) : Build UInt32 := do ofExcept (← ask (·.derefSlot name))

def emitName (op : Opcode) (name : String) : Build Unit := do emitArg op (← internName name)

def loadConst (c : Constant) : Build Unit := do emitArg .loadConst (← internConstant c)

/-- Takes the table of the next nested scope. -/
def nextChild : Build ScopeTable := do
  let s ← get
  match s.draft.children with
  | [] => fail (.noChildScope s.draft.name)
  | t :: rest =>
    set { s with draft := { s.draft with children := rest } }
    return t

/-- Passes over the tables of nested scopes that are not compiled. -/
def skipChildren : Nat → Build Unit
  | 0 => pure ()
  | n + 1 => do
    let _ ← nextChild
    skipChildren n

end Build
end Wordcode
