import Wordcode.Binary64

/-!
# Code objects and constants

The result of compiling one scope. Its constants may be code objects again: those of the scopes
nested in it.
-/

set_option autoImplicit false

namespace Wordcode

/-- Properties of a scope's code, one bit each. Bits without a name are kept. -/
structure CodeFlags where
  bits : UInt32
  deriving DecidableEq

namespace CodeFlags

def empty : CodeFlags := ⟨0⟩
def optimized : CodeFlags := ⟨0x01⟩
def newlocals : CodeFlags := ⟨0x02⟩
def varargs : CodeFlags := ⟨0x04⟩
def varkeywords : CodeFlags := ⟨0x08⟩
def nested : CodeFlags := ⟨0x10⟩
def generator : CodeFlags := ⟨0x20⟩
def nofree : CodeFlags := ⟨0x40⟩

def named : List (String × CodeFlags) :=
  [("OPTIMIZED", optimized), ("NEWLOCALS", newlocals), ("VARARGS", varargs),
    ("VARKEYWORDS", varkeywords), ("NESTED", nested), ("GENERATOR", generator),
    ("NOFREE", nofree)]

def union (a b : CodeFlags) : CodeFlags := ⟨a.bits ||| b.bits⟩

def has (a b : CodeFlags) : Bool := a.bits &&& b.bits = b.bits

/-- `a`, with the bits of `b` added if `cond` holds. -/
def addIf (a : CodeFlags) (cond : Bool) (b : CodeFlags) : CodeFlags :=
  if cond then a.union b else a

end CodeFlags

/-- The bytes from `start` to before `stop` come from source line `line`. -/
structure LineRange where
  start : UInt32
  stop : UInt32
  line : UInt32
  deriving DecidableEq

mutual

/-- A value known when compiling. -/
inductive Constant where
  | none
  | ellipsis
  | bool (b : Bool)
  | int (n : Int64)
  | float (x : Binary64)
  | complex (re im : Binary64)
  | str (s : String)
  | bytes (bs : List UInt8)
  | tuple (items : List Constant)
  | code (c : CodeObject)

/-- The finished code of one scope. -/
structure CodeObject where
  name : String
  qualname : String
  filename : String
  firstLine : UInt32
  flags : CodeFlags
  argCount : UInt32
  posonlyCount : UInt32
  kwonlyCount : UInt32
  stackSize : UInt32
  /-- Tells the scopes of one compilation apart. -/
  serial : UInt32
  constants : List Constant
  names : List String
  varnames : List String
  cellvars : List String
  freevars : List String
  /-- Wordcode. -/
  code : List UInt8
  lines : List LineRange

end

def Constant.code? : Constant → Option CodeObject
  | .code c => some c
  | _ => Option.none

namespace CodeObject

def lineAt? (c : CodeObject) (offset : UInt32) : Option UInt32 :=
  (c.lines.find? fun r => r.start ≤ offset && offset < r.stop).map LineRange.line

def nameSlot? (c : CodeObject) (name : String) : Option Nat := c.names.idxOf? name

def varnameSlot? (c : CodeObject) (name : String) : Option Nat := c.varnames.idxOf? name

/-- Cells come first, then free variables. -/
def derefSlot? (c : CodeObject) (name : String) : Option Nat :=
  (c.cellvars.idxOf? name).or ((c.freevars.idxOf? name).map (· + c.cellvars.length))

def derefName? (c : CodeObject) (slot : Nat) : Option String :=
  if slot < c.cellvars.length then c.cellvars[slot]? else c.freevars[slot - c.cellvars.length]?

/-- The code of the nested scopes, in the order of the constants. -/
def nested (c : CodeObject) : List CodeObject := c.constants.filterMap Constant.code?

end CodeObject
end Wordcode
