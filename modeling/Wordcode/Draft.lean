import Wordcode.Instruction
import Wordcode.Pool
import Wordcode.Wire.Code

/-!
# Drafts

The code of one scope while it is being written: a graph of blocks, the block that receives the
next instruction, and the numbered tables that operands refer to. The names a scope captures and
the slots of its parameters are settled when the draft is opened.
-/

set_option autoImplicit false

namespace Wordcode

structure Draft where
  name : String
  qualname : String
  kind : ScopeKind
  serial : UInt32
  firstLine : UInt32
  /-- Some enclosing scope is function-like. -/
  nested : Bool
  isGenerator : Bool
  needsClassCell : Bool
  hasVararg : Bool
  hasKwarg : Bool
  argCount : UInt32
  posonlyCount : UInt32
  kwonlyCount : UInt32
  symbols : Symbols
  /-- The tables of the nested scopes that are still to come. -/
  children : List ScopeTable
  constants : Pool Constant.key
  names : NamePool
  varnames : NamePool
  cellvars : NamePool
  freevars : NamePool
  blocks : Array Block
  /-- The block being filled. -/
  current : BlockId
  line : UInt32
  /-- Some instruction carries the current line already. -/
  stamped : Bool

namespace Draft

/-- Where a scope's code begins. -/
def entry : BlockId := 0

/-- The cell through which methods reach their class. -/
def classCell : String := "__class__"

def ofTable (name qualname : String) (t : ScopeTable) (serial firstLine : UInt32) (nested : Bool) :
    Draft where
  name := name
  qualname := qualname
  kind := t.kind
  serial := serial
  firstLine := firstLine
  nested := nested
  isGenerator := t.isGenerator
  needsClassCell := t.needsClassCell
  hasVararg := t.vararg.isSome
  hasKwarg := t.kwarg.isSome
  argCount := UInt32.ofNat (t.posonly.length + t.params.length)
  posonlyCount := UInt32.ofNat t.posonly.length
  kwonlyCount := UInt32.ofNat t.kwonly.length
  symbols := t.symbols
  children := t.children
  constants := .empty
  names := .empty
  varnames := .ofList t.parameterNames
  cellvars := .ofList (if t.needsClassCell then classCell :: t.cellvars else t.cellvars)
  freevars := .ofList t.freevars
  blocks := #[{}]
  current := entry
  line := firstLine
  stamped := false

def resolution? (d : Draft) (name : String) : Option Resolution := d.symbols.lookup name

/-- Cells are numbered first, then free variables. -/
def derefSlot (d : Draft) (name : String) : Except CompileError UInt32 :=
  match d.cellvars.find? name, d.freevars.find? name with
  | some i, _ => .ok (UInt32.ofNat i)
  | none, some i => .ok (UInt32.ofNat (i + d.cellvars.size))
  | none, none => .error (.fault (.notADerefName name d.name))

def flags (d : Draft) : CodeFlags :=
  let own :=
    if d.kind.isFunctionLike then
      let f := CodeFlags.union .optimized .newlocals
      let f := (f.addIf d.nested .nested).addIf d.isGenerator .generator
      (f.addIf d.hasVararg .varargs).addIf d.hasKwarg .varkeywords
    else .empty
  own.addIf (d.cellvars.size = 0 && d.freevars.size = 0) .nofree

def block (d : Draft) (b : BlockId) : Block := d.blocks.getD b {}

def currentBlock (d : Draft) : Block := d.block d.current

def newBlock (d : Draft) : BlockId × Draft :=
  (d.blocks.size, { d with blocks := d.blocks.push {} })

def useBlock (d : Draft) (b : BlockId) : Draft := { d with current := b }

/-- Lets the current block fall through to `b` and goes on there. -/
def fallInto (d : Draft) (b : BlockId) : Draft :=
  { d with
    blocks := d.blocks.modify d.current fun blk => { blk with next := some b }
    current := b }

def setLine (d : Draft) (line : UInt32) : Draft :=
  if line = d.line then d else { d with line := line, stamped := false }

/-- Makes the next instruction carry the line even if it has not changed. -/
def restamp (d : Draft) : Draft := { d with stamped := false }

/-- Adds an instruction to the current block, or drops it if the block is closed. The first one
added after a change of line carries the line. -/
def append (d : Draft) (i : Instruction) : Draft :=
  if d.currentBlock.terminal then d
  else
    let i := if d.stamped then i else { i with line := d.line }
    { d with
      blocks := d.blocks.modify d.current fun blk => blk.push i
      stamped := true }

-- A pool is taken out of the draft while it changes, so that it can change in place.

def internConstant (d : Draft) (c : Constant) : Nat × Draft :=
  let pool := d.constants
  let rest := { d with constants := .empty }
  let (i, pool) := pool.intern c
  (i, { rest with constants := pool })

def internName (d : Draft) (name : String) : Nat × Draft :=
  let pool := d.names
  let rest := { d with names := .empty }
  let (i, pool) := pool.intern name
  (i, { rest with names := pool })

def internVarname (d : Draft) (name : String) : Nat × Draft :=
  let pool := d.varnames
  let rest := { d with varnames := .empty }
  let (i, pool) := pool.intern name
  (i, { rest with varnames := pool })

end Draft
end Wordcode
