import Wordcode.Assembly.Layout
import Wordcode.Assembly.Lines
import Wordcode.Assembly.Sizing
import Wordcode.Draft
import Wordcode.StackDepth

/-!
# Assembly

Turns a finished draft into a code object: closes it with a return, drops what cannot be reached,
lays out the rest, settles the jumps, and writes wordcode and line table.
-/

set_option autoImplicit false

namespace Wordcode
namespace Assembly

/-- Wordcode and line table as far as they are written. -/
structure Output where
  code : Array UInt8 := #[]
  lines : Array LineRange := #[]

namespace Output

def write (firstLine : UInt32) : Output → Instruction → Output
  | ⟨code, lines⟩, i =>
    let start := UInt32.ofNat code.size
    let code := code ++ i.bytes
    ⟨code, Lines.add firstLine lines start (UInt32.ofNat code.size) i.line⟩

/-- Writes blocks one after the other, each at the offset assigned to it. -/
def writeBlocks (firstLine : UInt32) (offs : Offsets) (out : Output) :
    List Placed → Except CompileError Output
  | [] => .ok out
  | p :: rest =>
    let assigned := (offs.getD p.id none).getD 0
    if out.code.size = assigned then
      writeBlocks firstLine offs (p.body.foldl (write firstLine) out) rest
    else .error (.fault (.offsetMismatch p.id out.code.size assigned))

end Output
end Assembly

namespace Draft

/-- A draft that can still run off its end returns there: `None`, or the value on the stack if
`addNone` is false. -/
def close (d : Draft) (addNone : Bool) : Draft :=
  if d.currentBlock.terminal then d
  else
    let (b, d) := d.newBlock
    let d := d.fallInto b
    let d :=
      if addNone then
        let (i, d) := d.internConstant .none
        d.append ⟨.loadConst, UInt32.ofNat i, none, 0⟩
      else d
    d.append ⟨.returnValue, 0, none, 0⟩

/-- The first line as given or, if that is 0, the line of the first instruction. -/
def startLine (d : Draft) : UInt32 :=
  if d.firstLine ≠ 0 then d.firstLine
  else
    match (d.block entry).instructions[0]? with
    | some i => if i.line = 0 then 1 else i.line
    | none => 1

def placedBlocks (d : Draft) (order : List BlockId) : List Placed :=
  order.map fun b => ⟨b, (d.block b).instructions.toList⟩

def assemble (d : Draft) (addNone : Bool) (filename : String) : Except CompileError CodeObject := do
  let d := d.close addNone
  let order := layout d.blocks (reachable d.blocks entry) entry
  checkLayout d.blocks order
  let (offs, code) ← Sizing.settle d.blocks.size (d.placedBlocks order)
  let stackSize ← maxStackDepth d.blocks entry
  let out ← Assembly.Output.writeBlocks d.startLine offs {} code
  return {
    name := d.name
    qualname := d.qualname
    filename := filename
    firstLine := d.startLine
    flags := d.flags
    argCount := d.argCount
    posonlyCount := d.posonlyCount
    kwonlyCount := d.kwonlyCount
    stackSize := stackSize
    serial := d.serial
    constants := d.constants.toList
    names := d.names.toList
    varnames := d.varnames.toList
    cellvars := d.cellvars.toList
    freevars := d.freevars.toList
    code := out.code.toList
    lines := out.lines.toList }

end Draft
end Wordcode
