import Wordcode.Instruction
import Wordcode.Opcode.Effect

/-!
# Stack depth

The greatest depth of the operand stack. Each block is walked once, with the depth of the first
edge that was seen to lead to it; a jump hands its own depth to its target. Depths are signed words.
-/

set_option autoImplicit false

namespace Wordcode.StackDepth

/-- The depth to which an instruction leads from a depth. -/
def moved (i : Instruction) (taken : Bool) (depth : Int32) : Except CompileError Int32 := do
  let change ← i.opcode.stackEffect i.arg taken
  signedWord (depth.toInt + change.toInt)

structure State where
  /-- Blocks with an edge to them seen. -/
  found : Array Bool
  /-- Blocks still to walk, each with the depth at its start. -/
  pending : List (BlockId × Int32)
  deepest : Int32

namespace State

/-- Notes an edge to a block. -/
def discover : State → BlockId → Int32 → State
  | ⟨found, pending, deepest⟩, b, depth =>
    if found[b]? = some false then
      ⟨found.setIfInBounds b true, (b, depth) :: pending, deepest⟩
    else ⟨found, pending, deepest⟩

/-- Notes that a depth is reached by instruction `index` of block `b`. -/
def reach (s : State) (b : BlockId) (index : Nat) (op : Opcode) (depth : Int32) :
    Except CompileError State :=
  if depth < 0 then .error (.fault (.stackUnderflow b index op))
  else .ok { s with deepest := max s.deepest depth }

/-- The edge to the target of instruction `index`, if it has one. -/
def branch (s : State) (b : BlockId) (index : Nat) (i : Instruction) (depth : Int32) :
    Except CompileError State :=
  match i.target with
  | none => .ok s
  | some target => do
    let there ← moved i true depth
    return (← s.reach b index i.opcode there).discover target there

/-- Walks instructions from number `index` on; gives the depth behind the last one. -/
def walk (b : BlockId) : Nat → Int32 → State → List Instruction →
    Except CompileError (Int32 × State)
  | _, depth, s, [] => .ok (depth, s)
  | index, depth, s, i :: rest => do
    let s ← s.branch b index i depth
    let depth ← moved i false depth
    let s ← s.reach b index i.opcode depth
    walk b (index + 1) depth s rest

/-- Follows the edge to the next block. -/
def fallThrough (s : State) (blk : Block) (depth : Int32) : State :=
  match if blk.terminal then none else blk.next with
  | none => s
  | some n => s.discover n depth

/-- At most `rounds` blocks are walked. A block is pending only once, so as many rounds as there
are blocks are enough. -/
def run (blocks : Array Block) : Nat → State → Except CompileError State
  | 0, s => .ok s
  | rounds + 1, s =>
    match s.pending with
    | [] => .ok s
    | (b, depth) :: rest =>
      let blk := blocks.getD b {}
      match walk b 0 depth { s with pending := rest } blk.instructions.toList with
      | .error e => .error e
      | .ok (depth, s) => run blocks rounds (s.fallThrough blk depth)

def start (size : Nat) (entry : BlockId) : State :=
  discover ⟨Array.replicate size false, [], 0⟩ entry 0

end State

end StackDepth

/-- The greatest depth on the way from `entry`, or the first underflow or overflow met. -/
def maxStackDepth (blocks : Array Block) (entry : BlockId) : Except CompileError UInt32 :=
  (StackDepth.State.run blocks blocks.size (.start blocks.size entry)).map (·.deepest.toUInt32)

end Wordcode
