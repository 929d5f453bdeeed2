import Wordcode.Error

/-!
# Instructions and blocks

Instructions before assembly, where a jump names a block, and the straight-line blocks they form.
`encode` gives the wordcode of one instruction: operands above a byte are widened by
`extendedArg` units, high byte first.
-/

set_option autoImplicit false

namespace Wordcode

/-- A block's number within its scope. -/
abbrev BlockId := Nat

/-- How many two-byte units it takes to carry `arg`. -/
def codeUnits (arg : UInt32) : Nat :=
  if arg ≤ 0xFF then 1 else if arg ≤ 0xFFFF then 2 else if arg ≤ 0xFFFFFF then 3 else 4

/-- Byte `k` of an operand, byte 0 being the lowest. -/
def operandByte (arg : UInt32) (k : Nat) : UInt8 := UInt8.ofNat (arg.toNat >>> (8 * k))

/-- The operand bytes above the lowest that `arg` needs, highest first, each behind a widening
opcode. -/
def wideningUnits (arg : UInt32) : List UInt8 :=
  (List.range (codeUnits arg - 1)).reverse.flatMap fun k =>
    [Opcode.extendedArg.byte, operandByte arg (k + 1)]

def encode (op : Opcode) (arg : UInt32) : List UInt8 :=
  wideningUnits arg ++ [op.byte, operandByte arg 0]

structure Instruction where
  opcode : Opcode
  /-- For a jump, the resolved offset or distance once it is known. -/
  arg : UInt32
  target : Option BlockId
  /-- The source line, 0 if the instruction carries no stamp of its own. -/
  line : UInt32
  deriving DecidableEq

namespace Instruction

def plain (op : Opcode) (arg : UInt32) : Except CompileError Instruction :=
  if !op.hasOperand && arg != 0 then .error (.fault (.operandNotTaken op arg))
  else .ok ⟨op, arg, none, 0⟩

def jump (op : Opcode) (target : BlockId) : Except CompileError Instruction :=
  if op.isJump then .ok ⟨op, 0, some target, 0⟩ else .error (.fault (.targetNotTaken op))

def isJump (i : Instruction) : Bool := i.target.isSome

/-- The width in bytes, widening units included. -/
def size (i : Instruction) : Nat := 2 * codeUnits i.arg

def bytes (i : Instruction) : List UInt8 := encode i.opcode i.arg

end Instruction

structure Block where
  instructions : Array Instruction := #[]
  /-- Where control goes after the last instruction. -/
  next : Option BlockId := none
  /-- The block never falls through, so nothing more may be added to it. -/
  terminal : Bool := false

namespace Block

def push (b : Block) (i : Instruction) : Block :=
  { b with
    instructions := b.instructions.push i
    terminal := b.terminal || i.opcode.isTerminal }

def size (b : Block) : Nat := b.instructions.foldl (fun n i => n + i.size) 0

end Block

theorem codeUnits_pos (arg : UInt32) : 0 < codeUnits arg := by
  unfold codeUnits
  repeat' split
  all_goals decide

theorem codeUnits_le (arg : UInt32) : codeUnits arg ≤ 4 := by
  unfold codeUnits
  repeat' split
  all_goals decide

theorem length_wideningUnits (arg : UInt32) :
    (wideningUnits arg).length = 2 * (codeUnits arg - 1) := by
  simp only [wideningUnits, List.length_flatMap, List.length_cons, List.length_nil]
  simp [List.map_const', Nat.mul_comm]

theorem length_encode (op : Opcode) (arg : UInt32) :
    (encode op arg).length = 2 * codeUnits arg := by
  have h := codeUnits_pos arg
  simp only [encode, List.length_append, length_wideningUnits, List.length_cons, List.length_nil]
  omega

@[simp] theorem Instruction.length_bytes (i : Instruction) : i.bytes.length = i.size :=
  length_encode i.opcode i.arg

end Wordcode
