import Wordcode.Instruction

/-!
# Reading wordcode

Splits a byte string into instructions, folding widening units into the operand of the
instruction they precede. Operands are 32-bit words, so bits widened out at the top are lost.
-/

set_option autoImplicit false

namespace Wordcode

/-- An instruction found in wordcode. -/
structure Decoded where
  /-- Where its first unit stands. -/
  offset : UInt32
  /-- The bytes it covers, widening units included. -/
  size : UInt32
  opcode : Opcode
  arg : UInt32
  deriving DecidableEq

/-- The outcome of arithmetic on machine words whose result is no word. -/
inductive Overflow where
  | overflow
  deriving DecidableEq

/-- The byte offset to which the instruction may jump, unless the sum that gives it overflows. -/
def Decoded.jumpTarget (d : Decoded) : Except Overflow (Option UInt32) :=
  if d.opcode.isAbsoluteJump then .ok (some d.arg)
  else if d.opcode.isRelativeJump then
    let target := d.offset.toNat + d.size.toNat + d.arg.toNat
    if target < UInt32.size then .ok (some (UInt32.ofNat target)) else .error .overflow
  else .ok none

/-- A run of widening units: where it starts and the operand bits it has gathered. -/
structure WideningRun where
  start : Nat
  bits : UInt32

namespace Decode

/-- Appends a byte to the operand bits gathered so far. -/
def widen (run : Option WideningRun) (b : UInt8) : UInt32 :=
  match run with
  | none => b.toUInt32
  | some r => (r.bits <<< 8) ||| b.toUInt32

/-- Reads the units from `offset` on, after the instructions `out` and the open run `run`. -/
def units (out : Array Decoded) (offset : Nat) (run : Option WideningRun) :
    List UInt8 → Except DecodeError (Array Decoded)
  | [] =>
    match run with
    | none => .ok out
    | some r => .error (.danglingExtendedArg r.start)
  | [_] => .error (.oddLength (offset + 1))
  | b :: a :: rest =>
    match Opcode.ofByte? b with
    | none => .error (.unknownOpcode offset b)
    | some op =>
      let arg := widen run a
      let start := match run with
        | none => offset
        | some r => r.start
      if op = .extendedArg then units out (offset + 2) (some ⟨start, arg⟩) rest
      else
        let d := ⟨UInt32.ofNat start, UInt32.ofNat (offset + 2 - start), op, arg⟩
        units (out.push d) (offset + 2) none rest

end Decode

def decode (code : List UInt8) : Except DecodeError (List Decoded) :=
  if code.length % 2 ≠ 0 then .error (.oddLength code.length)
  else (Decode.units #[] 0 none code).map Array.toList

end Wordcode
