/-!
# Reading bytes as text

UTF-8 with a replacement character for each longest start of a sequence that cannot go on.
-/

set_option autoImplicit false

namespace Wordcode.Text

/-- A sequence under way: how many bytes are still to come, the bounds of the next one, and the
code point bits so far. -/
structure Pending where
  missing : Nat
  low : UInt8
  high : UInt8
  bits : Nat

structure LossyState where
  text : String := ""
  pending : Option Pending := none

namespace LossyState

def replacement : Char := Char.ofNat 0xFFFD

/-- Starts a sequence with its first byte. -/
def start (text : String) (b : UInt8) : LossyState :=
  let n := b.toNat
  let lead (missing : Nat) (low high : UInt8) (bits : Nat) : LossyState :=
    ⟨text, some ⟨missing, low, high, bits⟩⟩
  if b < 0x80 then ⟨text.push (Char.ofNat n), none⟩
  else if b < 0xC2 then ⟨text.push replacement, none⟩
  else if b < 0xE0 then lead 1 0x80 0xBF (n - 0xC0)
  else if b = 0xE0 then lead 2 0xA0 0xBF 0
  else if b = 0xED then lead 2 0x80 0x9F 0xD
  else if b < 0xF0 then lead 2 0x80 0xBF (n - 0xE0)
  else if b = 0xF0 then lead 3 0x90 0xBF 0
  else if b < 0xF4 then lead 3 0x80 0xBF (n - 0xF0)
  else if b = 0xF4 then lead 3 0x80 0x8F 4
  else ⟨text.push replacement, none⟩

def step (s : LossyState) (b : UInt8) : LossyState :=
  match s.pending with
  | none => start s.text b
  | some p =>
    if p.low ≤ b && b ≤ p.high then
      let bits := p.bits * 64 + b.toNat % 64
      if p.missing = 1 then ⟨s.text.push (Char.ofNat bits), none⟩
      else ⟨s.text, some ⟨p.missing - 1, 0x80, 0xBF, bits⟩⟩
    else start (s.text.push replacement) b

def finish (s : LossyState) : String :=
  match s.pending with
  | none => s.text
  | some _ => s.text.push replacement

end LossyState

def lossy (bytes : List UInt8) : String := (bytes.foldl LossyState.step {}).finish

end Wordcode.Text
