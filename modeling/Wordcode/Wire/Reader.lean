import Wordcode.Binary64

/-!
# Reading the binary form

A reader takes what it needs from the front of a byte string and leaves the rest. Faults are
reported in reading order.
-/

set_option autoImplicit false

namespace Wordcode.Wire

/-- Why bytes are not the binary form of a value. -/
inductive ReadError where
  | unexpectedEnd
  | badVarint
  | badBool
  | badOption
  | badText
  | badTag
  deriving DecidableEq

def ReadError.message : ReadError → String
  | .unexpectedEnd => "Hit the end of buffer, expected more data"
  | .badVarint => "Found a varint that didn't terminate. Is the usize too big for this platform?"
  | .badBool => "Found a bool that wasn't 0 or 1"
  | .badOption => "Found an Option discriminant that wasn't 0 or 1"
  | .badText => "Tried to parse invalid utf-8"
  | .badTag => "Serde Deserialization Error"

abbrev Reader := StateT (List UInt8) (Except ReadError)

namespace Reader

def fail {α : Type} (e : ReadError) : Reader α := fun _ => .error e

def byte : Reader UInt8
  | [] => .error .unexpectedEnd
  | b :: rest => .ok (b, rest)

def take (n : Nat) : Reader (List UInt8) := fun input =>
  let bs := input.take n
  if bs.length = n then .ok (bs, input.drop n) else .error .unexpectedEnd

/-- A number in at most `n` groups of seven bits, the last of which must not exceed `top`. -/
def groups (top : UInt8) : Nat → Reader Nat
  | 0 => fail .badVarint
  | n + 1 => do
    let b ← byte
    if b < 128 then
      if n = 0 && top < b then fail .badVarint else return b.toNat
    else
      let high ← groups top n
      return high * 128 + b.toNat % 128

def word : Reader UInt32 := do return UInt32.ofNat (← groups 0x0F 5)

/-- A 64-bit number: a length, or what a signed number became. -/
def size : Reader Nat := groups 0x01 10

/-- Even numbers stand for 0, 1, 2, … and odd ones for -1, -2, … -/
def unzigzag (n : Nat) : Int64 :=
  if n % 2 = 0 then Int64.ofInt (n / 2 : Nat) else Int64.ofInt (-(n / 2 : Nat) - 1)

def int : Reader Int64 := do return unzigzag (← size)

def ofLittleEndian : List UInt8 → Nat
  | [] => 0
  | b :: bs => b.toNat + 256 * ofLittleEndian bs

def float : Reader Binary64 := do return ⟨UInt64.ofNat (ofLittleEndian (← take 8))⟩

def bool : Reader Bool := do
  let b ← byte
  if b = 0 then return false else if b = 1 then return true else fail .badBool

def bytes : Reader (List UInt8) := do take (← size)

def text : Reader String := do
  match String.fromUTF8? ⟨(← bytes).toArray⟩ with
  | some s => return s
  | none => fail .badText

/-- `n` items one after the other, behind those in `out`. -/
def items {α : Type} (item : Reader α) (out : Array α) : Nat → Reader (List α)
  | 0 => return out.toList
  | n + 1 => do items item (out.push (← item)) n

def list {α : Type} (item : Reader α) : Reader (List α) := do items item #[] (← size)

def texts : Reader (List String) := list text

def choice {α : Type} (all : List α) : Reader α := do
  match all[(← word).toNat]? with
  | some a => return a
  | none => fail .badTag

def option {α : Type} (item : Reader α) : Reader (Option α) := do
  let b ← byte
  if b = 0 then return none else if b = 1 then return some (← item) else fail .badOption

end Reader
end Wordcode.Wire
