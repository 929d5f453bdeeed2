import Wordcode.Binary64

/-!
# Fields of the binary form

The binary form of a value is a sequence of fields: numbers in groups of seven bits, low group
first, floats in eight bytes, text and byte strings behind their length. A list stands behind its
length, an alternative behind its number. Writing gathers fields in an array, so that long lists
take no more room than their items.
-/

set_option autoImplicit false

namespace Wordcode.Wire

inductive Field where
  | byte (b : UInt8)
  | word (n : UInt32)
  | size (n : Nat)
  | int (n : Int64)
  | float (x : Binary64)
  | raw (bs : List UInt8)
  deriving DecidableEq

/-- `n` in groups of seven bits, low group first, the high bit set on all but the last. -/
def varint (n : Nat) : List UInt8 :=
  if n < 128 then [UInt8.ofNat n] else UInt8.ofNat (n % 128 + 128) :: varint (n / 128)

/-- Signed numbers by size of their magnitude: 0, -1, 1, -2, … -/
def zigzag (n : Int64) : Nat :=
  if 0 ≤ n.toInt then (2 * n.toInt).toNat else (-2 * n.toInt - 1).toNat

/-- The low `k` bytes of `n`, lowest first. -/
def littleEndian : Nat → Nat → List UInt8
  | 0, _ => []
  | k + 1, n => UInt8.ofNat n :: littleEndian k (n / 256)

namespace Field

def encode : Field → List UInt8
  | .byte b => [b]
  | .word n => varint n.toNat
  | .size n => varint n
  | .int n => varint (zigzag n)
  | .float x => littleEndian 8 x.bits.toNat
  | .raw bs => bs

/-- Equality, except that floats are compared as numbers. -/
def same : Field → Field → Bool
  | .float x, .float y => x.same y
  | f, g => f = g

end Field

/-- The fields written so far. -/
abbrev Fields := Array Field

namespace Fields

def encode (fs : Fields) : List UInt8 := fs.toList.flatMap Field.encode

/-- Whether two values with these fields are equal, floats being compared as numbers. -/
def same (fs gs : Fields) : Bool := fs.isEqv gs Field.same

def bool (fs : Fields) (b : Bool) : Fields := fs.push (.byte (if b then 1 else 0))

def word (fs : Fields) (n : UInt32) : Fields := fs.push (.word n)

/-- The number of an alternative. -/
def tag (fs : Fields) (n : Nat) : Fields := fs.push (.word (UInt32.ofNat n))

def bytes (fs : Fields) (bs : List UInt8) : Fields :=
  (fs.push (.size bs.length)).push (.raw bs)

def text (fs : Fields) (s : String) : Fields := fs.bytes s.toUTF8.data.toList

/-- A list of items, written by `item` one after the other. -/
def list {α : Type} (item : Fields → α → Fields) (fs : Fields) (xs : List α) : Fields :=
  xs.foldl item (fs.push (.size xs.length))

def texts (fs : Fields) (xs : List String) : Fields := fs.list text xs

/-- One of a list of alternatives without fields, by its place in the list. -/
def choice {α : Type} [BEq α] (all : List α) (fs : Fields) (a : α) : Fields :=
  fs.tag (all.idxOf a)

def option {α : Type} (item : Fields → α → Fields) (fs : Fields) : Option α → Fields
  | none => fs.push (.byte 0)
  | some a => item (fs.push (.byte 1)) a

end Fields
end Wordcode.Wire
