/-!
# Binary64

Floating-point constants, kept as their 64 bits so that signed zeros and the payload of a NaN
survive. Nothing is computed with them: they are compared, written and read.
-/

set_option autoImplicit false

namespace Wordcode

structure Binary64 where
  bits : UInt64
  deriving DecidableEq

namespace Binary64

def isNegative (x : Binary64) : Bool := 0x8000000000000000 ≤ x.bits.toNat

/-- The weight of the bit above the fraction, which values of normal size have without storing
it. -/
def hiddenBit : Nat := 0x10000000000000

/-- The eleven exponent bits. -/
def exponentField (x : Binary64) : Nat := x.bits.toNat / hiddenBit % 2048

/-- The fifty-two fraction bits. -/
def fractionField (x : Binary64) : Nat := x.bits.toNat % hiddenBit

def isNaN (x : Binary64) : Bool := x.exponentField = 2047 && x.fractionField ≠ 0

def isInfinite (x : Binary64) : Bool := x.exponentField = 2047 && x.fractionField = 0

def isZero (x : Binary64) : Bool := x.exponentField = 0 && x.fractionField = 0

/-- Equality of the numbers: the two zeros are equal, a NaN equals nothing. -/
def same (x y : Binary64) : Bool :=
  !x.isNaN && !y.isNaN && (x = y || (x.isZero && y.isZero))

/-- A finite value is `significand * 2 ^ (scale - 1074)`. -/
def significand (x : Binary64) : Nat :=
  if x.exponentField = 0 then x.fractionField else hiddenBit + x.fractionField

def scale (x : Binary64) : Nat := x.exponentField - 1

/-- The next smaller value is only half as far away as the next larger one. -/
def isLowerBoundary (x : Binary64) : Bool := x.fractionField = 0 && 1 < x.exponentField

end Binary64
end Wordcode
