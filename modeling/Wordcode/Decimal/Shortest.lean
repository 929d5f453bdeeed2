import Wordcode.Binary64

/-!
# Shortest decimals

The decimal with the fewest digits among those that lie nearer to a binary64 value than to any
other, and of these the nearest; of two equally near ones the larger. All arithmetic is exact.
-/

set_option autoImplicit false

namespace Wordcode.Decimal

/-- The decimal `coefficient * 10 ^ exponent`. -/
structure Scientific where
  coefficient : Nat
  exponent : Int

/-- Drops zeros at the end of the coefficient, at most `fuel` of them. -/
def Scientific.trim (fuel : Nat) (d : Scientific) : Scientific :=
  match fuel with
  | 0 => d
  | fuel + 1 =>
    if d.coefficient ≠ 0 && d.coefficient % 10 = 0 then
      trim fuel ⟨d.coefficient / 10, d.exponent + 1⟩
    else d

/-- The numbers around a value, in common units of `step`: those strictly between `low` and
`high` round to the value, and `low` and `high` themselves do so if `closed`. -/
structure Neighbourhood where
  low : Nat
  value : Nat
  high : Nat
  closed : Bool

def Neighbourhood.contains (n : Neighbourhood) (x : Nat) : Bool :=
  if n.closed then n.low ≤ x && x ≤ n.high else n.low < x && x < n.high

/-- The better of the two multiples of `step` next to the value, if any rounds to it. -/
def Neighbourhood.nearest? (n : Neighbourhood) (step : Nat) : Option Nat :=
  let k := n.value / step
  let below := k * step
  let above := (k + 1) * step
  match n.contains below, n.contains above with
  | false, false => none
  | true, false => some k
  | false, true => some (k + 1)
  | true, true => if n.value - below < above - n.value then some k else some (k + 1)

/-- Fraction digits enough to write every binary64 value exactly. -/
def places : Nat := 1080

/-- The neighbourhood of a finite value in units of `2 ^ -1076 * 10 ^ -places`, where both the
halfway points and all decimals of interest are whole numbers. -/
def neighbourhood (x : Binary64) : Neighbourhood :=
  let unit := Nat.pow 10 places <<< x.scale
  let m := 4 * x.significand
  let gap := if x.isLowerBoundary then 1 else 2
  ⟨(m - gap) * unit, m * unit, (m + 2) * unit, x.significand % 2 = 0⟩

/-- The size of `10 ^ (e - places)` in the units of `neighbourhood`. -/
def stepSize (e : Nat) : Nat := Nat.pow 10 e <<< 1076

/-- Tries ever finer decimal grids, from step `10 ^ (e - places)` down. -/
def search (n : Neighbourhood) : Nat → Scientific
  | 0 => ⟨n.value / stepSize 0, -(places : Int)⟩
  | e + 1 =>
    match n.nearest? (stepSize (e + 1)) with
    | some k => ⟨k, (e + 1 : Nat) - (places : Int)⟩
    | none => search n e

/-- The number of decimal digits of `n`. -/
def digitCount (n : Nat) : Nat := (Nat.toDigits 10 n).length

/-- The shortest decimal of a finite value other than zero. -/
def shortest (x : Binary64) : Scientific :=
  let n := neighbourhood x
  (search n (digitCount (n.value / stepSize 0) - 1)).trim 20

end Wordcode.Decimal
