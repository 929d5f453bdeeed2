import Wordcode.Decimal.Shortest

/-!
# Numbers in listings

A float is shown by its shortest decimal: positionally, with at least one fraction digit, from
`10 ^ -4` up to below `10 ^ 16`, and with an exponent otherwise.
-/

set_option autoImplicit false

namespace Wordcode.Text

/-- `digits`, filled on the left to `width` characters. -/
def padLeft (width : Nat) (fill : Char) (digits : String) : String :=
  String.ofList (List.replicate (width - digits.length) fill) ++ digits

/-- `text`, filled with blanks on the right to `width` characters. -/
def padRight (width : Nat) (text : String) : String :=
  text ++ String.ofList (List.replicate (width - text.length) ' ')

/-- The decimal `0.d₁d₂… * 10 ^ point` written positionally. -/
def positional (digits : List Char) (point : Int) : String :=
  if point ≤ 0 then
    "0." ++ String.ofList (List.replicate (-point).toNat '0' ++ digits)
  else
    let n := point.toNat
    let whole := digits.take n ++ List.replicate (n - digits.length) '0'
    let rest := digits.drop n
    String.ofList whole ++ "." ++ (if rest.isEmpty then "0" else String.ofList rest)

/-- The decimal `0.d₁d₂… * 10 ^ point` written with an exponent. -/
def exponential (digits : List Char) (point : Int) : String :=
  match digits with
  | [] => "0"
  | d :: rest =>
    let mantissa := if rest.isEmpty then [d] else d :: '.' :: rest
    String.ofList mantissa ++ "e" ++ toString (point - 1)

/-- The magnitude of a value that is not a NaN. -/
def magnitude (x : Binary64) : String :=
  if x.isInfinite then "inf"
  else if x.isZero then "0.0"
  else
    let d := Decimal.shortest x
    let digits := Nat.toDigits 10 d.coefficient
    let point := d.exponent + digits.length
    if -4 < point && point ≤ 16 then positional digits point else exponential digits point

/-- A NaN has no sign; every other value shows a minus if it has one. -/
def float (x : Binary64) : String :=
  if x.isNaN then "NaN" else if x.isNegative then "-" ++ magnitude x else magnitude x

/-- As `float`, with a plus where there is no minus. -/
def signedFloat (x : Binary64) : String :=
  if x.isNaN || x.isNegative then float x else "+" ++ float x

end Wordcode.Text
