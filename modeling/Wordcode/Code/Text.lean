import Wordcode.Code
import Wordcode.Text.Lossy
import Wordcode.Text.Number
import Wordcode.Text.Quoted

/-!
# Constants and flags as text
-/

set_option autoImplicit false

namespace Wordcode

/-- The named flags that are set, in order, then the remaining bits in hexadecimal. -/
def CodeFlags.text (f : CodeFlags) : String :=
  let known := named.filter fun p => f.has p.2
  let rest := known.foldl (fun bits p => bits &&& ~~~p.2.bits) f.bits
  let parts := known.map Prod.fst
  let all :=
    if rest = 0 && f.bits ≠ 0 then parts else parts ++ ["0x" ++ Text.hexDigits rest.toNat]
  "CodeFlags(" ++ String.intercalate " | " all ++ ")"

namespace Constant

def boolText (b : Bool) : String := if b then "True" else "False"

/-- The real part is left out if it is zero. -/
def complexText (re im : Binary64) : String :=
  if re.isZero then Text.float im ++ "j"
  else "(" ++ Text.float re ++ Text.signedFloat im ++ "j)"

mutual

def text : Constant → String
  | .none => "None"
  | .ellipsis => "Ellipsis"
  | .bool b => boolText b
  | .int n => toString n.toInt
  | .float x => Text.float x
  | .complex re im => complexText re im
  | .str s => Text.quoted s
  | .bytes bs => "b" ++ Text.quoted (Text.lossy bs)
  | .tuple [] => "()"
  | .tuple [c] => "(" ++ text c ++ ",)"
  | .tuple (c :: cs) => textAfter ("(" ++ text c) cs ++ ")"
  | .code c => "<code object " ++ c.name ++ ">"

/-- Adds further items to a text, each behind a comma. -/
def textAfter (out : String) : List Constant → String
  | [] => out
  | c :: cs => textAfter (out ++ ", " ++ text c) cs

end

end Constant
end Wordcode
