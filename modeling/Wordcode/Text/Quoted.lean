import Wordcode.Text.Hidden

/-!
# Quoted text

Text between double quotes, with escapes for what would not show.
-/

set_option autoImplicit false

namespace Wordcode.Text

def hexDigits (n : Nat) : String := String.ofList (Nat.toDigits 16 n)

def escape (c : Char) : String :=
  if c = '"' then "\\\""
  else if c = '\\' then "\\\\"
  else if c = '\n' then "\\n"
  else if c = '\r' then "\\r"
  else if c = '\t' then "\\t"
  else if c = Char.ofNat 0 then "\\0"
  else if isHidden c then "\\u\x7b" ++ hexDigits c.toNat ++ "\x7d"
  else c.toString

def quoted (s : String) : String := s.toList.foldl (fun out c => out ++ escape c) "\"" ++ "\""

end Wordcode.Text
