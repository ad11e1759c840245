import Decompiler.Text.Visible

/-!
Quoted text: a string between double quotes, in which the quote, the backslash
and four control characters are written with a backslash, and every other hidden
character by its code point.
-/

namespace Decompiler

def codePointText (c : Char) : String := String.ofList (Nat.toDigits 16 c.toNat)

def quotedChar (c : Char) : String :=
  if c = '"' then "\\\""
  else if c = '\\' then "\\\\"
  else if c = '\n' then "\\n"
  else if c = '\r' then "\\r"
  else if c = '\t' then "\\t"
  else if c = Char.ofNat 0 then "\\0"
  else if isVisible c then String.singleton c
  else "\\u\x7b" ++ codePointText c ++ "\x7d"

def quoted (s : String) : String :=
  "\"" ++ String.join (s.toList.map quotedChar) ++ "\""

end Decompiler
