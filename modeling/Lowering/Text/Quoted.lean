/-
  Text.Quoted — literals as quoted text.

  The quote that encloses the literal, the backslash, the usual control characters and every hidden character are
  escaped; all other characters stand for themselves.
-/

import Lowering.Text.Visible

namespace Lowering.Text

def hexDigits (n : Nat) : String := String.ofList (Nat.toDigits 16 n)

/-- The text of one character inside quotes of the kind `mark`. -/
def escaped (mark : Char) (c : Char) : String :=
  if c == '\x00' then "\\0"
  else if c == '\t' then "\\t"
  else if c == '\r' then "\\r"
  else if c == '\n' then "\\n"
  else if c == '\\' || c == mark then String.ofList ['\\', c]
  else if isVisible c then String.singleton c
  else "\\u\x7b" ++ hexDigits c.toNat ++ "\x7d"

def quotedString (s : String) : String :=
  "\"" ++ String.join (s.toList.map (escaped '"')) ++ "\""

def quotedChar (c : Char) : String := "'" ++ escaped '\'' c ++ "'"

end Lowering.Text
