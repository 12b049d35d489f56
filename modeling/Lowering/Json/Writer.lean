/-
  Json.Writer — writing values of the exchange format.

  On one line, or one item per line with two blanks per level. What cannot be read is written as `null`.
-/

import Lowering.Decimal.Layout
import Lowering.Json.Value

namespace Lowering.Json

def hex4 (n : Nat) : String :=
  let digits := Nat.toDigits 16 n
  String.ofList (List.replicate (4 - digits.length) '0' ++ digits)

def escapedChar (c : Char) : String :=
  if c == '"' then "\\\""
  else if c == '\\' then "\\\\"
  else if c == '\n' then "\\n"
  else if c == '\r' then "\\r"
  else if c == '\t' then "\\t"
  else if c.toNat < 0x20 then "\\u" ++ hex4 c.toNat
  else String.singleton c

def quoted (s : String) : String := "\"" ++ String.join (s.toList.map escapedChar) ++ "\""

def blanks (depth : Nat) : String := String.ofList (List.replicate (2 * depth) ' ')

mutual

def render : Json → String
  | .null | .unreadable => "null"
  | .bool b => if b then "true" else "false"
  | .int n => toString n
  | .float x => Decimal.render x
  | .string s => quoted s
  | .array items => "[" ++ ",".intercalate (renderItems items) ++ "]"
  | .object members => "\x7b" ++ ",".intercalate (renderMembers members) ++ "\x7d"

def renderItems : List Json → List String
  | [] => []
  | j :: js => j.render :: renderItems js

def renderMembers : List (String × Json) → List String
  | [] => []
  | (key, j) :: ms => (quoted key ++ ":" ++ j.render) :: renderMembers ms

end

/-- Items of a container on lines of their own. -/
def spread (depth : Nat) (first last : String) (items : List String) : String :=
  if items.isEmpty then first ++ last
  else first ++ "\n" ++ ",\n".intercalate (items.map (blanks (depth + 1) ++ ·)) ++ "\n" ++ blanks depth ++ last

mutual

def prettyAt (depth : Nat) : Json → String
  | .array items => spread depth "[" "]" (prettyItems (depth + 1) items)
  | .object members => spread depth "\x7b" "\x7d" (prettyMembers (depth + 1) members)
  | other => other.render

def prettyItems (depth : Nat) : List Json → List String
  | [] => []
  | j :: js => j.prettyAt depth :: prettyItems depth js

def prettyMembers (depth : Nat) : List (String × Json) → List String
  | [] => []
  | (key, j) :: ms => (quoted key ++ ": " ++ j.prettyAt depth) :: prettyMembers depth ms

end

def pretty (j : Json) : String := j.prettyAt 0

end Lowering.Json
