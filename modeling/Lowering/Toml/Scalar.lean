/-
  Toml.Scalar — strings, keys, numbers, dates and times of a settings file.

  A reader takes the characters ahead and returns what it read with the characters that are left, or nothing when
  they do not begin as they should.
-/

import Lowering.Toml.Table
import Lowering.Word

namespace Lowering.Toml

/-! ## Characters -/

def isBlank (c : Char) : Bool := c == ' ' || c == '\t'

def skipBlank (cs : List Char) : List Char := cs.dropWhile isBlank

/-- Allowed inside strings and comments. -/
def isPlain (c : Char) : Bool := c == '\t' || (0x20 ≤ c.toNat && c.toNat != 0x7f)

def isBareKey (c : Char) : Bool := c.isAlphanum || c == '_' || c == '-'

/-- The characters after a line break: a line feed, perhaps behind a carriage return. -/
def lineBreak? : List Char → Option (List Char)
  | '\n' :: rest => some rest
  | '\r' :: '\n' :: rest => some rest
  | _ => none

def number? (base : Nat) (cs : List Char) : Option Nat :=
  cs.foldlM (fun n c => do
    let d ← Word.hexDigit? c
    if d < base then some (n * base + d) else none) 0

def scalar? (cs : List Char) : Option Char := do
  let n ← number? 16 cs
  if n.isValidChar then some (Char.ofNat n) else none

/-! ## Strings -/

/-- A character written with a backslash, after the backslash. -/
def escaped? : List Char → Option (Char × List Char)
  | 'u' :: a :: b :: c :: d :: rest => (scalar? [a, b, c, d]).map (·, rest)
  | 'U' :: a :: b :: c :: d :: e :: f :: g :: h :: rest => (scalar? [a, b, c, d, e, f, g, h]).map (·, rest)
  | 'b' :: rest => some ('\x08', rest)
  | 't' :: rest => some ('\t', rest)
  | 'n' :: rest => some ('\n', rest)
  | 'f' :: rest => some ('\x0c', rest)
  | 'r' :: rest => some ('\r', rest)
  | '"' :: rest => some ('"', rest)
  | '\\' :: rest => some ('\\', rest)
  | _ => none

/-- The rest of a string in double quotes, of at most `left` characters. -/
def basicString (acc : List Char) : (left : Nat) → List Char → Option (String × List Char)
  | 0, _ => none
  | left + 1, cs =>
    match cs with
    | '"' :: rest => some (String.ofList acc.reverse, rest)
    | '\\' :: rest => do
      let (c, rest) ← escaped? rest
      basicString (c :: acc) left rest
    | c :: rest => if isPlain c then basicString (c :: acc) left rest else none
    | [] => none

def quote : Char := '\x27'

def literalString (cs : List Char) : Option (String × List Char) :=
  match cs.span fun c => c != quote && isPlain c with
  | (body, c :: rest) => if c == quote then some (String.ofList body, rest) else none
  | (_, []) => none

/-- Blanks and line breaks. -/
def skipBreaks : List Char → List Char
  | '\n' :: rest => skipBreaks rest
  | '\r' :: '\n' :: rest => skipBreaks rest
  | c :: rest => if isBlank c then skipBreaks rest else c :: rest
  | [] => []

/-- The end of a string in three quotes of the kind `mark`: up to two quotes before the last
    three belong to the string. -/
def longEnd? (mark : Char) (acc cs : List Char) : Option (String × List Char) :=
  let marks := (cs.takeWhile (· == mark)).length
  if marks < 3 then none
  else
    let own := Nat.min (marks - 3) 2
    some (String.ofList (acc.reverse ++ List.replicate own mark), cs.drop (own + 3))

/-- The rest of a string in three quotes. In double quotes a backslash at the end of a line takes
    the break and the blanks after it away. -/
def longString (mark : Char) (acc : List Char) : (left : Nat) → List Char → Option (String × List Char)
  | 0, _ => none
  | left + 1, cs =>
    match longEnd? mark acc cs, lineBreak? cs, cs with
    | some done, _, _ => some done
    | none, some rest, _ => longString mark ('\n' :: acc) left rest
    | none, none, '\\' :: rest =>
      if mark == quote then longString mark ('\\' :: acc) left rest
      else match lineBreak? (skipBlank rest) with
        | some rest => longString mark acc left (skipBreaks rest)
        | none => do
          let (c, rest) ← escaped? rest
          longString mark (c :: acc) left rest
    | none, none, c :: rest => if isPlain c then longString mark (c :: acc) left rest else none
    | none, none, [] => none

/-- A long string does not begin with the line break after its quotes. -/
def afterBreak (cs : List Char) : List Char := (lineBreak? cs).getD cs

def string? : List Char → Option (String × List Char)
  | '"' :: '"' :: '"' :: rest => longString '"' [] (rest.length + 1) (afterBreak rest)
  | '"' :: rest => basicString [] (rest.length + 1) rest
  | '\x27' :: '\x27' :: '\x27' :: rest => longString quote [] (rest.length + 1) (afterBreak rest)
  | '\x27' :: rest => literalString rest
  | _ => none

/-! ## Keys -/

def simpleKey : List Char → Option (String × List Char)
  | '"' :: rest => basicString [] (rest.length + 1) rest
  | '\x27' :: rest => literalString rest
  | cs =>
    match cs.span isBareKey with
    | ([], _) => none
    | (key, rest) => some (String.ofList key, rest)

/-- Keys joined by dots, with blanks around them; at most `left` of them. -/
def dottedKey : (left : Nat) → List Char → Option (Path × List Char)
  | 0, _ => none
  | left + 1, cs => do
    let (key, rest) ← simpleKey (skipBlank cs)
    match skipBlank rest with
    | '.' :: rest =>
      let (keys, rest) ← dottedKey left rest
      some (key :: keys, rest)
    | rest => some ([key], rest)

/-! ## Numbers -/

def digitRun? (cs : List Char) : Option (List Char) :=
  let groups := cs.splitOn '_'
  if groups.all fun g => !g.isEmpty && g.all Char.isDigit then some groups.flatten else none

/-- The digits of a number without leading zeros. -/
def decimalDigits? (cs : List Char) : Option (List Char) := do
  let digits ← digitRun? cs
  if 1 < digits.length && digits.head? == some '0' then none else some digits

def based? (base : Nat) (cs : List Char) : Option Nat :=
  let groups := cs.splitOn '_'
  if groups.all (!·.isEmpty) then number? base groups.flatten else none

def decimal? (cs : List Char) : Option Nat := do number? 10 (← decimalDigits? cs)

def integer? : List Char → Option Int
  | '0' :: 'x' :: cs => (based? 16 cs).map Int.ofNat
  | '0' :: 'o' :: cs => (based? 8 cs).map Int.ofNat
  | '0' :: 'b' :: cs => (based? 2 cs).map Int.ofNat
  | '+' :: cs => (decimal? cs).map Int.ofNat
  | '-' :: cs => (decimal? cs).map fun n => -Int.ofNat n
  | cs => (decimal? cs).map Int.ofNat

def unsigned (cs : List Char) : List Char :=
  match cs with
  | '+' :: rest => rest
  | '-' :: rest => rest
  | rest => rest

/-- A number given as digits times a power of ten. -/
structure Scaled where
  digits : List Char
  exponent : Int

/-- The power of ten after the letter; none stands for zero. -/
def power? : List Char → Option Int
  | [] => some 0
  | _ :: '-' :: cs => do
    let n ← number? 10 (← digitRun? cs)
    some (-Int.ofNat n)
  | _ :: cs => do
    let n ← number? 10 (← digitRun? (unsigned cs))
    some (Int.ofNat n)

/-- A number with a fraction or a power of ten, after its sign. -/
def scaled? (cs : List Char) : Option Scaled := do
  let (mantissa, tail) := cs.span fun c => c != 'e' && c != 'E'
  let power ← power? tail
  match mantissa.splitOn '.' with
  | [whole] => if tail.isEmpty then none else some ⟨← decimalDigits? whole, power⟩
  | [whole, fraction] =>
    let fraction ← digitRun? fraction
    some ⟨(← decimalDigits? whole) ++ fraction, power - fraction.length⟩
  | _ => none

/-- The least number that no finite double is nearest to: halfway from the largest double to
    the next power of two. -/
def overflow : Nat := Nat.pow 2 1024 - Nat.pow 2 970

/-- The number is beyond the doubles. Its size is compared exactly only near the bound. -/
def Scaled.overflows (s : Scaled) : Bool :=
  let digits := s.digits.dropWhile (· == '0')
  let places := (digits.length : Int) + s.exponent
  match number? 10 digits with
  | none => false
  | some n =>
    if digits.isEmpty || places < 300 then false
    else if 320 < places then true
    else if 0 ≤ s.exponent then overflow ≤ n * Nat.pow 10 s.exponent.toNat
    else overflow * Nat.pow 10 (-s.exponent).toNat ≤ n

/-- A float. Of the numbers beyond the doubles only negative ones are accepted. -/
def isFloat (cs : List Char) : Bool :=
  let body := unsigned cs
  if body == ['i', 'n', 'f'] || body == ['n', 'a', 'n'] then true
  else match scaled? body with
    | some s => cs.head? == some '-' || !s.overflows
    | none => false

def isWordChar (c : Char) : Bool := c.isAlphanum || c == '_' || c == '+' || c == '-' || c == '.'

def word? (cs : List Char) : Option Value :=
  if cs == ['t', 'r', 'u', 'e'] then some (.bool true)
  else if cs == ['f', 'a', 'l', 's', 'e'] then some (.bool false)
  else match integer? cs with
    | some n => if Word.isSigned n then some (.integer n) else none
    | none => if isFloat cs then some .float else none

/-! ## Dates and times -/

/-- A number of a fixed count of digits, within bounds. -/
def fixed? (count least most : Nat) (cs : List Char) : Option (Nat × List Char) := do
  let digits := cs.take count
  if digits.length == count && digits.all Char.isDigit then
    let n ← number? 10 digits
    if least ≤ n && n ≤ most then some (n, cs.drop count) else none
  else none

def exactly? (c : Char) : List Char → Option (List Char)
  | d :: rest => if d == c then some rest else none
  | [] => none

def daysOf (year month : Nat) : Nat :=
  if month == 2 then
    if year % 4 == 0 && (year % 100 != 0 || year % 400 == 0) then 29 else 28
  else if month == 4 || month == 6 || month == 9 || month == 11 then 30
  else 31

def date? (cs : List Char) : Option (List Char) := do
  let (year, rest) ← fixed? 4 0 9999 cs
  let (month, rest) ← fixed? 2 1 12 (← exactly? '-' rest)
  let (_, rest) ← fixed? 2 1 (daysOf year month) (← exactly? '-' rest)
  some rest

/-- Hour, minute, second and perhaps a fraction of it. A minute may have a leap second. -/
def time? (cs : List Char) : Option (List Char) := do
  let (_, rest) ← fixed? 2 0 23 cs
  let (_, rest) ← fixed? 2 0 59 (← exactly? ':' rest)
  let (_, rest) ← fixed? 2 0 60 (← exactly? ':' rest)
  match rest with
  | '.' :: fraction =>
    match fraction.span Char.isDigit with
    | ([], _) => some rest
    | (_, rest) => some rest
  | rest => some rest

/-- The distance to universal time. -/
def offset? : List Char → Option (List Char)
  | c :: rest =>
    if c == 'Z' || c == 'z' then some rest
    else if c == '+' || c == '-' then do
      let (_, rest) ← fixed? 2 0 23 rest
      let (_, rest) ← fixed? 2 0 59 (← exactly? ':' rest)
      some rest
    else none
  | [] => none

/-- A date, a time, or both. -/
def moment? (cs : List Char) : Option (List Char) :=
  match date? cs with
  | none => time? cs
  | some rest =>
    match rest with
    | c :: clock =>
      if c == 'T' || c == 't' || c == ' ' then
        match time? clock with
        | some after => some ((offset? after).getD after)
        | none => some rest
      else some rest
    | [] => some []

/-! ## Values on one line -/

def scalarValue (cs : List Char) : Option (Value × List Char) :=
  match string? cs with
  | some (s, rest) => some (.string s, rest)
  | none =>
    match moment? cs with
    | some rest => some (.moment, rest)
    | none =>
      let (word, rest) := cs.span isWordChar
      (word? word).map (·, rest)

end Lowering.Toml
