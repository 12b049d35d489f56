/-
  Json.Numeral — the values of numerals.

  A numeral keeps its leading digits as long as they fit 64 bits, with the power of ten by which they are still to
  be scaled. Without a fraction or an exponent, and when every digit was kept, it is an integer; otherwise it is a
  double.
-/

import Lowering.Json.Value
import Lowering.Word

namespace Lowering.Json

/-! ## Digits -/

def digitValue (c : Char) : Nat := c.toNat - 0x30

def natOf (digits : List Char) : Nat := digits.foldl (fun n c => n * 10 + digitValue c) 0

structure Kept where
  digits : Nat
  exponent : Int
  /-- A digit did not fit any more. -/
  full : Bool

namespace Kept

/-- A digit before the point; one that does not fit still counts as a place. -/
def whole (k : Kept) (c : Char) : Kept :=
  let longer := k.digits * 10 + digitValue c
  if !k.full && longer < Word.size then { k with digits := longer }
  else { k with exponent := k.exponent + 1, full := true }

/-- A digit behind the point; one that does not fit is dropped with all that follow. -/
def fraction (k : Kept) (c : Char) : Kept :=
  let longer := k.digits * 10 + digitValue c
  if !k.full && longer < Word.size then { k with digits := longer, exponent := k.exponent - 1 }
  else { k with full := true }

def ofDigits (whole fraction : List Char) : Kept :=
  fraction.foldl Kept.fraction { whole.foldl Kept.whole ⟨0, 0, false⟩ with full := false }

end Kept

/-! ## Doubles -/

def largestPower : Nat := 308

def powerOfTen (e : Nat) : Float := Float.ofScientific 1 false e

/-- A double divided by a power of ten, in steps of the largest power. Three steps take any
    number of 64 bits to zero. -/
def dividedBy : (steps : Nat) → Float → Nat → Float
  | 0, _, _ => 0.0
  | steps + 1, x, e =>
    if e ≤ largestPower then x / powerOfTen e
    else dividedBy steps (x / powerOfTen largestPower) (e - largestPower)

/-- A double scaled by a power of ten, if it stays finite. -/
def scaled? (x : Float) : Int → Option Float
  | .ofNat e =>
    if x == 0.0 then some x
    else if largestPower < e || (x * powerOfTen e).isInf then none
    else some (x * powerOfTen e)
  | .negSucc e => some (dividedBy 3 x (e + 1))

def floatOf (negative : Bool) (digits : Nat) (exponent : Int) : Json :=
  match scaled? (Float.ofNat digits) exponent with
  | some x => .float (if negative then -x else x)
  | none => .unreadable

/-! ## Numerals -/

def exponent? : List Char → Option Int
  | [] => none
  | '+' :: digits => if !digits.isEmpty && digits.all Char.isDigit then some (natOf digits) else none
  | '-' :: digits => if !digits.isEmpty && digits.all Char.isDigit then some (-(natOf digits : Int)) else none
  | digits => if digits.all Char.isDigit then some (natOf digits) else none

/-- A numeral of digits alone. Zero has no negative integer. -/
def integral (negative : Bool) (whole : List Char) : Json :=
  let n := natOf whole
  let kept := Kept.ofDigits whole []
  if negative then
    if 0 < n && n ≤ Word.half then .int (-(n : Int)) else floatOf true kept.digits kept.exponent
  else if n < Word.size then .int n
  else floatOf false kept.digits kept.exponent

/-- An unsigned numeral after its optional sign. -/
def magnitude? (negative : Bool) (cs : List Char) : Option Json := do
  let (whole, rest) := cs.span Char.isDigit
  if whole.isEmpty || (1 < whole.length && whole.head? == some '0') then none
  else
    let (fraction, rest) ← match rest with
      | '.' :: rest =>
        let (digits, rest) := rest.span Char.isDigit
        if digits.isEmpty then none else some (digits, rest)
      | rest => some ([], rest)
    let kept := Kept.ofDigits whole fraction
    match rest with
    | [] => some (if fraction.isEmpty then integral negative whole else floatOf negative kept.digits kept.exponent)
    | c :: rest =>
      if c == 'e' || c == 'E' then do
        let e ← exponent? rest
        some (floatOf negative kept.digits (kept.exponent + e))
      else none

end Lowering.Json
