/-
  Decimal.Layout — the text of floating-point literals.

  Shortest digits, with a point and at least one digit behind it; from `large` up and below `small` (as powers of
  ten of the leading digit) scientific notation without a sign or padding in the exponent.
-/

import Lowering.Decimal.Shortest
import Lowering.Word

namespace Lowering.Decimal

structure Layout where
  large : Int
  small : Int

/-- Positional from 0.0001 up to but not including 10^16. -/
def literal : Layout := ⟨16, -4⟩

def zeros (n : Nat) : String := String.ofList (List.replicate n '0')

def positional (digits : List Char) (exponent : Int) : String :=
  let point := (digits.length : Int) + exponent
  if point ≤ 0 then "0." ++ zeros (-point).toNat ++ String.ofList digits
  else if 0 ≤ exponent then String.ofList digits ++ zeros exponent.toNat ++ ".0"
  else String.ofList (digits.take point.toNat) ++ "." ++ String.ofList (digits.drop point.toNat)

def scientific (digits : List Char) (lead : Int) : String :=
  match digits with
  | [] => "0"
  | [d] => String.singleton d ++ "e" ++ toString lead
  | d :: rest => String.singleton d ++ "." ++ String.ofList rest ++ "e" ++ toString lead

def Layout.write (f : Layout) (d : Scaled) : String :=
  let digits := Nat.toDigits 10 d.digits
  let lead := (digits.length : Int) - 1 + d.exponent
  if f.large ≤ lead || lead < f.small then scientific digits lead else positional digits d.exponent

def render (x : Float) : String :=
  if x.isNaN then "NaN"
  else
    let sign := if x.toBits.toNat / Word.half == 1 then "-" else ""
    if x.isInf then sign ++ "inf"
    else match Binary.ofBits x.toBits with
      | none => sign ++ "0.0"
      | some b => sign ++ literal.write (shortest b)

end Lowering.Decimal
