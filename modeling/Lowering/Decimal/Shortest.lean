/-
  Decimal.Shortest — the fewest decimal digits that read back.

  A finite double is m · 2^q. The reals that round to it form an interval around it, ends included when m is even.
  Among the decimals n · 10^k in that interval the fewest digits win, and of two with equally many digits the
  nearer, the larger on a tie. All arithmetic is exact on naturals.
-/

namespace Lowering.Decimal

/-- A positive number m · 2^q. `narrow`: the gap below is half the gap above. -/
structure Binary where
  m : Nat
  q : Int
  narrow : Bool

/-- A positive number `digits` · 10^`exponent`. -/
structure Scaled where
  digits : Nat
  exponent : Int
  deriving DecidableEq

/-- Mantissa and exponent of the magnitude of a finite double, `none` for zero. -/
def Binary.ofBits (bits : UInt64) : Option Binary :=
  let b := bits.toNat
  let unit := Nat.pow 2 52
  let fraction : Nat := b % unit
  let biased : Nat := b / unit % 2048
  if biased == 0 then
    if fraction == 0 then none else some ⟨fraction, -1074, false⟩
  else some ⟨unit + fraction, (biased : Int) - 1075, fraction == 0 && biased != 1⟩

def powerOf (base : Nat) (e : Int) : Nat := Nat.pow base e.toNat

def digitCount (n : Nat) : Nat := (Nat.toDigits 10 n).length

/-- The exponent of the leading decimal digit of `num / den`. -/
def leadingExponent (num den : Nat) : Int :=
  if den ≤ num then (digitCount (num / den) : Int) - 1 else -(digitCount ((den - 1) / num) : Int)

/-- The best decimal on the grid of 10^k, if one lies in the interval of `x`. Quarters of
    the last binary place make the ends of the interval whole. -/
def onGrid (x : Binary) (k : Int) : Option Nat :=
  let grid := powerOf 10 k * powerOf 2 (2 - x.q)
  let scale := powerOf 10 (-k) * powerOf 2 (x.q - 2)
  let value := 4 * x.m * scale
  let low := (4 * x.m - if x.narrow then 1 else 2) * scale
  let high := (4 * x.m + 2) * scale
  let holds (n : Nat) : Bool :=
    if x.m % 2 == 0 then low ≤ n * grid && n * grid ≤ high else low < n * grid && n * grid < high
  let n := value / grid
  if holds n && holds (n + 1) then
    if 2 * value < (2 * n + 1) * grid then some n else some (n + 1)
  else if holds n && n != 0 then some n
  else if holds (n + 1) then some (n + 1)
  else none

/-- Tries grids of ever more digits, from `tried` digits on. -/
def refine (x : Binary) (lead : Int) : (left : Nat) → (tried : Nat) → Option Scaled
  | 0, _ => none
  | left + 1, tried =>
    let k := lead - (tried : Int)
    match onGrid x k with
    | some n => some ⟨n, k⟩
    | none => refine x lead left (tried + 1)

/-- Moves trailing zeros of the digits into the exponent. -/
def trim : (left : Nat) → Scaled → Scaled
  | 0, d => d
  | left + 1, d => if d.digits % 10 == 0 && d.digits != 0 then trim left ⟨d.digits / 10, d.exponent + 1⟩ else d

/-- The shortest decimal of `x`; seventeen digits always suffice. -/
def shortest (x : Binary) : Scaled :=
  let num := x.m * powerOf 2 x.q
  let den := powerOf 2 (-x.q)
  match refine x (leadingExponent num den) 18 0 with
  | some d => trim 18 d
  | none => ⟨x.m, 0⟩

end Lowering.Decimal
