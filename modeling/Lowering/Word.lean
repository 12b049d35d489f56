/-
  Word — the ranges of numbers of 64 bits, and digits in base 16.
-/

namespace Lowering.Word

def size : Nat := 18446744073709551616

def half : Nat := 9223372036854775808

def isUnsigned (n : Int) : Bool := 0 ≤ n && n < (size : Int)

def isSigned (n : Int) : Bool := -(half : Int) ≤ n && n < (half : Int)

def hexDigit? (c : Char) : Option Nat :=
  if c.isDigit then some (c.toNat - 0x30)
  else if 0x61 ≤ c.toNat && c.toNat ≤ 0x66 then some (c.toNat - 0x61 + 10)
  else if 0x41 ≤ c.toNat && c.toNat ≤ 0x46 then some (c.toNat - 0x41 + 10)
  else none

end Lowering.Word
