/-
  Text.Uppercase — uppercase letters of every script.

  Scripts with case mostly list their letters either as a block of capitals or as pairs of a capital and its small
  letter, so a run of either kind is given by its first capital and the number of its capitals.
-/

namespace Lowering.Text

/-- Capitals outside ASCII that follow one another. -/
def capitalBlocks : List (Nat × Nat) := [
  (0xc0, 23), (0xd8, 7), (0x178, 2), (0x181, 2), (0x184, 1), (0x186, 2), (0x189, 3), (0x18e, 4), (0x193, 2),
  (0x196, 3), (0x19c, 2), (0x19f, 2), (0x1a6, 2), (0x1a9, 1), (0x1ac, 1), (0x1ae, 2), (0x1b1, 3), (0x1b5, 1),
  (0x1b7, 2), (0x1bc, 1), (0x1c4, 1), (0x1c7, 1), (0x1ca, 1), (0x1f1, 1), (0x1f4, 1), (0x1f6, 3), (0x23a, 2),
  (0x23d, 2), (0x241, 1), (0x243, 4), (0x376, 1), (0x37f, 1), (0x386, 1), (0x388, 3), (0x38c, 1), (0x38e, 2),
  (0x391, 17), (0x3a3, 9), (0x3cf, 1), (0x3d2, 3), (0x3f4, 1), (0x3f7, 1), (0x3f9, 2), (0x3fd, 51), (0x4c0, 2),
  (0x531, 38), (0x10a0, 38), (0x10c7, 1), (0x10cd, 1), (0x13a0, 86), (0x1c89, 1), (0x1c90, 43), (0x1cbd, 3),
  (0x1f08, 8), (0x1f18, 6), (0x1f28, 8), (0x1f38, 8), (0x1f48, 6), (0x1f68, 8), (0x1fb8, 4), (0x1fc8, 4),
  (0x1fd8, 4), (0x1fe8, 5), (0x1ff8, 4), (0x2102, 1), (0x2107, 1), (0x210b, 3), (0x2110, 3), (0x2115, 1),
  (0x2119, 5), (0x212a, 4), (0x2130, 4), (0x213e, 2), (0x2145, 1), (0x2160, 16), (0x2183, 1), (0x24b6, 26),
  (0x2c00, 48), (0x2c60, 1), (0x2c62, 3), (0x2c6d, 4), (0x2c72, 1), (0x2c75, 1), (0x2c7e, 3), (0x2cf2, 1),
  (0xa77d, 2), (0xa7aa, 5), (0xa7b0, 5), (0xa7c4, 4), (0xa7c9, 1), (0xa7cb, 2), (0xa7f5, 1), (0xff21, 26),
  (0x10400, 40), (0x104b0, 36), (0x10570, 11), (0x1057c, 15), (0x1058c, 7), (0x10594, 2), (0x10c80, 51),
  (0x10d50, 22), (0x118a0, 32), (0x16e40, 32), (0x16ea0, 25), (0x1d400, 26), (0x1d434, 26), (0x1d468, 26),
  (0x1d49c, 1), (0x1d49e, 2), (0x1d4a2, 1), (0x1d4a5, 2), (0x1d4a9, 4), (0x1d4ae, 8), (0x1d4d0, 26), (0x1d504, 2),
  (0x1d507, 4), (0x1d50d, 8), (0x1d516, 7), (0x1d538, 2), (0x1d53b, 4), (0x1d540, 5), (0x1d546, 1), (0x1d54a, 7),
  (0x1d56c, 26), (0x1d5a0, 26), (0x1d5d4, 26), (0x1d608, 26), (0x1d63c, 26), (0x1d670, 26), (0x1d6a8, 25),
  (0x1d6e2, 25), (0x1d71c, 25), (0x1d756, 25), (0x1d790, 25), (0x1d7ca, 1), (0x1e900, 34), (0x1f130, 26),
  (0x1f150, 26), (0x1f170, 26)]

/-- Capitals outside ASCII that alternate with small letters. -/
def capitalPairs : List (Nat × Nat) := [
  (0x100, 28), (0x139, 8), (0x14a, 23), (0x17b, 2), (0x1a2, 2), (0x1cd, 8), (0x1de, 9), (0x1fa, 29), (0x248, 4),
  (0x370, 2), (0x3d8, 12), (0x460, 17), (0x48a, 27), (0x4c3, 6), (0x4d0, 48), (0x1e00, 75), (0x1e9e, 49),
  (0x1f59, 4), (0x2124, 3), (0x2c67, 3), (0x2c82, 49), (0x2ceb, 2), (0xa640, 23), (0xa680, 14), (0xa722, 7),
  (0xa732, 31), (0xa779, 2), (0xa780, 4), (0xa78b, 2), (0xa790, 2), (0xa796, 10), (0xa7b6, 7), (0xa7ce, 8)]

def isUppercase (c : Char) : Bool :=
  if c.toNat < 0x80 then c.isUpper
  else capitalBlocks.any (fun (first, count) => first ≤ c.toNat && c.toNat < first + count) ||
    capitalPairs.any fun (first, count) => first ≤ c.toNat && c.toNat < first + 2 * count && (c.toNat - first) % 2 == 0

end Lowering.Text
