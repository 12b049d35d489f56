/-
  NameSupply — names the program did not write.

  Two counters: temporaries, and the flags of matches run for their effect.
-/

namespace Lowering

structure NameSupply where
  stem : String
  next : Nat
  matched : Nat

namespace NameSupply

def new (stem : String) : NameSupply := ⟨stem, 0, 0⟩

def fresh (s : NameSupply) : String × NameSupply :=
  (s.stem ++ toString s.next, { s with next := s.next + 1 })

def freshFlag (s : NameSupply) : String × NameSupply :=
  ("_matched" ++ toString s.matched, { s with matched := s.matched + 1 })

end NameSupply

def methodFunction (receiver method : String) : String := receiver ++ "_" ++ method

def variantTag (sealedType variant : String) : String := sealedType ++ "_" ++ variant

end Lowering
