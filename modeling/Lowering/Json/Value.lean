/-
  Json.Value — the values of the exchange format.

  A number is an integer when it is written without a fraction or an exponent and fits 64 bits; every other number
  is a double. A text may hold values that are well formed and yet denote nothing; they matter only where one is
  used.
-/

namespace Lowering

inductive Json where
  | null
  | bool (b : Bool)
  | int (n : Int)
  | float (x : Float)
  | string (s : String)
  | array (items : List Json)
  | object (members : List (String × Json))
  /-- Well formed, but a number beyond the doubles, a string with half of a surrogate pair, an
      object with such a key, or a container that nests too deep. -/
  | unreadable

namespace Json

instance : Inhabited Json := ⟨.null⟩

mutual

def depth : Json → Nat
  | .array items => depthList items + 1
  | .object members => depthMembers members + 1
  | _ => 0

def depthList : List Json → Nat
  | [] => 0
  | j :: js => Nat.max j.depth (depthList js)

def depthMembers : List (String × Json) → Nat
  | [] => 0
  | (_, j) :: ms => Nat.max j.depth (depthMembers ms)

end

mutual

/-- No part is unreadable. -/
def isReadable : Json → Bool
  | .unreadable => false
  | .array items => areReadable items
  | .object members => membersReadable members
  | _ => true

def areReadable : List Json → Bool
  | [] => true
  | j :: js => j.isReadable && areReadable js

def membersReadable : List (String × Json) → Bool
  | [] => true
  | (_, j) :: ms => j.isReadable && membersReadable ms

end

end Json

end Lowering
