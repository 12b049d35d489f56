/-
  Suggestion — "did you mean" for a name that is not known.

  Names are close when few single-character insertions, deletions and substitutions turn one into the other.
-/

namespace Lowering.Suggestion

/-- The cells of a row after its first: `left` and `diag` are the cells to the left and
    diagonally before the current one, `ups` the rest of the row above. -/
def rowCells (a : Char) : (left diag : Nat) → (bs : List Char) → (ups : List Nat) → List Nat
  | left, diag, b :: bs, up :: ups =>
    let cell := Nat.min (Nat.min (up + 1) (left + 1)) (diag + if a == b then 0 else 1)
    cell :: rowCells a cell up bs ups
  | _, _, _, _ => []

/-- The row of distances to every beginning of `bs` after one more character `a`. -/
def nextRow (bs : List Char) (row : List Nat) (a : Char) : List Nat :=
  match row with
  | [] => []
  | first :: ups => (first + 1) :: rowCells a (first + 1) first bs ups

/-- The least number of single-character edits from `s` to `t`. -/
def editDistance (s t : String) : Nat :=
  (s.toList.foldl (nextRow t.toList) (List.range (t.toList.length + 1))).getLast?.getD 0

/-- How many edits a name of this length may be away: a third of it, from one to three. -/
def tolerance (name : String) : Nat := Nat.min 3 (Nat.max 1 (name.length / 3))

/-- The first of the closest candidates within `limit` edits. -/
def closest (name : String) (candidates : List String) (limit : Nat) : Option String :=
  let near := (candidates.map fun c => (editDistance name c, c)).filter (·.1 ≤ limit)
  (near.foldl (fun best entry =>
    match best with
    | some b => if entry.1 < b.1 then some entry else some b
    | none => some entry) none).map (·.2)

def suggest (name : String) (candidates : List String) : Option String :=
  closest name candidates (tolerance name)

def hint : Option String → String
  | some name => "; did you mean `" ++ name ++ "`?"
  | none => ""

end Lowering.Suggestion
