/-
  Toml.Reader — reading a settings file.

  A line holds a key and its value, or a header that says to which table the keys after it belong, or nothing; a
  comment may end it.
-/

import Lowering.Toml.Scalar

namespace Lowering.Toml

/-- How many keys a dotted key joins at most, and how deep values nest. -/
def deepest : Nat := 79

/-- Blanks, line breaks and comments, each comment with the end of its line. -/
def skipLines (inComment : Bool) : List Char → Option (List Char)
  | '\n' :: rest => skipLines false rest
  | '\r' :: '\n' :: rest => skipLines false rest
  | c :: rest =>
    if inComment then if isPlain c then skipLines true rest else none
    else if isBlank c then skipLines false rest
    else if c == '#' then skipLines true rest
    else some (c :: rest)
  | [] => if inComment then none else some []

/-- The next line, when nothing is left on this one but blanks and a comment. -/
def endLine? (cs : List Char) : Option (List Char) :=
  let rest := match skipBlank cs with
    | '#' :: comment => comment.dropWhile isPlain
    | rest => rest
  if rest.isEmpty then some [] else lineBreak? rest

/-! ## Values -/

mutual

/-- A value with at most so many levels of arrays and tables. -/
def valueUpTo : (fuel levels : Nat) → List Char → Option (Value × List Char)
  | 0, _, _ => none
  | _ + 1, 0, '[' :: _ => none
  | _ + 1, 0, '\x7b' :: _ => none
  | fuel + 1, levels + 1, '[' :: rest => (items fuel levels rest).map (.array, ·)
  | fuel + 1, levels + 1, '\x7b' :: rest =>
    match skipBlank rest with
    | '\x7d' :: rest => some (.table, rest)
    | rest => (members fuel levels [] rest).map (.table, ·)
  | _ + 1, _, cs => scalarValue cs

/-- The items of an array and its end. A comma may follow the last item. -/
def items : (fuel levels : Nat) → List Char → Option (List Char)
  | 0, _, _ => none
  | fuel + 1, levels, cs => do
    match ← skipLines false cs with
    | ']' :: rest => some rest
    | cs =>
      let (_, rest) ← valueUpTo fuel levels cs
      match ← skipLines false rest with
      | ',' :: rest => items fuel levels rest
      | ']' :: rest => some rest
      | _ => none

/-- The members of a table written as a value, and its end. -/
def members : (fuel levels : Nat) → Entries → List Char → Option (List Char)
  | 0, _, _, _ => none
  | fuel + 1, levels, entries, cs => do
    let (path, rest) ← dottedKey deepest cs
    let (v, rest) ← valueUpTo fuel levels (skipBlank (← exactly? '=' rest))
    let entries ← put v path entries
    match skipBlank rest with
    | ',' :: rest => members fuel levels entries rest
    | '\x7d' :: rest => some rest
    | _ => none

end

/-- A value; every character ahead is worth two steps. -/
def value? (cs : List Char) : Option (Value × List Char) := valueUpTo (2 * cs.length + 2) deepest cs

/-! ## Lines -/

structure Reading where
  root : Entries
  table : Path

/-- The key of a header between its brackets. -/
def header? (close : List Char) (cs : List Char) : Option (Path × List Char) := do
  let (path, rest) ← dottedKey deepest cs
  if close.isPrefixOf rest then some (path, ← endLine? (rest.drop close.length)) else none

def Reading.line? (r : Reading) (cs : List Char) : Option (Reading × List Char) :=
  match skipBlank cs with
  | '[' :: '[' :: rest => do
    let (path, rest) ← header? [']', ']'] rest
    some (⟨← openAt openSeries path r.root, path⟩, rest)
  | '[' :: rest => do
    let (path, rest) ← header? [']'] rest
    some (⟨← openAt openTable path r.root, path⟩, rest)
  | cs =>
    match endLine? cs with
    | some rest => some (r, rest)
    | none => do
      let (path, rest) ← dottedKey deepest cs
      let (v, rest) ← value? (skipBlank (← exactly? '=' rest))
      let rest ← endLine? rest
      some ({ r with root := ← within (put v path) r.table r.root }, rest)

def Reading.lines? (r : Reading) : (left : Nat) → List Char → Option Entries
  | _, [] => some r.root
  | 0, _ :: _ => none
  | left + 1, c :: cs => do
    let (r, rest) ← r.line? (c :: cs)
    r.lines? left rest

/-- The mark that some editors put at the beginning of a file. -/
def byteOrderMark : Char := '\ufeff'

/-- The top table of a text, `none` when the text is malformed. -/
def parse? (text : String) : Option Entries :=
  let cs := match text.toList with
    | c :: rest => if c == byteOrderMark then rest else c :: rest
    | [] => []
  Reading.lines? ⟨[], []⟩ cs.length cs

end Lowering.Toml
