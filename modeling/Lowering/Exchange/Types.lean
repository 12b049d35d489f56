/-
  Exchange.Types — spans and types in the exchange format.
-/

import Lowering.Exchange.Record
import Lowering.Span
import Lowering.Ty.Basic

namespace Lowering.Exchange

/-! ## Spans -/

def span? : Json → Option Span := record? (Span.mk <$> field "start" nat? <*> field "end" nat?)

def ofSpan (s : Span) : Json := .object [("start", ofNat s.start), ("end", ofNat s.stop)]

def located? {α : Type} (read : Json → Option α) : Json → Option (Located α) :=
  record? (Located.mk <$> field "node" read <*> field "span" span?)

def ofLocated {α : Type} (write : α → Json) (l : Located α) : Json :=
  .object [("node", write l.val), ("span", ofSpan l.span)]

/-! ## Types -/

def kinds : List String :=
  ["basic", "named", "generic", "array", "pointer", "map", "func", "any", "nil", "void"]

/-- A kind by its name, and inside of another type also by its number. -/
def kindName? (inside : Bool) : Json → Option String
  | .string kind => some kind
  | .int n => if inside && 0 ≤ n then kinds[n.toNat]? else none
  | _ => none

/-- The kind of a type and the value its fields are read from. -/
def kind? (inside : Bool) : Json → Option (String × Json)
  | .object members => do
    match ← slot? members "kind" with
    | .given kind => (kindName? inside kind).map (·, .object members)
    | _ => none
  | .array (kind :: items) => (kindName? inside kind).map (·, .array items)
  | _ => none

/-- A kind without fields: other members are ignored, further items are not. -/
def fieldless? : Json → Option Unit
  | .array (_ :: _) => none
  | _ => some ()

/-- A type nested no deeper than the fuel. -/
def tyUpTo? (inside : Bool) : Nat → Json → Option Ty
  | 0, _ => none
  | fuel + 1, j => do
    let (kind, body) ← kind? inside j
    let ty := tyUpTo? true fuel
    match kind with
    | "basic" => record? (.basic <$> field "name" string?) body
    | "named" => record? (.named <$> field "package" string? <*> field "name" string?) body
    | "generic" => record? (.generic <$> field "base" ty <*> field "params" (list? ty)) body
    | "array" => record? (.array <$> field "elem" ty) body
    | "pointer" => record? (.pointer <$> field "elem" ty) body
    | "map" => record? (.map <$> field "key" ty <*> field "elem" ty) body
    | "func" => record? (.func <$> field "params" (list? ty) <*> field "results" (list? ty)) body
    | "any" => (fieldless? body).map fun _ => .any
    | "nil" => (fieldless? body).map fun _ => .nil
    | "void" => (fieldless? body).map fun _ => .void
    | _ => none

/-- A type, all of whose parts must be readable, also those that are ignored. -/
def ty? (j : Json) : Option Ty := if j.isReadable then tyUpTo? false (j.depth + 1) j else none

def tys? : Json → Option (List Ty) := list? ty?

def strings? : Json → Option (List String) := list? string?

mutual

def ofTy : Ty → Json
  | .basic name => .object [("kind", .string "basic"), ("name", .string name)]
  | .named package name =>
    .object [("kind", .string "named"), ("package", .string package), ("name", .string name)]
  | .generic base params =>
    .object [("kind", .string "generic"), ("base", ofTy base), ("params", .array (ofTyList params))]
  | .array elem => .object [("kind", .string "array"), ("elem", ofTy elem)]
  | .pointer elem => .object [("kind", .string "pointer"), ("elem", ofTy elem)]
  | .map key elem => .object [("kind", .string "map"), ("key", ofTy key), ("elem", ofTy elem)]
  | .func params results =>
    .object [("kind", .string "func"), ("params", .array (ofTyList params)), ("results", .array (ofTyList results))]
  | .any => .object [("kind", .string "any")]
  | .nil => .object [("kind", .string "nil")]
  | .void => .object [("kind", .string "void")]

def ofTyList : List Ty → List Json
  | [] => []
  | t :: ts => ofTy t :: ofTyList ts

end

def ofTys (ts : List Ty) : Json := .array (ofTyList ts)

def ofStrings (ss : List String) : Json := ofList Json.string ss

end Lowering.Exchange
