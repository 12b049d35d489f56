/-
  Exchange.Record — records, alternatives and scalars in the exchange format.

  A record is an object, whose other members are ignored, or an array of its fields in order. An alternative is a
  string when it carries nothing, else an object of one member. Reading gives nothing when a value does not have
  the form asked for.
-/

import Lowering.Json.Value
import Lowering.Word

namespace Lowering.Exchange

/-! ## Scalars -/

def string? : Json → Option String
  | .string s => some s
  | _ => none

def bool? : Json → Option Bool
  | .bool b => some b
  | _ => none

/-- A natural number of 64 bits. -/
def nat? : Json → Option Nat
  | .int n => if Word.isUnsigned n then some n.toNat else none
  | _ => none

/-- A signed number of 64 bits. -/
def int? : Json → Option Int
  | .int n => if Word.isSigned n then some n else none
  | _ => none

/-- A double; integers are accepted. -/
def float? : Json → Option Float
  | .float x => some x
  | .int n => some (Float.ofInt n)
  | _ => none

def char? : Json → Option Char
  | .string s =>
    match s.toList with
    | [c] => some c
    | _ => none
  | _ => none

def list? {α : Type} (read : Json → Option α) : Json → Option (List α)
  | .array items => items.mapM read
  | _ => none

/-- `null` is no value. -/
def option? {α : Type} (read : Json → Option α) : Json → Option (Option α)
  | .null => some none
  | j => (read j).map some

def pair? {α β : Type} (first : Json → Option α) (second : Json → Option β) : Json → Option (α × β)
  | .array [a, b] => do some (← first a, ← second b)
  | _ => none

/-- The members of an object as pairs. -/
def members? {α : Type} (read : Json → Option α) : Json → Option (List (String × α))
  | .object members => members.mapM fun (key, j) => (read j).map (key, ·)
  | _ => none

/-! ## Records -/

inductive Slot where
  | given (j : Json)
  | missing
  /-- The array of fields ended before. -/
  | cut

/-- The slot of a name among members; none when it is there twice. -/
def slot? (members : List (String × Json)) (name : String) : Option Slot :=
  match members.filter (·.1 == name) with
  | [] => some .missing
  | [(_, j)] => some (.given j)
  | _ => none

/-- The items of an array as the slots of the given names. -/
def positional : List String → List Json → Option (List (String × Slot))
  | [], [] => some []
  | [], _ :: _ => none
  | name :: names, [] => (positional names []).map ((name, .cut) :: ·)
  | name :: names, j :: js => (positional names js).map ((name, .given j) :: ·)

/-- The fields of a record: their names in order, and what is read from their slots. -/
structure Fields (α : Type) where
  names : List String
  build : (String → Slot) → Option α

instance : Applicative Fields where
  pure a := ⟨[], fun _ => some a⟩
  seq f x := ⟨f.names ++ (x ()).names, fun slot => f.build slot <*> (x ()).build slot⟩

section

variable {α : Type}

def Fields.ofSlots (fields : Fields α) (slots : List (String × Slot)) : Option α :=
  fields.build fun name => (slots.lookup name).getD .missing

def named? (fields : Fields α) : Json → Option α
  | .object members => do fields.ofSlots (← fields.names.mapM fun name => (slot? members name).map (name, ·))
  | _ => none

/-- A record whose fields are named or in order. -/
def record? (fields : Fields α) : Json → Option α
  | .array items => do fields.ofSlots (← positional fields.names items)
  | j => named? fields j

def field (name : String) (read : Json → Option α) : Fields α where
  names := [name]
  build slot := match slot name with
    | .given j => read j
    | _ => none

/-- A field that may be missing or `null`. -/
def optional (name : String) (read : Json → Option α) : Fields (Option α) where
  names := [name]
  build slot := match slot name with
    | .given j => option? read j
    | .missing => some none
    | .cut => none

/-- A field with a standard value. -/
def defaulted (name : String) (read : Json → Option α) (standard : α) : Fields α where
  names := [name]
  build slot := match slot name with
    | .given j => read j
    | _ => some standard

end

/-! ## Alternatives -/

inductive Tagged where
  | bare (tag : String)
  | carrying (tag : String) (payload : Json)

namespace Tagged

def read? : Json → Option Tagged
  | .string tag => some (.bare tag)
  | .object [(tag, payload)] => some (.carrying tag payload)
  | _ => none

/-- The tag of an alternative without payload. -/
def bare? : Tagged → Option String
  | .bare tag => some tag
  | .carrying tag .null => some tag
  | _ => none

end Tagged

/-- How the fields that an alternative carries are given. -/
inductive Payload where
  | named
  | ordered

def Payload.read? {α : Type} : Payload → Fields α → Json → Option α
  | .named => named?
  | .ordered => record?

def bareTag? (j : Json) : Option String := (Tagged.read? j).bind Tagged.bare?

/-! ## Writing -/

def ofOption {α : Type} (write : α → Json) : Option α → Json
  | none => .null
  | some a => write a

def ofList {α : Type} (write : α → Json) (items : List α) : Json := .array (items.map write)

def ofNat (n : Nat) : Json := .int n

def tagged (tag : String) (payload : Json) : Json := .object [(tag, payload)]

end Lowering.Exchange
