/-
  Toml.Table — the tables of a settings file.

  A table is the list of its entries. A header may take over a table that was only implied, a dotted key may add
  to any table that no header names, and nothing is ever written twice.
-/

namespace Lowering.Toml

/-- Settings are strings, integers and truth values; of the other kinds only the kind is kept. -/
inductive Value where
  | string (s : String)
  | integer (n : Int)
  | bool (b : Bool)
  | float
  | moment
  | array
  | table

/-- Why a table is there. -/
inductive Standing where
  | headed
  | implied
  | dotted
  deriving DecidableEq

inductive Item where
  | value (v : Value)
  | table (standing : Standing) (entries : List (String × Item))
  /-- The tables of a repeated header; only the latest can still grow. -/
  | series (latest : List (String × Item))

abbrev Entries := List (String × Item)

abbrev Path := List String

def Entries.set (entries : Entries) (key : String) (item : Item) : Entries :=
  entries.map fun entry => if entry.1 == key then (key, item) else entry

def Entries.add (entries : Entries) (key : String) (item : Item) : Entries := entries ++ [(key, item)]

/-- Changes the table that the path of a header leads to. Tables missing on the way are implied. -/
def within (change : Entries → Option Entries) : Path → Entries → Option Entries
  | [], entries => change entries
  | key :: path, entries =>
    match entries.lookup key with
    | none => (within change path []).map fun inner => entries.add key (.table .implied inner)
    | some (.table standing inner) =>
      (within change path inner).map fun inner => entries.set key (.table standing inner)
    | some (.series latest) => (within change path latest).map fun latest => entries.set key (.series latest)
    | some (.value _) => none

/-- Writes a value under a dotted key. The table that gets it must be one made by dotted keys,
    and no table on the way may be named by a header. -/
def put (v : Value) : Path → Entries → Option Entries
  | [], _ => none
  | [key], entries => if (entries.lookup key).isSome then none else some (entries.add key (.value v))
  | key :: next :: path, entries =>
    match entries.lookup key with
    | none => (put v (next :: path) []).map fun inner => entries.add key (.table .dotted inner)
    | some (.table standing inner) =>
      if standing == .headed || (path.isEmpty && standing == .implied) then none
      else (put v (next :: path) inner).map fun inner => entries.set key (.table standing inner)
    | some (.series latest) =>
      if path.isEmpty then none
      else (put v (next :: path) latest).map fun latest => entries.set key (.series latest)
    | some (.value _) => none

def openTable (key : String) (entries : Entries) : Option Entries :=
  match entries.lookup key with
  | none => some (entries.add key (.table .headed []))
  | some (.table .implied inner) => some (entries.set key (.table .headed inner))
  | _ => none

/-- Begins the next table of a repeated header. -/
def openSeries (key : String) (entries : Entries) : Option Entries :=
  match entries.lookup key with
  | none => some (entries.add key (.series []))
  | some (.series _) => some (entries.set key (.series []))
  | _ => none

/-- Opens the table at the end of a path in one of these ways. -/
def openAt (opening : String → Entries → Option Entries) (path : Path) (entries : Entries) : Option Entries :=
  match path.getLast? with
  | none => none
  | some key => within (opening key) path.dropLast entries

end Lowering.Toml
