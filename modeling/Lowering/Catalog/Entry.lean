/-
  Catalog.Entry — what is known about a type, a function or a companion.

  The same entries describe the runtime, imported packages and the program's own declarations. A type entry lists
  its fields three times over, as names, flags and types; the lists come from files and need not be equally long.
-/

import Lowering.Table
import Lowering.Text.Qualified
import Lowering.Ty.Wrapper

namespace Lowering

inductive TypeKind where
  | struct
  /-- A closed set of variants. -/
  | sealedType
  /-- An object with `Apply` and `Unapply`. -/
  | companion
  | interface
  /-- A type whose layout is never looked at. -/
  | opaqueType
  deriving DecidableEq

structure Method where
  params : List Ty
  result : Ty
  /-- Its own type parameters, beyond the receiver's. -/
  typeParams : List String
  /-- Marked as one the target cannot keep a method. -/
  generic : Bool

def Method.plain (params : List Ty) (result : Ty) : Method := ⟨params, result, [], false⟩

structure TypeEntry where
  package : String
  name : String
  kind : TypeKind
  fields : List String
  /-- Per field: stored in the wrapper. -/
  flags : List Bool
  /-- Per field: its declared type. -/
  fieldTypes : List Ty
  typeParams : List String
  constraints : Table Ty
  methods : Table Method
  /-- The variants of a sealed type, in the order they are declared. -/
  variants : List String

namespace TypeEntry

def new (package name : String) (kind : TypeKind) : TypeEntry :=
  ⟨package, name, kind, [], [], [], [], .empty, .empty, []⟩

def qualifiedName (e : TypeEntry) : String := Text.qualify e.package e.name

def fieldIndex? (e : TypeEntry) (name : String) : Option Nat := e.fields.findIdx? (· == name)

/-- The declared type of a field, the wrapper looked through. -/
def fieldType? (e : TypeEntry) (name : String) : Option Ty := do
  let i ← e.fieldIndex? name
  (e.fieldTypes[i]?).map Ty.unwrap

/-- The field is stored wrapped: its flag says so, or without a flag its type does. -/
def fieldWrapped? (e : TypeEntry) (name : String) : Option Bool := do
  let i ← e.fieldIndex? name
  e.flags[i]? <|> (e.fieldTypes[i]?).map Ty.isWrapper

def method? (e : TypeEntry) (name : String) : Option Method := e.methods.find? name

def isSealed (e : TypeEntry) : Bool := e.kind == .sealedType

def selfType (e : TypeEntry) (qualifier : String) : Ty :=
  (Ty.named qualifier e.name).apply (e.typeParams.map .basic)

def addMethod (e : TypeEntry) (name : String) (m : Method) : TypeEntry :=
  { e with methods := e.methods.insert name m }

end TypeEntry

structure FunctionEntry where
  package : String
  name : String
  params : List Ty
  result : Ty
  typeParams : List String

def FunctionEntry.qualifiedName (e : FunctionEntry) : String := Text.qualify e.package e.name

/-- A companion builds and takes apart values of its target type. -/
structure CompanionEntry where
  package : String
  name : String
  target : String
  /-- Which arguments of the target are the companion's own. -/
  indices : List Nat

def CompanionEntry.qualifiedName (e : CompanionEntry) : String := Text.qualify e.package e.name

end Lowering
