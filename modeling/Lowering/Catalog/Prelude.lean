/-
  Catalog.Prelude — the runtime package.

  The wrapper, options with their two companions, lists, tuples of every supported arity, and the functions
  emitted code calls.
-/

import Lowering.Catalog.Basic
import Lowering.Settings

namespace Lowering.Prelude

def param : Ty := .basic "T"

def runtimeType (runtime name : String) : Ty := .generic (.named runtime name) [param]

def genericType (runtime name : String) (kind : TypeKind) (methods : List (String × Method)) : TypeEntry :=
  { TypeEntry.new runtime name kind with typeParams := ["T"], methods := .ofList methods }

def wrapperType (runtime : String) : TypeEntry :=
  genericType runtime Ty.wrapperName .opaqueType [("Get", .plain [] param)]

def optionType (runtime : String) : TypeEntry :=
  { genericType runtime "Option" .sealedType [("IsDefined", .plain [] .bool), ("Get", .plain [] param)] with
    variants := ["Some", "None"] }

def someType (runtime : String) : TypeEntry :=
  let option := runtimeType runtime "Option"
  genericType runtime "Some" .companion [("Apply", .plain [param] option), ("Unapply", .plain [option] option)]

def noneType (runtime : String) : TypeEntry :=
  let option := runtimeType runtime "Option"
  genericType runtime "None" .companion [("Apply", .plain [] option), ("Unapply", .plain [option] .bool)]

def listType (runtime : String) : TypeEntry :=
  genericType runtime "List" .opaqueType
    [("Size", .plain [] .int), ("Get", .plain [.int] param), ("Drop", .plain [.int] (runtimeType runtime "List"))]

def tupleType (runtime : String) (arity : Nat) : TypeEntry :=
  let params := (List.range arity).map fun i => "T" ++ toString (i + 1)
  { TypeEntry.new runtime (Ty.tupleName arity) .struct with
    fields := (List.range arity).map Ty.tupleField
    flags := List.replicate arity false
    fieldTypes := params.map .basic
    typeParams := params }

def arities : List Nat :=
  (List.range (mostTupleArity + 1 - leastTupleArity)).map (· + leastTupleArity)

def functions (runtime : String) : List FunctionEntry :=
  let wrapper := runtimeType runtime Ty.wrapperName
  [⟨runtime, "NewImmutable", [param], wrapper, ["T"]⟩,
   ⟨runtime, "Copy", [wrapper], wrapper, ["T"]⟩,
   ⟨runtime, "UnapplyFull", [.any, .any], .array .any, []⟩,
   ⟨runtime, "UnapplyCheck", [.any, .any], .bool, []⟩,
   ⟨runtime, "ListOf", [.array param], runtimeType runtime "List", ["T"]⟩]

def file (runtime : String) : CatalogFile where
  types := [wrapperType runtime, optionType runtime, someType runtime, noneType runtime, listType runtime]
    ++ arities.map (tupleType runtime)
  functions := functions runtime
  companions := [⟨runtime, "Some", "Option", [0]⟩, ⟨runtime, "None", "Option", [0]⟩]
  imports := []

def catalog (runtime : String) : Catalog := Catalog.empty.merge (file runtime)

end Lowering.Prelude
