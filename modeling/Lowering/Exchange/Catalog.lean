/-
  Exchange.Catalog — catalog files and settings in the exchange format.

  A catalog file is read from its text and then checked, so its types obey the wrapper rule.
-/

import Lowering.Catalog.Basic
import Lowering.Exchange.Types
import Lowering.Json.Reader
import Lowering.Settings

namespace Lowering.Exchange

def kindTag : TypeKind → String
  | .struct => "struct"
  | .sealedType => "sealed"
  | .companion => "companion"
  | .interface => "interface"
  | .opaqueType => "opaque"

def typeKind? (j : Json) : Option TypeKind := do
  let tag ← bareTag? j
  [TypeKind.struct, .sealedType, .companion, .interface, .opaqueType].find? (kindTag · == tag)

def ofTable {α : Type} (write : α → Json) (t : Table α) : Json :=
  .object (t.entries.map fun (key, value) => (key, write value))

/-- Of repeated members the last one counts. -/
def table? {α : Type} (read : Json → Option α) (j : Json) : Option (Table α) := (members? read j).map .ofList

def method? : Json → Option Method :=
  record? (Method.mk <$> defaulted "params" tys? [] <*> defaulted "result" ty? .void
    <*> defaulted "type_params" strings? [] <*> defaulted "generic" bool? false)

def ofMethod (m : Method) : Json :=
  .object [("params", ofTys m.params), ("result", ofTy m.result), ("type_params", ofStrings m.typeParams),
    ("generic", .bool m.generic)]

def typeEntry? : Json → Option TypeEntry :=
  record? (TypeEntry.mk <$> field "package" string? <*> field "name" string? <*> defaulted "kind" typeKind? .struct
    <*> defaulted "fields" strings? [] <*> defaulted "immut_flags" (list? bool?) []
    <*> defaulted "field_types" tys? [] <*> defaulted "type_params" strings? []
    <*> defaulted "constraints" (table? ty?) .empty <*> defaulted "methods" (table? method?) .empty
    <*> defaulted "variants" strings? [])

def ofTypeEntry (e : TypeEntry) : Json :=
  .object [("package", .string e.package), ("name", .string e.name), ("kind", .string (kindTag e.kind)),
    ("fields", ofStrings e.fields), ("immut_flags", ofList Json.bool e.flags), ("field_types", ofTys e.fieldTypes),
    ("type_params", ofStrings e.typeParams), ("constraints", ofTable ofTy e.constraints),
    ("methods", ofTable ofMethod e.methods), ("variants", ofStrings e.variants)]

def functionEntry? : Json → Option FunctionEntry :=
  record? (FunctionEntry.mk <$> field "package" string? <*> field "name" string? <*> defaulted "params" tys? []
    <*> defaulted "result" ty? .void <*> defaulted "type_params" strings? [])

def ofFunctionEntry (e : FunctionEntry) : Json :=
  .object [("package", .string e.package), ("name", .string e.name), ("params", ofTys e.params),
    ("result", ofTy e.result), ("type_params", ofStrings e.typeParams)]

def companionEntry? : Json → Option CompanionEntry :=
  record? (CompanionEntry.mk <$> field "package" string? <*> field "name" string? <*> field "target" string?
    <*> defaulted "extract_indices" (list? nat?) [])

def ofCompanionEntry (e : CompanionEntry) : Json :=
  .object [("package", .string e.package), ("name", .string e.name), ("target", .string e.target),
    ("extract_indices", ofList ofNat e.indices)]

def packageImport? : Json → Option PackageImport :=
  record? (PackageImport.mk <$> field "package" string? <*> field "path" string?
    <*> defaulted "alias" (option? string?) none <*> defaulted "dot" bool? false)

def ofPackageImport (i : PackageImport) : Json :=
  .object [("package", .string i.package), ("path", .string i.path), ("alias", ofOption Json.string i.aliasName),
    ("dot", .bool i.dot)]

def catalogFile? : Json → Option CatalogFile :=
  record? (CatalogFile.mk <$> defaulted "types" (list? typeEntry?) [] <*> defaulted "functions" (list? functionEntry?) []
    <*> defaulted "companions" (list? companionEntry?) [] <*> defaulted "imports" (list? packageImport?) [])

def ofCatalogFile (f : CatalogFile) : Json :=
  .object [("types", ofList ofTypeEntry f.types), ("functions", ofList ofFunctionEntry f.functions),
    ("companions", ofList ofCompanionEntry f.companions), ("imports", ofList ofPackageImport f.imports)]

def catalogOfText (text : String) : Except CatalogFault CatalogFile := do
  let some f := (Json.ofFile? text).bind catalogFile? | throw .unreadable
  f.check
  pure f

/-! ## Settings -/

/-- Settings as an object; they are not checked. -/
def settings? : Json → Option Settings :=
  record? (Settings.mk <$> defaulted "runtime_package" string? Settings.standard.runtimePackage
    <*> defaulted "runtime_import" string? Settings.standard.runtimeImport
    <*> defaulted "temp_prefix" string? Settings.standard.tempStem
    <*> defaulted "max_depth" nat? Settings.standard.maxDepth
    <*> defaulted "reflective_unapply" bool? Settings.standard.reflectiveUnapply
    <*> defaulted "min_tuple_arity" nat? Settings.standard.leastArity
    <*> defaulted "max_tuple_arity" nat? Settings.standard.mostArity)

def ofSettings (s : Settings) : Json :=
  .object [("runtime_package", .string s.runtimePackage), ("runtime_import", .string s.runtimeImport),
    ("temp_prefix", .string s.tempStem), ("max_depth", ofNat s.maxDepth),
    ("reflective_unapply", .bool s.reflectiveUnapply), ("min_tuple_arity", ofNat s.leastArity),
    ("max_tuple_arity", ofNat s.mostArity)]

end Lowering.Exchange
