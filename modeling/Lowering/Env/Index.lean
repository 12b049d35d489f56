/-
  Env.Index — the program's own declarations.

  The index is built before anything is lowered, so declarations can be used before they appear: types, variants
  and aliases first, then functions and methods, which attach to the types indexed before.
-/

import Lowering.Catalog.Entry
import Lowering.Diagnostic
import Lowering.Source.Program
import Lowering.Ty.Substitution

namespace Lowering

open Source (Program Decl FuncDecl StructDecl SealedDecl Variant StructField TypeParam typeParamNames)

/-- `type Name[P] = target` -/
structure AliasInfo where
  typeParams : List String
  target : Ty

structure Index where
  types : Table TypeEntry
  functions : Table FunctionEntry
  companions : Table CompanionEntry
  aliases : Table AliasInfo

def receiverParams (receiver : Ty) : List String := receiver.args.filterMap Ty.leafName?

/-- What `Unapply` returns for fields of the given types: a truth value without fields, else
    an option of the field or of the tuple of fields. -/
def unapplyResult (runtime : String) : List Ty → Ty
  | [] => .bool
  | [field] => .generic (.named runtime "Option") [field]
  | fields => .generic (.named runtime "Option") [.tuple runtime fields]

def constraintTable (params : List TypeParam) : Table Ty :=
  .ofList (params.filterMap fun p => p.constraint.map (p.name, ·))

namespace TypeEntry

def addField (e : TypeEntry) (f : StructField) : TypeEntry :=
  { e with
    fields := e.fields ++ [f.name.val]
    flags := e.flags ++ [!f.mutable]
    fieldTypes := e.fieldTypes ++ [f.ty] }

def ofDecl (name : String) (kind : TypeKind) (params : List TypeParam) : TypeEntry :=
  { TypeEntry.new "" name kind with typeParams := typeParamNames params, constraints := constraintTable params }

/-- Adds a variant's field, which an earlier variant may have declared with the same type. -/
def addVariantField (e : TypeEntry) (f : StructField) : Checked TypeEntry :=
  match e.fieldType? f.name.val with
  | none => pure (e.addField f)
  | some first =>
    if first == f.ty then pure e
    else (Fault.variantFieldTypes f.name.val e.name first f.ty).raise f.name.span

def addVariant (e : TypeEntry) (v : Variant) : Checked TypeEntry :=
  v.fields.foldlM addVariantField { e with variants := e.variants ++ [v.name.val] }

/-- The companion type of a variant of the sealed type `e`. -/
def variantCompanion (runtime : String) (e : TypeEntry) (v : Variant) : TypeEntry :=
  let fields := v.fields.map (·.ty)
  { TypeEntry.new "" v.name.val .companion with
    typeParams := e.typeParams
    constraints := e.constraints
    methods := .ofList [("Apply", .plain fields (e.selfType "")),
      ("Unapply", .plain [e.selfType ""] (unapplyResult runtime fields))] }

end TypeEntry

namespace Index

def empty : Index := ⟨.empty, .empty, .empty, .empty⟩

def addType (index : Index) (e : TypeEntry) : Index := { index with types := index.types.insert e.name e }

def addStruct (index : Index) (d : StructDecl) : Index :=
  index.addType (d.fields.foldl TypeEntry.addField (.ofDecl d.name.val .struct d.typeParams))

def addCompanion (index : Index) (runtime : String) (e : TypeEntry) (v : Variant) : Index :=
  let index := index.addType (e.variantCompanion runtime v)
  { index with
    companions := index.companions.insert v.name.val
      ⟨"", v.name.val, e.name, List.range e.typeParams.length⟩ }

def addSealed (runtime : String) (index : Index) (d : SealedDecl) : Checked Index := do
  let start := TypeEntry.ofDecl d.name.val .sealedType d.typeParams
  let entry ← d.variants.foldlM TypeEntry.addVariant start
  pure ((d.variants.foldl (fun i v => i.addCompanion runtime start v) index).addType entry)

def addDecl (runtime : String) (index : Index) (d : Located Decl) : Checked Index :=
  match d.val with
  | .struct d => pure (index.addStruct d)
  | .sealedType d => index.addSealed runtime d
  | .typeAlias d =>
    pure { index with aliases := index.aliases.insert d.name.val ⟨typeParamNames d.typeParams, d.ty⟩ }
  | .func _ | .val _ => pure index

/-- Adds a method to the type of its receiver, as a signature over the parameters of that
    type. A receiver of a type the program does not declare makes an entry for it. -/
def addMethod (index : Index) (d : FuncDecl) (receiver : Ty) : Index :=
  let base := receiver.baseName
  let names := receiverParams receiver
  let entry := (index.types.find? base).getD (.new "" base .opaqueType)
  let entry := if entry.typeParams.isEmpty && entry.kind == .opaqueType then { entry with typeParams := names } else entry
  let rename := Substitution.ofParams names (entry.typeParams.map .basic)
  { index with
    types := index.types.insert base (entry.addMethod d.name.val
      ⟨d.params.map (·.ty.subst rename), (d.result.getD .void).subst rename, typeParamNames d.typeParams, false⟩) }

def addFunction (index : Index) (d : FuncDecl) : Index :=
  { index with
    functions := index.functions.insert d.name.val
      ⟨"", d.name.val, d.params.map (·.ty), d.result.getD .void, typeParamNames d.typeParams⟩ }

def addCode (index : Index) (d : Located Decl) : Index :=
  match d.val with
  | .func d =>
    match d.receiver with
    | some receiver => index.addMethod d receiver.ty
    | none => index.addFunction d
  | _ => index

def build (program : Program) (runtime : String) : Checked Index := do
  let index ← program.decls.foldlM (addDecl runtime) empty
  pure (program.decls.foldl addCode index)

end Index

end Lowering
