/-
  Lower.Decl — declarations.

  A sealed type becomes a struct with a tag and the fields of all its variants, a constant per variant for the
  tag, and for each variant a companion that builds (`Apply`) and takes apart (`Unapply`) its values.
-/

import Lowering.Lower.Expr

namespace Lowering.Lower

open Source (ValDecl FuncDecl StructDecl SealedDecl Variant StructField Receiver)
open Target (Expr Stmt Element)

/-- Type parameters with their constraints, `any` without one. -/
def targetParams (params : List Source.TypeParam) : List Target.TypeParam :=
  params.map fun p => ⟨p.name, p.constraint.getD .any⟩

/-! ## Bindings of the package -/

/-- Binds the name for all declarations. -/
def bindGlobal (env : Env) (decl : ValDecl) : Lower Unit := do
  let ty ← bindingType env decl
  if decl.mutable then bind decl.name.val .var ty
  else
    let wrapper ← ofChecked (Storage.wrapperType env ty decl.name.span)
    bind decl.name.val .val wrapper

def lowerGlobal (env : Env) (decl : ValDecl) : Lower Target.Decl := do
  let ty ← bindingType env decl
  let lowered ← (piece env decl.value).value (some ty)
  if decl.mutable then pure (.var decl.name.val (some ty) (some lowered))
  else
    let wrapper ← ofChecked (Storage.wrapperType env ty decl.name.span)
    let stored ← storeValue env decl.value lowered ty
    pure (.var decl.name.val (some wrapper) (some stored))

/-! ## Functions and methods -/

/-- The body of a function. Receiver and parameters are value bindings without a wrapper. -/
def lowerBody (env : Env) (d : FuncDecl) (typeParams : List String) : Lower (List Stmt) := do
  let result := d.result.getD .void
  let receiver := d.receiver.toList.map fun r => (r.name, r.ty)
  withTypeParams typeParams (withScope do
    bindAll (receiver ++ d.params.map fun p => (p.name.val, p.ty))
    withFunction result false ((piece env d.body).body result))

def methodForm (env : Env) (receiver : Receiver) (name : String) : MethodForm :=
  let form? := do
    let owner ← env.index.types.find? receiver.ty.baseName
    let m ← owner.method? name
    some (MethodForm.of owner name m)
  form?.getD .keep

/-- The own type parameters of an extracted method that survive. -/
def ownParams (d : FuncDecl) (kept : List Bool) : List String :=
  (d.typeParams.mapIdx fun i p => (p.name, kept[i]?.getD true)).filterMap fun (name, keep) =>
    if keep then some name else none

def lowerFunc (env : Env) (d : FuncDecl) : Lower Target.Decl := do
  let results := (d.result.getD .void).results
  let params : List Target.Field := d.params.map fun p => ⟨p.name.val, p.ty⟩
  match d.receiver with
  | none =>
    let body ← lowerBody env d (Source.typeParamNames d.typeParams)
    pure (.func ⟨d.name.val, targetParams d.typeParams, none, params, results, body⟩)
  | some receiver =>
    let receiverNames := receiverParams receiver.ty
    let field : Target.Field := ⟨receiver.name, receiver.ty⟩
    match methodForm env receiver d.name.val with
    | .keep =>
      let body ← lowerBody env d receiverNames
      pure (.func ⟨d.name.val, [], some field, params, results, body⟩)
    | .extract function _ kept =>
      let own := ownParams d kept
      let body ← lowerBody env d (receiverNames ++ own)
      let typeParams := receiverNames.map (⟨·, .any⟩)
        ++ targetParams (d.typeParams.filter fun p => own.contains p.name)
      pure (.func ⟨function, typeParams, none, field :: params, results, body⟩)

/-! ## Structs -/

def lowerStructField (env : Env) (f : StructField) : Checked Target.Field := do
  let ty ← if f.mutable then pure f.ty else Storage.wrapperType env f.ty f.name.span
  pure ⟨f.name.val, ty⟩

def lowerStruct (env : Env) (d : StructDecl) : Checked Target.Decl := do
  let fields ← d.fields.mapM (lowerStructField env)
  pure (.struct d.name.val (targetParams d.typeParams) fields)

/-! ## Sealed types -/

def tagField : String := "_variant"

def tagType : Ty := .basic "uint8"

/-- The fields of the struct of a sealed type: the tag, then those of all variants. -/
def sealedFields (env : Env) (e : TypeEntry) (span : Span) : Checked (List Target.Field) := do
  let fields ← ((e.fields.zip e.fieldTypes).zipIdx).mapM fun ((name, declared), i) => do
    let ty ← if e.flags[i]?.getD true then Storage.wrapperType env declared span else pure declared
    pure (⟨name, ty⟩ : Target.Field)
  pure (⟨tagField, tagType⟩ :: fields)

def variantElement (env : Env) (e : TypeEntry) (self : Ty) (span : Span) (f : StructField) : Checked Element :=
  match e.fieldIndex? f.name.val with
  | some i => Storage.storeField env e self i (.ident f.name.val) false span
  | none => (Fault.variantFieldNotIndexed f.name.val).raise span

def variantApply (env : Env) (e : TypeEntry) (self companion : Ty) (v : Variant) (tag : Expr) (span : Span) :
    Checked Target.Decl := do
  let elements ← v.fields.mapM (variantElement env e self span)
  pure (.func ⟨"Apply", [], some ⟨"", companion⟩, v.fields.map fun f => ⟨f.name.val, f.ty⟩, [self],
    [.ret1 (.composite self (⟨some tagField, tag⟩ :: elements))]⟩)

def readVariantField (subject : Expr) (f : StructField) : Expr :=
  let place := Expr.selector subject f.name.val
  if f.mutable then place else Storage.read place

/-- What `Unapply` extracts: the only field, or the tuple of the fields. -/
def variantPayload (subject : Expr) (ty : Ty) : List StructField → Expr
  | [single] => readVariantField subject single
  | fields => .composite ty (fields.mapIdx fun i f => ⟨some (Ty.tupleField i), readVariantField subject f⟩)

def variantUnapply (env : Env) (self companion : Ty) (v : Variant) (tag : Expr) : Target.Decl :=
  let subject := Expr.ident "s"
  let isVariant := Expr.binary .eq (.selector subject tagField) tag
  let result := unapplyResult env.runtime (v.fields.map (·.ty))
  let payloadType := result.args.headD .any
  let option (name : String) (args : List Expr) : Stmt :=
    .ret1 (.method (.zero (.generic (.named env.runtime name) [payloadType])) "Apply" args)
  let body := if v.fields.isEmpty then [Stmt.ret1 isVariant]
    else [.guarded isVariant [option "Some" [variantPayload subject payloadType v.fields]], option "None" []]
  .func ⟨"Unapply", [], some ⟨"", companion⟩, [⟨"s", self⟩], [result], body⟩

def lowerVariant (env : Env) (d : SealedDecl) (e : TypeEntry) (v : Variant) : Checked (List Target.Decl) := do
  let self := e.selfType ""
  let companion := (Ty.own v.name.val).apply (e.typeParams.map .basic)
  let tag := Expr.ident (variantTag d.name.val v.name.val)
  let apply ← variantApply env e self companion v tag d.span
  pure [.struct v.name.val (targetParams d.typeParams) [], apply, variantUnapply env self companion v tag]

def lowerSealed (env : Env) (d : SealedDecl) : Checked (List Target.Decl) := do
  let name := d.name.val
  match env.index.types.find? name with
  | none => (Fault.sealedNotIndexed name).raise d.span
  | some e =>
    let fields ← sealedFields env e d.span
    let tags := d.variants.mapIdx fun i v => Target.Decl.const (variantTag name v.name.val) (some tagType) (.nat i)
    let companions ← d.variants.mapM (lowerVariant env d e)
    pure (.struct name (targetParams d.typeParams) fields :: tags ++ companions.flatten)

/-! ## All declarations -/

def lowerDecl (env : Env) (d : Located Source.Decl) : Lower (List Target.Decl) := do
  match d.val with
  | .val d => return [← lowerGlobal env d]
  | .func d => return [← lowerFunc env d]
  | .struct d => return [← ofChecked (lowerStruct env d)]
  | .sealedType d => ofChecked (lowerSealed env d)
  | .typeAlias d => pure [.typeAlias d.name.val (targetParams d.typeParams) d.ty]

/-- Bindings of the package are in scope everywhere, so they are bound first. -/
def bindGlobals (env : Env) (decls : List (Located Source.Decl)) : Lower Unit :=
  decls.forM fun d =>
    match d.val with
    | .val d => bindGlobal env d
    | _ => pure ()

def lowerDecls (env : Env) (decls : List (Located Source.Decl)) : Lower (List Target.Decl) := do
  bindGlobals env decls
  let lowered ← decls.mapM (lowerDecl env)
  pure lowered.flatten

end Lowering.Lower
