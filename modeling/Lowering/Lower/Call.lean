/-
  Lower.Call — calls.

  Functions, methods and companions take arguments by position; a constructor also by name, a copy only by name.
  Type arguments are written out when they can be determined, and left to the target when every type parameter
  occurs in some parameter type.
-/

import Lowering.Lower.Names
import Lowering.MethodForm

namespace Lowering.Lower

open Target (Expr Stmt Element)

/-! ## Arguments -/

/-- The arguments of a callee that takes them by position only. -/
def positional (callee : String) (args : List ArgPiece) : Lower (List Piece) :=
  match args.findSome? (·.name) with
  | some name => fail (.positionalOnly callee) name.span
  | none => pure (args.map (·.value))

def checkArity (callee : String) (expected found : Nat) (span : Span) : Lower Unit :=
  if expected == found then pure () else fail (.arity callee expected found) span

def targetInfers (typeParams : List String) (params : List Ty) : Bool :=
  typeParams.all fun p => params.any (·.mentions [p])

/-- A generic callee: its name, type parameters, parameter types and declared result. -/
structure Generic where
  name : String
  typeParams : List String
  params : List Ty
  result : Ty

def typeArgsQuestion (callee : Generic) (args : List (Option Piece)) (explicit : List Ty) (expected : Option Ty)
    (inf : Inference) : Query (Option (List Ty)) :=
  askTypeArgs callee.typeParams callee.params (args.map (·.map fun p => inf.argQueryOf p.source)) explicit
    (expected.map (callee.result, ·))

/-- The type arguments of a call, `none` when they are left to the target. -/
def calleeTypeArgs (env : Env) (callee : Generic) (args : List (Option Piece)) (explicit : List Ty)
    (expected : Option Ty) (span : Span) : Lower (Option (List Ty)) := do
  if !explicit.isEmpty && explicit.length != callee.typeParams.length then
    fail (.typeArity callee.name callee.typeParams.length explicit.length) span
  match ← ask env (typeArgsQuestion callee args explicit expected) with
  | some typeArgs => pure (some typeArgs)
  | none =>
    if targetInfers callee.typeParams callee.params then pure none
    else fail (.typeArgsNeeded callee.name) span

/-- The same for a callee the target cannot infer type arguments for. -/
def knownTypeArgs (env : Env) (callee : Generic) (args : List (Option Piece)) (explicit : List Ty)
    (expected : Option Ty) (span : Span) : Lower (List Ty) := do
  match ← calleeTypeArgs env callee args explicit expected span with
  | some typeArgs => pure typeArgs
  | none => fail (.typeArgs callee.name) span

/-- The type an argument is lowered against; none while the parameter is not determined. -/
def argExpected (typeParams : List String) (typeArgs : Option (List Ty)) (param : Ty) : Option Ty :=
  match typeArgs with
  | some typeArgs => some (param.subst (.ofParams typeParams typeArgs))
  | none => if param.mentions typeParams then none else some param

def lowerArgs (params : List Ty) (typeParams : List String) (typeArgs : Option (List Ty)) (args : List Piece) :
    Lower (List Expr) :=
  (args.zip params).mapM fun (arg, param) => arg.value (argExpected typeParams typeArgs param)

def checkedArgs (callee : Generic) (args : List ArgPiece) (span : Span) : Lower (List Piece) := do
  let values ← positional callee.name args
  checkArity callee.name callee.params.length values.length span
  pure values

/-! ## Functions and companions -/

def callFunction (env : Env) (f : FunctionEntry) (typeArgs : List Ty) (args : List ArgPiece) (expected : Option Ty)
    (span : Span) : Lower Expr := do
  let callee : Generic := ⟨f.name, f.typeParams, f.params, f.result⟩
  let values ← checkedArgs callee args span
  let typeArgs ← calleeTypeArgs env callee (values.map some) typeArgs expected span
  let lowered ← lowerArgs f.params f.typeParams typeArgs values
  notePackage env f.package
  pure (.call (.qualified (env.qualifier f.package) f.name) (typeArgs.getD []) lowered)

/-- `Some(x)` as the `Apply` of the companion. -/
def callCompanion (env : Env) (e : TypeEntry) (typeArgs : List Ty) (args : List ArgPiece) (expected : Option Ty)
    (span : Span) : Lower Expr := do
  match e.method? "Apply" with
  | none => fail (.companionNotCallable e.name) span
  | some apply =>
    let callee : Generic := ⟨e.name, e.typeParams, apply.params, apply.result⟩
    let values ← checkedArgs callee args span
    let typeArgs ← knownTypeArgs env callee (values.map some) typeArgs expected span
    let lowered ← lowerArgs apply.params e.typeParams (some typeArgs) values
    notePackage env e.package
    pure (.method (.zero ((env.typeRef e).apply typeArgs)) "Apply" lowered)

/-! ## Methods -/

def receiverArgs : Ty → List Ty
  | .pointer elem => elem.args
  | other => other.args

def callMethod (env : Env) (receiver : Piece) (ty : Ty) (owner : TypeEntry) (name : String) (m : Method)
    (typeArgs : List Ty) (args : List ArgPiece) (expected : Option Ty) (span : Span) : Lower Expr := do
  let callee : Generic := ⟨name, m.typeParams, m.params, m.result⟩
  let values ← checkedArgs callee args span
  let own ← calleeTypeArgs env callee (values.map some) typeArgs expected span
  let lowered ← lowerArgs m.params m.typeParams own values
  let receiver ← receiver.value none
  match (owner.method? name).map (MethodForm.of owner name) with
  | some (.extract function _ kept) =>
    notePackage env owner.package
    let typeArgs := match own with
      | some own => MethodForm.typeArgs (receiverArgs ty) own kept
      | none => []
    pure (.call (.qualified (env.qualifier owner.package) function) typeArgs (receiver :: lowered))
  | _ => pure (.method receiver name lowered)

/-! ## Structs -/

/-- One value for every field. -/
def constructorArgs (e : TypeEntry) (span : Span) :
    (fields : List String) → (slots : List (Option Piece)) → Lower (List Piece)
  | field :: fields, slot :: slots =>
    match slot with
    | some value => do
      let values ← constructorArgs e span fields slots
      pure (value :: values)
    | none => fail (.missingArg field e.name) span
  | _, _ => pure []

def constructorElements (env : Env) (e : TypeEntry) (ty : Ty) (span : Span) :
    (position : Nat) → List Piece → Lower (List Element)
  | _, [] => pure []
  | position, value :: values => do
    let fieldType := ((e.fields[position]?).bind (env.field? ty)).map (·.ty)
    let wrapperRead ← readsWrapperOf env value.source fieldType
    let lowered ← value.value fieldType
    let element ← ofChecked (Storage.storeField env e ty position lowered wrapperRead span)
    let elements ← constructorElements env e ty span (position + 1) values
    pure (element :: elements)

/-- `Name(args)` as a struct literal. -/
def construct (env : Env) (e : TypeEntry) (typeArgs : List Ty) (args : List ArgPiece) (expected : Option Ty)
    (span : Span) : Lower Expr := do
  let slots ← ofChecked (arrange e.fields (args.map fun a => (a.name, a.value)) span)
  checkArity e.name e.fields.length slots.length span
  let values ← constructorArgs e span e.fields slots
  let callee : Generic :=
    ⟨e.name, e.typeParams, e.fieldTypes.map Ty.unwrap, e.selfType (env.qualifier e.package)⟩
  let typeArgs ← knownTypeArgs env callee slots typeArgs expected span
  let ty := (env.typeRef e).apply typeArgs
  notePackage env e.package
  let elements ← constructorElements env e ty span 0 values
  pure (.composite ty elements)

/-- The overrides of a copy, each field at most once; `seen` are those before. -/
def copyOverrides (env : Env) (ty : Ty) : (seen : List String) → List ArgPiece → Lower (List Storage.Override)
  | _, [] => pure []
  | _, ⟨none, value⟩ :: _ => fail .copyByPosition value.source.span
  | seen, ⟨some name, value⟩ :: args => do
    if seen.contains name.val then fail (.repeatedArg name.val) name.span
    let field ← ofChecked (Storage.fieldInfo env ty name.val name.span)
    let wrapperRead ← readsWrapperOf env value.source (some field.ty)
    let lowered ← value.value (some field.ty)
    let overrides ← copyOverrides env ty (name.val :: seen) args
    pure (⟨name.val, lowered, wrapperRead⟩ :: overrides)

/-- `p.Copy(age = 31)`; a receiver with effects is evaluated once. -/
def callCopy (env : Env) (receiver : Piece) (ty : Ty) (owner : TypeEntry) (args : List ArgPiece) (span : Span) :
    Lower Expr := do
  let overrides ← copyOverrides env ty [] args
  let receiver ← receiver.value none
  if receiver.isPureRead then ofChecked (Storage.copyStruct env owner receiver ty overrides span)
  else
    let tmp ← fresh
    let copy ← ofChecked (Storage.copyStruct env owner (.ident tmp) ty overrides span)
    pure (.invoked [ty] [.define1 tmp receiver, .ret1 copy])

/-! ## Other calls -/

def callConversion (ty : Ty) (args : List ArgPiece) (span : Span) : Lower Expr := do
  match ← positional ty.render args with
  | [value] => do
    let lowered ← value.value none
    pure (.apply (.type ty) [lowered])
  | values => fail (.arity ty.render 1 values.length) span

def callValue (callee : Piece) (params : List Ty) (args : List ArgPiece) (span : Span) : Lower Expr := do
  let values ← checkedArgs ⟨"function value", [], params, .void⟩ args span
  let function ← callee.value none
  let lowered ← lowerArgs params [] none values
  pure (.apply function lowered)

/-- A callee without a known signature: builtins and symbols of unlisted packages. -/
def callUntyped (callee : Piece) (args : List ArgPiece) : Lower Expr := do
  let function ← match callee.source.val with
    | .ident name => if isBuiltin name then pure (.ident name) else callee.value none
    | _ => callee.value none
  let values ← positional "call" args
  let lowered ← values.mapM (·.value none)
  pure (.apply function lowered)

/-- The receiver of a method call: the target of the selection. -/
def receiverOf (callee : Piece) : Piece := callee.parts.headD callee

def lowerCall (env : Env) (callee : Piece) (typeArgs : List Ty) (args : List ArgPiece) (expected : Option Ty)
    (span : Span) : Lower Expr := do
  match ← ask env (·.askCalleeOf callee.source) with
  | .function f => callFunction env f typeArgs args expected span
  | .constructor e => construct env e typeArgs args expected span
  | .companion e => callCompanion env e typeArgs args expected span
  | .method ty owner name m => callMethod env (receiverOf callee) ty owner name m typeArgs args expected span
  | .copy ty owner => callCopy env (receiverOf callee) ty owner args span
  | .conversion ty => callConversion ty args span
  | .value (.func params _) => callValue callee params args span
  | .value .nil => callUntyped callee args
  | .value ty => fail (.notCallable ty) callee.source.span
  | .unknown => callUntyped callee args

end Lowering.Lower
