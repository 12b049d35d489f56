/-
  Storage — values in and out of the immutable wrapper.

  Value bindings and fields not declared `var` are stored wrapped: a declaration writes `NewImmutable[T](v)`, a
  read appends `Get()`. Writes to them are refused.
-/

import Lowering.Env.Basic
import Lowering.Scope
import Lowering.Target.Tree

namespace Lowering.Storage

open Target (Expr Element)

/-! ## Wrapping and reading -/

/-- `Immutable[inner]`, unless `inner` wraps already. -/
def wrapperType (env : Env) (inner : Ty) (span : Span) : Checked Ty := Checked.ofWrap span (env.wrapperType inner)

/-- `NewImmutable[inner](value)` -/
def wrap (env : Env) (value : Expr) (inner : Ty) (span : Span) : Checked Expr := do
  let _ ← wrapperType env inner span
  pure (.call (.qualified env.runtime "NewImmutable") [inner] [value])

/-- Wraps a value read out of a wrapper: `x.Get()` gives back `x`. -/
def rewrap (env : Env) (read : Expr) (inner : Ty) (span : Span) : Checked Expr :=
  match read.getReceiver? with
  | some wrapper => do
    let _ ← wrapperType env inner span
    pure wrapper
  | none => wrap env read inner span

/-- `value.Get()` -/
def read (value : Expr) : Expr := .method value "Get" []

def readField (env : Env) (receiver : Expr) (ty : Ty) (field : String) : Option (Expr × Ty) := do
  let info ← env.field? ty field
  let place := Expr.selector receiver field
  some (if info.wrapped then read place else place, info.ty)

/-! ## Writing -/

/-- A field the type does not have, with one of a similar name. -/
def unknownField (env : Env) (ty : Ty) (field : String) : Fault :=
  .unknownField ty field ((env.entry? ty).bind fun e => Suggestion.suggest field e.fields)

def checkAssignBinding (scope : Scope) (name : String) (span : Span) : Checked Unit :=
  match scope.mutabilityOf? name with
  | some .var => pure ()
  | some .val => (Fault.assignToValue name).raise span
  | none => (Fault.assignToUnknown name).raise span

def checkAssignField (env : Env) (ty : Ty) (field : String) (span : Span) : Checked Unit :=
  match env.field? ty field with
  | some info => if info.wrapped then (Fault.assignToFixedField field ty).raise span else pure ()
  | none => (unknownField env ty field).raise span

/-- A field as a receiver sees it, or the fault that there is none. -/
def fieldInfo (env : Env) (ty : Ty) (field : String) (span : Span) : Checked FieldInfo :=
  match env.field? ty field with
  | some info => pure info
  | none => (unknownField env ty field).raise span

/-- The element of a struct literal that stores `value` in the field at a position. A value
    known to be read out of a wrapper of the field's own type keeps that wrapper. -/
def storeField (env : Env) (owner : TypeEntry) (ty : Ty) (position : Nat) (value : Expr) (wrapperRead : Bool)
    (span : Span) : Checked Element := do
  match owner.fields[position]? with
  | none => (Fault.noFieldAt ty position).raise span
  | some name => do
    let info ← fieldInfo env ty name span
    let stored ← match info.wrapped, wrapperRead with
      | true, true => rewrap env value info.ty span
      | true, false => wrap env value info.ty span
      | false, _ => pure value
    pure ⟨some name, stored⟩

/-! ## Copies of structs -/

structure Override where
  field : String
  value : Expr
  wrapperRead : Bool

/-- Takes out the override of a field; the last one moves into its place. -/
def takeOverride (field : String) (overrides : List Override) : Option (Override × List Override) := do
  let i ← overrides.findIdx? (·.field == field)
  let taken ← overrides[i]?
  let last ← overrides.getLast?
  some (taken, (overrides.set i last).dropLast)

def copyField (env : Env) (receiver : Expr) (ty : Ty) (field : String) (span : Span) : Checked Element := do
  let info ← fieldInfo env ty field span
  let current := Expr.selector receiver field
  pure ⟨some field, if info.wrapped then .call (.qualified env.runtime "Copy") [info.ty] [current] else current⟩

/-- The elements for the fields from a position on, and the overrides left over. -/
def copyFields (env : Env) (owner : TypeEntry) (receiver : Expr) (ty : Ty) (span : Span) :
    (position : Nat) → (fields : List String) → List Override → Checked (List Element × List Override)
  | _, [], overrides => pure ([], overrides)
  | position, field :: fields, overrides =>
    match takeOverride field overrides with
    | some (o, others) => do
      let element ← storeField env owner ty position o.value o.wrapperRead span
      let (elements, left) ← copyFields env owner receiver ty span (position + 1) fields others
      pure (element :: elements, left)
    | none => do
      let element ← copyField env receiver ty field span
      let (elements, left) ← copyFields env owner receiver ty span (position + 1) fields overrides
      pure (element :: elements, left)

/-- A copy of the struct `receiver` with some fields replaced. The receiver is evaluated once
    per field that is taken over. -/
def copyStruct (env : Env) (owner : TypeEntry) (receiver : Expr) (ty : Ty) (overrides : List Override)
    (span : Span) : Checked Expr := do
  let (elements, left) ← copyFields env owner receiver ty span 0 owner.fields overrides
  match left with
  | [] => pure (.composite ty elements)
  | o :: _ => (unknownField env ty o.field).raise span

end Lowering.Storage
