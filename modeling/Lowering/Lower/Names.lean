/-
  Lower.Names — names and selections.

  A bound name is read, out of its wrapper if it has one. Otherwise a name is a function, a companion whose
  `Apply` takes nothing, or a builtin of the target.
-/

import Lowering.Lower.Piece

namespace Lowering.Lower

open Target (Expr)

/-- Builtins of the target that are called without a declaration. -/
def builtins : List String :=
  ["append", "cap", "copy", "delete", "len", "make", "max", "min", "new", "panic", "print", "println"]

def isBuiltin (name : String) : Bool := builtins.contains name

/-! ## Names -/

def lowerFunctionName (env : Env) (name : String) (f : FunctionEntry) (span : Span) : Lower Expr := do
  if !f.typeParams.isEmpty then fail (.genericAsValue name) span
  notePackage env f.package
  pure (.qualified (env.qualifier f.package) f.name)

/-- The type arguments of a companion without arguments: none, or those of the expected type. -/
def companionTypeArgs (e : TypeEntry) (apply : Method) (expected : Option Ty) : Option (List Ty) :=
  if e.typeParams.isEmpty then some []
  else expected.bind (unifyAll e.typeParams apply.result)

/-- `None` and its like: the `Apply` of the companion. -/
def lowerCompanionName (env : Env) (name : String) (e : TypeEntry) (apply : Method) (expected : Option Ty)
    (span : Span) : Lower Expr :=
  match companionTypeArgs e apply expected with
  | none => fail (.typeArgs name) span
  | some args => do
    notePackage env e.package
    pure (.method (.zero ((env.typeRef e).apply args)) "Apply" [])

/-- The companion a bare name stands for, when its `Apply` takes nothing. -/
def bareCompanion? (env : Env) (name : String) : Option (TypeEntry × Method) := do
  let e ← (env.type? name).filter (·.kind == .companion)
  let apply ← (e.method? "Apply").filter (·.params.isEmpty)
  some (e, apply)

def lowerGlobalName (env : Env) (name : String) (expected : Option Ty) (span : Span) : Lower Expr :=
  match env.function? name, bareCompanion? env name with
  | some f, _ => lowerFunctionName env name f span
  | none, some (e, apply) => lowerCompanionName env name e apply expected span
  | none, none =>
    if isBuiltin name then pure (.ident name)
    else fail (.unknownName name (Suggestion.suggest name env.index.functions.keys)) span

def lowerIdent (env : Env) (name : String) (expected : Option Ty) (span : Span) : Lower Expr := do
  match (← scope).find? name with
  | some binding => pure (if binding.ty.isWrapper then Storage.read (.ident name) else .ident name)
  | none => lowerGlobalName env name expected span

/-! ## Selections -/

def lowerMember (env : Env) (receiver : Expr) (ty : Ty) (member : Located String) : Lower Expr :=
  match Storage.readField env receiver ty member.val with
  | some (value, _) => pure value
  | none =>
    if (env.method? ty member.val).isSome then pure (.selector receiver member.val)
    else fail (Storage.unknownField env ty member.val) member.span

def lowerSelect (env : Env) (target : Piece) (member : Located String) : Lower Expr := do
  match packageOf? env (← scope) target.source.val with
  | some package => pure (.selector (.ident package) member.val)
  | none =>
    let ty ← typeOf env target.source
    if ty.isNil || ty.isAny then fail (.unknownReceiver member.val) target.source.span
    let receiver ← target.value none
    lowerMember env receiver ty member

/-! ## Reads of wrappers -/

/-- The expression reads a value that is stored wrapped. -/
def isWrapperRead (env : Env) (e : Source.Expr) : Lower Bool := do
  match e with
  | .ident name => pure ((← scope).find? name |>.any (·.ty.isWrapper))
  | .select target member =>
    match packageOf? env (← scope) target.val with
    | some _ => pure false
    | none =>
      let ty ← typeOf env target
      pure ((env.field? ty member.val).any (·.wrapped))
  | _ => pure false

/-- The expression reads a wrapper of the given type. -/
def readsWrapperOf (env : Env) (e : Located Source.Expr) (ty : Option Ty) : Lower Bool := do
  match ty with
  | none => pure false
  | some ty => if ← isWrapperRead env e.val then return (← typeOf env e) == ty else pure false

end Lowering.Lower
