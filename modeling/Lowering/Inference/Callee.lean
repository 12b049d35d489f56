/-
  Inference.Callee — what a call calls, and what it returns.

  A name bound in scope is a value. Any other name is a function, a companion, a struct or a builtin conversion. A
  selection is a function of a package, a method of the receiver, the generated `Copy` of a struct or a field that
  holds a function.
-/

import Lowering.Env.Basic
import Lowering.Inference.Arguments
import Lowering.Scope

namespace Lowering

open Source (Expr)

inductive Callee where
  | function (f : FunctionEntry)
  | constructor (e : TypeEntry)
  | companion (e : TypeEntry)
  | method (receiver : Ty) (owner : TypeEntry) (name : String) (signature : Method)
  /-- A copy of a struct with some fields replaced. -/
  | copy (receiver : Ty) (owner : TypeEntry)
  /-- A builtin conversion such as `float64(x)`. -/
  | conversion (ty : Ty)
  | value (ty : Ty)
  | unknown

/-! ## Names -/

/-- The package a selection starts from, unless a binding hides it. -/
def packageOf? (env : Env) (scope : Scope) (target : Expr) : Option String :=
  match target with
  | .ident name => if !scope.contains name && env.isPackage name then some name else none
  | _ => none

/-- A function as a value; generic functions are none. -/
def functionType (params : List Ty) (result : Ty) (typeParams : List String) : Ty :=
  if typeParams.isEmpty then .func params result.results else .nil

def namedFunctionType (env : Env) (name : String) : Ty :=
  match env.function? name with
  | some f => functionType f.params f.result f.typeParams
  | none => .nil

/-- The type of a name: its binding without the wrapper, or a function. -/
def identType (env : Env) (scope : Scope) (name : String) : Ty :=
  let ty := scope.typeOf name
  if ty.isNil then namedFunctionType env name else ty.unwrap

def memberType (env : Env) (receiver : Ty) (member : String) : Ty :=
  match env.field? receiver member with
  | some field => field.ty
  | none =>
    match env.methodSignature? receiver member with
    | some m => functionType m.params m.result m.typeParams
    | none => .nil

/-! ## Callees -/

def namedCallee (env : Env) (name : String) : Callee :=
  match env.function? name with
  | some f => .function f
  | none =>
    match env.type? name with
    | some e =>
      match e.kind with
      | .companion => .companion e
      | .struct => .constructor e
      | _ => .unknown
    | none => if (Ty.basic name).isBuiltin then .conversion (.basic name) else .unknown

def fieldCallee (env : Env) (receiver : Ty) (member : String) : Callee :=
  match env.field? receiver member with
  | some field => if field.ty.isFunc then .value field.ty else .unknown
  | none => .unknown

def memberCallee (env : Env) (receiver : Ty) (member : String) : Callee :=
  match env.method? receiver member with
  | some (owner, m) => .method receiver owner member (m.subst (Env.receiverSubst owner receiver))
  | none =>
    match (env.entry? receiver).filter fun e => member == "Copy" && e.kind == .struct with
    | some owner => .copy receiver owner
    | none => fieldCallee env receiver member

/-- What a callee denotes, given how to type its selection target and the callee itself. -/
def calleeOf (env : Env) (scope : Scope) (callee : Expr) (targetType ownType : Unit → Ty) : Callee :=
  match callee with
  | .ident name => if scope.contains name then .value (scope.typeOf name).unwrap else namedCallee env name
  | .select target member =>
    match packageOf? env scope target.val with
    | some package => namedCallee env (package ++ "." ++ member.val)
    | none => memberCallee env (targetType ()).unwrap member.val
  | _ => .value (ownType ())

/-! ## Results -/

/-- The result of a generic callee at the type arguments of the call. -/
def genericResult (typeParams : List String) (params : List Ty) (result : Ty) (args : List (Option ArgTyping))
    (explicit : List Ty) (expected : Option Ty) : Ty :=
  match resolveTypeArgs typeParams params args explicit (expected.map (result, ·)) with
  | some typeArgs => result.subst (.ofParams typeParams typeArgs)
  | none => .nil

def constructedType (env : Env) (e : TypeEntry) (args : List (NamedArg ArgTyping)) (explicit : List Ty)
    (expected : Option Ty) (span : Span) : Ty :=
  let slots := match arrange e.fields args span with
    | .ok slots => slots
    | .error _ => byPosition args
  match resolveTypeArgs e.typeParams e.fieldTypes slots explicit
      (expected.map (e.selfType (env.qualifier e.package), ·)) with
  | some typeArgs => (env.typeRef e).apply typeArgs
  | none => .nil

/-- The type of a call; `nil` when it cannot be determined. -/
def callResult (env : Env) (callee : Callee) (explicit : List Ty) (args : List (NamedArg ArgTyping))
    (expected : Option Ty) (span : Span) : Ty :=
  match callee with
  | .function f => genericResult f.typeParams f.params f.result (byPosition args) explicit expected
  | .constructor e => constructedType env e args explicit expected span
  | .companion e =>
    match e.method? "Apply" with
    | some m => genericResult e.typeParams m.params m.result (byPosition args) explicit expected
    | none => .nil
  | .method _ _ _ m => genericResult m.typeParams m.params m.result (byPosition args) explicit expected
  | .copy receiver _ => receiver
  | .conversion ty => ty
  | .value (.func _ results) => results.headD .void
  | .value _ => .nil
  | .unknown => .nil

end Lowering
