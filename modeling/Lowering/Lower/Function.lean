/-
  Lower.Function — lambdas, case functions and tuples.
-/

import Lowering.Lower.Match
import Lowering.Lower.Names

namespace Lowering.Lower

open Source (LambdaParam)
open Target (Expr Stmt Element)

/-! ## Lambdas -/

/-- Parameter types and results of an expected function type. -/
def expectedSignature : Option Ty → List Ty × Option (List Ty)
  | some (.func params results) => (params, some results)
  | _ => ([], none)

/-- Parameters with their types: annotated, or expected and concrete. -/
def lambdaFields (span : Span) : (params : List LambdaParam) → (expected : List Ty) → Lower (List Target.Field)
  | [], _ => pure []
  | p :: params, expected =>
    match p.ty <|> expected.head?.filter Ty.isConcrete with
    | some ty => do
      let fields ← lambdaFields span params expected.tail
      pure (⟨p.name, ty⟩ :: fields)
    | none => fail (.lambdaParamType p.name) span

/-- The result of a lambda: expected, unless that is not known or a type parameter, or else
    the type of its body. -/
def lambdaResult (env : Env) (expected : Option (List Ty)) (body : Located Source.Expr) : Lower Ty := do
  let inf ← inference env
  let inferred := do
    let ty ← typeOf env body
    pure (if ty.isNil then .any else ty)
  match expected with
  | some [] => pure .void
  | some [single] => if single.isConcrete && !inf.isTypeParam single then pure single else inferred
  | _ => inferred

def lowerLambda (env : Env) (params : List LambdaParam) (body : Piece) (expected : Option Ty) (span : Span) :
    Lower Expr := do
  let (expectedParams, expectedResults) := expectedSignature expected
  let fields ← lambdaFields span params expectedParams
  withScope do
    bindAll (fields.map fun f => (f.name, f.ty))
    let result ← lambdaResult env expectedResults body.source
    let stmts ← withFunction result false (body.body result)
    pure (.funcLit fields result.results stmts)

/-! ## Tuples -/

/-- The type of a tuple element: hinted and concrete, or inferred. -/
def elementType (env : Env) (hint : Option Ty) (elem : Piece) (position : Nat) : Lower Ty := do
  let ty ← match hint.filter Ty.isConcrete with
    | some ty => pure ty
    | none => typeOf env elem.source
  if !ty.isConcrete then fail (.tupleElementType (position + 1)) elem.source.span
  pure ty

def tupleElements (env : Env) (hints : List Ty) : (position : Nat) → List Piece → Lower (List (Ty × Element))
  | _, [] => pure []
  | position, elem :: elems => do
    let ty ← elementType env hints[position]? elem position
    let value ← elem.value (some ty)
    let rest ← tupleElements env hints (position + 1) elems
    pure ((ty, ⟨some (Ty.tupleField position), value⟩) :: rest)

def lowerTuple (env : Env) (elems : List Piece) (expected : Option Ty) (span : Span) : Lower Expr := do
  let settings := env.settings
  if elems.length < settings.leastArity || settings.mostArity < elems.length then
    fail (.tupleArity settings.leastArity settings.mostArity elems.length) span
  let hints := ((expected.filter (·.tupleArity? == some elems.length)).map Ty.args).getD []
  let elements ← tupleElements env hints 0 elems
  pure (.composite (env.tupleType (elements.map (·.1))) (elements.map (·.2)))

/-! ## Case functions -/

def identPiece (env : Env) (name : String) (span : Span) : Piece :=
  .ofValue env ⟨.ident name, span⟩ (fun expected => lowerIdent env name expected span) []

/-- `{ case … }` as a function of one argument that is matched on. -/
def lowerCaseFunction (env : Env) (clauses : List ClausePiece) (expected : Option Ty) (span : Span) :
    Lower Expr := do
  match expected with
  | some (.func [param] results) =>
    let result := results.headD .void
    let arg ← fresh
    let position := if result.isVoid then Position.effect else .tail result
    let body ← withScope do
      bind arg .val param
      withFunction result false (lowerMatch env (identPiece env arg span) clauses position span)
    pure (.funcLit [⟨arg, param⟩] results body)
  | some (.func params _) => fail (.caseFunctionArity params.length) span
  | _ => fail .caseFunctionType span

end Lowering.Lower
