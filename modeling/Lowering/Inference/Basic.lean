/-
  Inference.Basic — types of source expressions.

  Inference never fails: an expression whose type cannot be determined has type `nil`, and it is for lowering to
  decide whether that is an error. A wrapper around a binding or a field is looked through.
-/

import Lowering.Inference.Callee
import Lowering.Match.Agreement
import Lowering.Match.Compile

namespace Lowering

open Source (Expr Stmt Clause Arg LambdaParam Pattern)

/-- Where expressions are typed: what can be looked up, and the enclosing type parameters. -/
structure Inference where
  env : Env
  typeParams : List String

def literalType? : Expr → Option Ty
  | .lit (.int _) => some .int
  | .lit (.float _) => some .float64
  | .lit (.string _) => some .string
  | .lit (.char _) => some (.basic "rune")
  | .lit (.bool _) => some .bool
  | .nil => some .nil
  | _ => none

namespace Inference

def isTypeParam (inf : Inference) (ty : Ty) : Bool := ty.isParam inf.typeParams

/-! ## From the types of the parts -/

def selectType (inf : Inference) (scope : Scope) (target : Expr) (member : String) (targetType : Unit → Ty) : Ty :=
  match packageOf? inf.env scope target with
  | some package => namedFunctionType inf.env (package ++ "." ++ member)
  | none => memberType inf.env (targetType ()).unwrap member

/-- An element of an array or a map, a byte of a string, or what `Get` of one argument returns. -/
def elementType (inf : Inference) (target : Ty) : Ty :=
  match target.unwrap with
  | .array elem => elem
  | .map _ elem => elem
  | ty =>
    if ty.isString then .basic "byte"
    else (((inf.env.methodSignature? ty "Get").filter (·.params.length == 1)).map (·.result)).getD .nil

/-- An untyped numeric literal on the left takes the type of the right operand. -/
def arithmeticType (left right : Expr) (leftType rightType : Ty) : Ty :=
  if left.isNumericLiteral && rightType.isNumeric && !right.isNumericLiteral then rightType
  else if leftType.isNil then rightType else leftType

/-- Parameter types of a lambda: annotated, else expected, else unknown. -/
def lambdaParamTypes (params : List LambdaParam) (expected : List Ty) : List Ty :=
  params.mapIdx fun i p => (p.ty <|> expected[i]?).getD .nil

def lambdaOf (params : List LambdaParam) (expected : List Ty) (scope : Scope) (body : Scope → Ty) : Ty :=
  let types := lambdaParamTypes params expected
  .func types (body (scope.enter.bindAll ((params.map (·.name)).zip types))).results

def valMutability (mutable : Bool) : Mutability := if mutable then .var else .val

def argTyping (e : Expr) (plain : Unit → Ty) (lambda : List Ty → Ty) : ArgTyping :=
  match e with
  | .lambda _ _ => .lambda lambda
  | .caseFunction _ => .caseFunction
  | _ => .plain plain

/-- The type of a match from those of its clauses. -/
def matchResult (inf : Inference) (declared : Option Ty) (clauses : List Ty) : Ty :=
  if !clauses.isEmpty && clauses.all Ty.isVoid then .void
  else (Match.reference? inf.typeParams declared clauses).getD .any

def clauseScope (inf : Inference) (scope : Scope) (subject : Ty) (p : Located Pattern) : Scope :=
  scope.enter.bindAll (Match.bindingTypes inf.env p subject)

/-! ## Expressions -/

mutual

def typeOf (inf : Inference) (scope : Scope) : Located Expr → Ty
  | ⟨.lit value, _⟩ => (literalType? (.lit value)).getD .nil
  | ⟨.nil, _⟩ => .nil
  | ⟨.ident name, _⟩ => identType inf.env scope name
  | ⟨.call callee typeArgs args, _⟩ =>
    callResult inf.env
      (calleeOf inf.env scope callee.val (fun _ => inf.targetTypeOf scope callee) (fun _ => inf.typeOf scope callee))
      typeArgs (inf.argTypings scope args) none callee.span
  | ⟨.select target member, _⟩ => inf.selectType scope target.val member.val (fun _ => inf.typeOf scope target)
  | ⟨.index target _, _⟩ => inf.elementType (inf.typeOf scope target)
  | ⟨.binary left op right, _⟩ =>
    if op.isComparison || op.isLogical then .bool
    else arithmeticType left.val right.val (inf.typeOf scope left) (inf.typeOf scope right)
  | ⟨.unary op operand, _⟩ =>
    match op with
    | .not => .bool
    | _ => inf.typeOf scope operand
  | ⟨.lambda params body, _⟩ => lambdaOf params [] scope fun scope => inf.typeOf scope body
  | ⟨.ifElse _ _ none, _⟩ => .void
  | ⟨.ifElse _ thenBranch (some elseBranch), _⟩ =>
    let ty := inf.typeOf scope thenBranch
    if ty.isNil then inf.typeOf scope elseBranch else ty
  | ⟨.matchOn subject clauses, _⟩ =>
    inf.matchResult none (inf.clauseTypes scope (inf.typeOf scope subject) clauses)
  | ⟨.tuple elems, _⟩ => inf.env.tupleType (inf.typesOf scope elems)
  | ⟨.caseFunction _, _⟩ => .nil
  | ⟨.block stmts, _⟩ => inf.stmtsType scope.enter .void stmts

def typesOf (inf : Inference) (scope : Scope) : List (Located Expr) → List Ty
  | [] => []
  | e :: es => inf.typeOf scope e :: inf.typesOf scope es

def targetTypeOf (inf : Inference) (scope : Scope) : Located Expr → Ty
  | ⟨.select target _, _⟩ => inf.typeOf scope target
  | _ => .nil

/-- The type of a lambda whose parameters are expected to have the given types. -/
def lambdaTypeOf (inf : Inference) (scope : Scope) (expected : List Ty) : Located Expr → Ty
  | ⟨.lambda params body, _⟩ => lambdaOf params expected scope fun scope => inf.typeOf scope body
  | _ => .nil

def argTypings (inf : Inference) (scope : Scope) : List Arg → List (NamedArg ArgTyping)
  | [] => []
  | ⟨name, value⟩ :: args =>
    (name, argTyping value.val (fun _ => inf.typeOf scope value) (fun expected => inf.lambdaTypeOf scope expected value))
      :: inf.argTypings scope args

def clauseType (inf : Inference) (scope : Scope) (subject : Ty) : Clause → Ty
  | ⟨pattern, _, body⟩ => inf.typeOf (inf.clauseScope scope subject pattern) body

def clauseTypes (inf : Inference) (scope : Scope) (subject : Ty) : List Clause → List Ty
  | [] => []
  | c :: clauses => inf.clauseType scope subject c :: inf.clauseTypes scope subject clauses

/-- The type of the last statement when it is an expression, `void` otherwise. -/
def stmtsType (inf : Inference) (scope : Scope) (last : Ty) : List (Located Stmt) → Ty
  | [] => last
  | ⟨.val ⟨name, mutable, some ty, _⟩, _⟩ :: stmts =>
    inf.stmtsType (scope.bind name.val (valMutability mutable) ty) .void stmts
  | ⟨.val ⟨name, mutable, none, value⟩, _⟩ :: stmts =>
    inf.stmtsType (scope.bind name.val (valMutability mutable) (inf.typeOf scope value)) .void stmts
  | ⟨.expr e, _⟩ :: stmts => inf.stmtsType scope (inf.typeOf scope e) stmts
  | ⟨.assign _ _ _, _⟩ :: stmts => inf.stmtsType scope .void stmts
  | ⟨.ret _, _⟩ :: stmts => inf.stmtsType scope .void stmts
  | ⟨.loop _ _, _⟩ :: stmts => inf.stmtsType scope .void stmts

end

/-! ## Queries -/

def callee (inf : Inference) (scope : Scope) (e : Located Expr) : Callee :=
  calleeOf inf.env scope e.val (fun _ => inf.targetTypeOf scope e) (fun _ => inf.typeOf scope e)

def callType (inf : Inference) (scope : Scope) (callee : Located Expr) (typeArgs : List Ty) (args : List Arg)
    (expected : Option Ty) : Ty :=
  callResult inf.env (inf.callee scope callee) typeArgs (inf.argTypings scope args) expected callee.span

def lambdaType (inf : Inference) (scope : Scope) (params : List LambdaParam) (body : Located Expr)
    (expected : List Ty) : Ty :=
  lambdaOf params expected scope fun scope => inf.typeOf scope body

def blockType (inf : Inference) (scope : Scope) (stmts : List (Located Stmt)) : Ty :=
  inf.stmtsType scope.enter .void stmts

def matchType (inf : Inference) (scope : Scope) (subject : Located Expr) (clauses : List Clause)
    (declared : Option Ty) : Ty :=
  inf.matchResult declared (inf.clauseTypes scope (inf.typeOf scope subject) clauses)

def argTypingOf (inf : Inference) (scope : Scope) (e : Located Expr) : ArgTyping :=
  argTyping e.val (fun _ => inf.typeOf scope e) (fun expected => inf.lambdaTypeOf scope expected e)

end Inference

end Lowering
