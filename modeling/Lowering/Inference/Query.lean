/-
  Inference.Query — questions about types, asked on the scope in use.

  Lowering has one scope, and typing an expression works in it: what the expression binds is bound in a frame that
  is entered for it and left with the answer. A query answers what `Inference.Basic` says of the scope as a value.
-/

import Lowering.Inference.Basic

namespace Lowering

open Source (Expr Stmt Clause Arg LambdaParam Pattern)

abbrev Query := StateM Scope

namespace Query

def inFrame {α : Type} (q : Query α) : Query α := do
  modify Scope.enter
  let a ← q
  modify Scope.leave
  pure a

def declare (name : String) (mutability : Mutability) (ty : Ty) : Query Unit :=
  modify (·.bind name mutability ty)

def declareAll (bindings : List (String × Ty)) : Query Unit := modify (·.bindAll bindings)

end Query

open Query

/-! ## Type arguments -/

inductive ArgQuery where
  | plain (ty : Query Ty)
  | lambda (ty : List Ty → Query Ty)
  | caseFunction

namespace Unifier

def askPlain (u : Unifier) (pair : Ty × ArgQuery) : OptionT Query Unifier := OptionT.mk do
  match pair.2 with
  | .plain ty => return u.unify? pair.1 (← ty)
  | _ => pure (some u)

def askLambda (u : Unifier) (pair : Ty × ArgQuery) : OptionT Query Unifier := OptionT.mk do
  match pair.2 with
  | .lambda ty =>
    let expected := match u.apply pair.1 with
      | .func params _ => params
      | _ => []
    return u.unify? pair.1 (← ty expected)
  | _ => pure (some u)

end Unifier

def askTypeArgs (typeParams : List String) (params : List Ty) (args : List (Option ArgQuery)) (explicit : List Ty)
    (expected : Option (Ty × Ty)) : Query (Option (List Ty)) :=
  if typeParams.isEmpty then pure (some [])
  else if explicit.length == typeParams.length then pure (some explicit)
  else OptionT.run do
    let pairs := (params.zip args).filterMap fun (param, arg) => arg.map (param, ·)
    let u ← pairs.foldlM Unifier.askPlain (.new typeParams)
    let u ← pairs.foldlM Unifier.askLambda u
    let u ← OptionT.mk (pure (u.unifyResult expected))
    OptionT.mk (pure u.resolve)

/-! ## Calls -/

/-- What a callee denotes, given the questions for its selection target and for itself. -/
def askCallee (env : Env) (callee : Expr) (targetType ownType : Query Ty) : Query Callee := do
  match callee with
  | .ident name =>
    let scope ← get
    pure (if scope.contains name then .value (scope.typeOf name).unwrap else namedCallee env name)
  | .select target member =>
    match packageOf? env (← get) target.val with
    | some package => pure (namedCallee env (package ++ "." ++ member.val))
    | none => return memberCallee env (← targetType).unwrap member.val
  | _ => return .value (← ownType)

def askGeneric (typeParams : List String) (params : List Ty) (result : Ty) (args : List (Option ArgQuery))
    (explicit : List Ty) (expected : Option Ty) : Query Ty := do
  match ← askTypeArgs typeParams params args explicit (expected.map (result, ·)) with
  | some typeArgs => pure (result.subst (.ofParams typeParams typeArgs))
  | none => pure .nil

/-- The arguments of a constructor in the order of its fields, or as they stand. -/
def constructorSlots {α : Type} (fields : List String) (args : List (NamedArg α)) (span : Span) : List (Option α) :=
  match arrange fields args span with
  | .ok slots => slots
  | .error _ => byPosition args

def askConstructed (env : Env) (e : TypeEntry) (args : List (NamedArg ArgQuery)) (explicit : List Ty)
    (expected : Option Ty) (span : Span) : Query Ty := do
  match ← askTypeArgs e.typeParams e.fieldTypes (constructorSlots e.fields args span) explicit
      (expected.map (e.selfType (env.qualifier e.package), ·)) with
  | some typeArgs => pure ((env.typeRef e).apply typeArgs)
  | none => pure .nil

def askCall (env : Env) (callee : Callee) (explicit : List Ty) (args : List (NamedArg ArgQuery))
    (expected : Option Ty) (span : Span) : Query Ty :=
  match callee with
  | .function f => askGeneric f.typeParams f.params f.result (byPosition args) explicit expected
  | .constructor e => askConstructed env e args explicit expected span
  | .companion e =>
    match e.method? "Apply" with
    | some m => askGeneric e.typeParams m.params m.result (byPosition args) explicit expected
    | none => pure .nil
  | .method _ _ _ m => askGeneric m.typeParams m.params m.result (byPosition args) explicit expected
  | .copy receiver _ => pure receiver
  | .conversion ty => pure ty
  | .value (.func _ results) => pure (results.headD .void)
  | .value _ => pure .nil
  | .unknown => pure .nil

namespace Inference

/-! ## From the questions for the parts -/

def askSelect (inf : Inference) (target : Expr) (member : String) (targetType : Query Ty) : Query Ty := do
  match packageOf? inf.env (← get) target with
  | some package => pure (namedFunctionType inf.env (package ++ "." ++ member))
  | none => return memberType inf.env (← targetType).unwrap member

def askLambda (params : List LambdaParam) (expected : List Ty) (body : Query Ty) : Query Ty := do
  let types := lambdaParamTypes params expected
  let result ← inFrame do
    declareAll ((params.map (·.name)).zip types)
    body
  pure (.func types result.results)

def argQuery (e : Expr) (plain : Query Ty) (lambda : List Ty → Query Ty) : ArgQuery :=
  match e with
  | .lambda _ _ => .lambda lambda
  | .caseFunction _ => .caseFunction
  | _ => .plain plain

/-! ## Expressions -/

mutual

def ask (inf : Inference) : Located Expr → Query Ty
  | ⟨.lit value, _⟩ => pure ((literalType? (.lit value)).getD .nil)
  | ⟨.nil, _⟩ => pure .nil
  | ⟨.ident name, _⟩ => return identType inf.env (← get) name
  | ⟨.call callee typeArgs args, _⟩ => do
    let called ← askCallee inf.env callee.val (inf.askTarget callee) (inf.ask callee)
    askCall inf.env called typeArgs (inf.argQueries args) none callee.span
  | ⟨.select target member, _⟩ => inf.askSelect target.val member.val (inf.ask target)
  | ⟨.index target _, _⟩ => return inf.elementType (← inf.ask target)
  | ⟨.binary left op right, _⟩ =>
    if op.isComparison || op.isLogical then pure .bool
    else do
      let leftType ← inf.ask left
      let rightType ← inf.ask right
      pure (arithmeticType left.val right.val leftType rightType)
  | ⟨.unary op operand, _⟩ =>
    match op with
    | .not => pure .bool
    | _ => inf.ask operand
  | ⟨.lambda params body, _⟩ => askLambda params [] (inf.ask body)
  | ⟨.ifElse _ _ none, _⟩ => pure .void
  | ⟨.ifElse _ thenBranch (some elseBranch), _⟩ => do
    let ty ← inf.ask thenBranch
    if ty.isNil then inf.ask elseBranch else pure ty
  | ⟨.matchOn subject clauses, _⟩ => do
    let ty ← inf.ask subject
    return inf.matchResult none (← inf.askClauses ty clauses)
  | ⟨.tuple elems, _⟩ => return inf.env.tupleType (← inf.askAll elems)
  | ⟨.caseFunction _, _⟩ => pure .nil
  | ⟨.block stmts, _⟩ => inFrame (inf.askStmts .void stmts)

def askAll (inf : Inference) : List (Located Expr) → Query (List Ty)
  | [] => pure []
  | e :: es => do
    let ty ← inf.ask e
    let types ← inf.askAll es
    pure (ty :: types)

def askTarget (inf : Inference) : Located Expr → Query Ty
  | ⟨.select target _, _⟩ => inf.ask target
  | _ => pure .nil

/-- The type of a lambda whose parameters are expected to have the given types. -/
def askLambdaOf (inf : Inference) (expected : List Ty) : Located Expr → Query Ty
  | ⟨.lambda params body, _⟩ => askLambda params expected (inf.ask body)
  | _ => pure .nil

def argQueries (inf : Inference) : List Arg → List (NamedArg ArgQuery)
  | [] => []
  | ⟨name, value⟩ :: args =>
    (name, argQuery value.val (inf.ask value) (fun expected => inf.askLambdaOf expected value)) :: inf.argQueries args

def askClause (inf : Inference) (subject : Ty) : Clause → Query Ty
  | ⟨pattern, _, body⟩ => inFrame do
    declareAll (Match.bindingTypes inf.env pattern subject)
    inf.ask body

def askClauses (inf : Inference) (subject : Ty) : List Clause → Query (List Ty)
  | [] => pure []
  | c :: clauses => do
    let ty ← inf.askClause subject c
    let types ← inf.askClauses subject clauses
    pure (ty :: types)

/-- Binds the locals on the way; the frame is the caller's. -/
def askStmts (inf : Inference) (last : Ty) : List (Located Stmt) → Query Ty
  | [] => pure last
  | ⟨.val ⟨name, mutable, some ty, _⟩, _⟩ :: stmts => do
    declare name.val (valMutability mutable) ty
    inf.askStmts .void stmts
  | ⟨.val ⟨name, mutable, none, value⟩, _⟩ :: stmts => do
    let ty ← inf.ask value
    declare name.val (valMutability mutable) ty
    inf.askStmts .void stmts
  | ⟨.expr e, _⟩ :: stmts => do
    let ty ← inf.ask e
    inf.askStmts ty stmts
  | ⟨.assign _ _ _, _⟩ :: stmts => inf.askStmts .void stmts
  | ⟨.ret _, _⟩ :: stmts => inf.askStmts .void stmts
  | ⟨.loop _ _, _⟩ :: stmts => inf.askStmts .void stmts

end

/-! ## Other questions -/

def askCalleeOf (inf : Inference) (e : Located Expr) : Query Callee :=
  askCallee inf.env e.val (inf.askTarget e) (inf.ask e)

def askCallType (inf : Inference) (callee : Located Expr) (typeArgs : List Ty) (args : List Arg)
    (expected : Option Ty) : Query Ty := do
  let called ← inf.askCalleeOf callee
  askCall inf.env called typeArgs (inf.argQueries args) expected callee.span

def askLambdaType (inf : Inference) (params : List LambdaParam) (body : Located Expr) (expected : List Ty) : Query Ty :=
  askLambda params expected (inf.ask body)

def askBlockType (inf : Inference) (stmts : List (Located Stmt)) : Query Ty := inFrame (inf.askStmts .void stmts)

def askMatchType (inf : Inference) (subject : Located Expr) (clauses : List Clause) (declared : Option Ty) :
    Query Ty := do
  let ty ← inf.ask subject
  return inf.matchResult declared (← inf.askClauses ty clauses)

/-- How the type of one expression is asked for where it is an argument. -/
def argQueryOf (inf : Inference) (e : Located Expr) : ArgQuery :=
  argQuery e.val (inf.ask e) (fun expected => inf.askLambdaOf expected e)

end Inference

end Lowering
