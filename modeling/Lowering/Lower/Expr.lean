/-
  Lower.Expr — from source expressions to pieces.

  One fold over the source tree: each node is put together from the pieces of its parts by the construction for
  its shape.
-/

import Lowering.Lower.Block
import Lowering.Lower.Call
import Lowering.Lower.Function

namespace Lowering.Lower

open Source (Expr Stmt Clause Arg)

/-- Indexed through its `Get`, not by the target's own indexing. -/
def isIndexedByGet (env : Env) (ty : Ty) : Bool :=
  match ty with
  | .array _ | .map _ _ | .pointer _ => false
  | ty => !ty.isString && !ty.isBuiltin && (env.method? ty "Get").isSome

def lowerIndex (env : Env) (target index : Piece) : Lower Target.Expr := do
  let ty ← typeOf env target.source
  let x ← target.value none
  let i ← index.value none
  pure (if isIndexedByGet env ty then .method x "Get" [i] else .index x i)

def lowerBinary (left : Piece) (op : BinaryOp) (right : Piece) : Lower Target.Expr := do
  let l ← left.value none
  let r ← right.value none
  pure (.binary op l r)

def lowerUnary (op : UnaryOp) (operand : Piece) : Lower Target.Expr := do
  let x ← operand.value none
  pure (.unary op x)

def matchPiece (env : Env) (source : Located Expr) (subject : Piece) (clauses : List ClausePiece) : Piece :=
  .ofStmts env source (fun result => lowerMatch env subject clauses (.tail result) source.span)
    (lowerMatch env subject clauses .effect source.span)

mutual

def piece (env : Env) : Located Expr → Piece
  | ⟨.lit value, span⟩ => .ofValue env ⟨.lit value, span⟩ (fun _ => pure (.lit value)) []
  | ⟨.nil, span⟩ => .ofValue env ⟨.nil, span⟩ (fun _ => pure .nil) []
  | ⟨.ident name, span⟩ => identPiece env name span
  | ⟨.call callee typeArgs args, span⟩ =>
    let callee' := piece env callee
    let args' := argPieces env args
    .ofValue env ⟨.call callee typeArgs args, span⟩
      (fun expected => lowerCall env callee' typeArgs args' expected span) []
  | ⟨.select target member, span⟩ =>
    let target' := piece env target
    .ofValue env ⟨.select target member, span⟩ (fun _ => lowerSelect env target' member) [target']
  | ⟨.index target index, span⟩ =>
    let target' := piece env target
    let index' := piece env index
    .ofValue env ⟨.index target index, span⟩ (fun _ => lowerIndex env target' index') [target', index']
  | ⟨.binary left op right, span⟩ =>
    let left' := piece env left
    let right' := piece env right
    .ofValue env ⟨.binary left op right, span⟩ (fun _ => lowerBinary left' op right') []
  | ⟨.unary op operand, span⟩ =>
    let operand' := piece env operand
    .ofValue env ⟨.unary op operand, span⟩ (fun _ => lowerUnary op operand') []
  | ⟨.lambda params body, span⟩ =>
    let body' := piece env body
    .ofValue env ⟨.lambda params body, span⟩ (fun expected => lowerLambda env params body' expected span) []
  | ⟨.ifElse cond thenBranch none, span⟩ =>
    ifPiece env ⟨.ifElse cond thenBranch none, span⟩ (piece env cond) (piece env thenBranch) none
  | ⟨.ifElse cond thenBranch (some elseBranch), span⟩ =>
    ifPiece env ⟨.ifElse cond thenBranch (some elseBranch), span⟩ (piece env cond) (piece env thenBranch)
      (some (piece env elseBranch))
  | ⟨.matchOn subject clauses, span⟩ =>
    matchPiece env ⟨.matchOn subject clauses, span⟩ (piece env subject) (clausePieces env clauses)
  | ⟨.tuple elems, span⟩ =>
    let elems' := exprPieces env elems
    .ofValue env ⟨.tuple elems, span⟩ (fun expected => lowerTuple env elems' expected span) []
  | ⟨.caseFunction clauses, span⟩ =>
    let clauses' := clausePieces env clauses
    .ofValue env ⟨.caseFunction clauses, span⟩ (fun expected => lowerCaseFunction env clauses' expected span) []
  | ⟨.block stmts, span⟩ => blockPiece env ⟨.block stmts, span⟩ (stmtPieces env stmts)

def exprPieces (env : Env) : List (Located Expr) → List Piece
  | [] => []
  | e :: es => piece env e :: exprPieces env es

def argPieces (env : Env) : List Arg → List ArgPiece
  | [] => []
  | ⟨name, value⟩ :: args => ⟨name, piece env value⟩ :: argPieces env args

def clausePiece (env : Env) : Clause → ClausePiece
  | ⟨pattern, none, body⟩ => ⟨⟨pattern, none, body⟩, none, piece env body⟩
  | ⟨pattern, some guard, body⟩ => ⟨⟨pattern, some guard, body⟩, some (piece env guard), piece env body⟩

def clausePieces (env : Env) : List Clause → List ClausePiece
  | [] => []
  | c :: cs => clausePiece env c :: clausePieces env cs

def stmtPiece (env : Env) : Located Stmt → StmtPiece
  | ⟨.val ⟨name, mutable, ty, value⟩, _⟩ => valStmt env ⟨name, mutable, ty, value⟩ (piece env value)
  | ⟨.assign target op value, span⟩ => assignStmt env (piece env target) op (piece env value) span
  | ⟨.expr e, _⟩ => exprStmt (piece env e)
  | ⟨.ret none, span⟩ => returnStmt none span
  | ⟨.ret (some value), span⟩ => returnStmt (some (piece env value)) span
  | ⟨.loop cond body, span⟩ => loopStmt (piece env cond) (stmtPieces env body) ⟨.loop cond body, span⟩

def stmtPieces (env : Env) : List (Located Stmt) → List StmtPiece
  | [] => []
  | s :: ss => stmtPiece env s :: stmtPieces env ss

end

end Lowering.Lower
