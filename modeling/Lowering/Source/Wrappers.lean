/-
  Source.Wrappers — every written type obeys the wrapper rule.

  Types in a tree read from a file were not built by the checked constructors. The walk goes through the whole
  program in the order it is written and reports the first type in which a wrapper holds a wrapper.
-/

import Lowering.Diagnostic
import Lowering.Source.Program

namespace Lowering.Source

def checkTy (span : Span) (ty : Ty) : Checked Unit := Checked.ofWrap span ty.checkWrappers

mutual

def Pattern.checkTypes : Located Pattern → Checked Unit
  | ⟨.typed _ ty, span⟩ => checkTy span ty
  | ⟨.extractor _ typeArgs args, span⟩ => do
    typeArgs.forM (checkTy span)
    Pattern.checkTypesList args
  | ⟨.tuple elems, _⟩ => Pattern.checkTypesList elems
  | ⟨.wildcard, _⟩ | ⟨.ident _, _⟩ | ⟨.literal _, _⟩ | ⟨.rest _, _⟩ => pure ()

def Pattern.checkTypesList : List (Located Pattern) → Checked Unit
  | [] => pure ()
  | p :: ps => do
    Pattern.checkTypes p
    Pattern.checkTypesList ps

end

mutual

def Expr.checkTypes : Located Expr → Checked Unit
  | ⟨.lit _, _⟩ | ⟨.nil, _⟩ | ⟨.ident _, _⟩ => pure ()
  | ⟨.call callee typeArgs args, span⟩ => do
    typeArgs.forM (checkTy span)
    Expr.checkTypes callee
    Arg.checkTypesList args
  | ⟨.select target _, _⟩ => Expr.checkTypes target
  | ⟨.index target index, _⟩ => do
    Expr.checkTypes target
    Expr.checkTypes index
  | ⟨.binary left _ right, _⟩ => do
    Expr.checkTypes left
    Expr.checkTypes right
  | ⟨.unary _ operand, _⟩ => Expr.checkTypes operand
  | ⟨.lambda params body, span⟩ => do
    (params.filterMap (·.ty)).forM (checkTy span)
    Expr.checkTypes body
  | ⟨.ifElse cond thenBranch none, _⟩ => do
    Expr.checkTypes cond
    Expr.checkTypes thenBranch
  | ⟨.ifElse cond thenBranch (some elseBranch), _⟩ => do
    Expr.checkTypes cond
    Expr.checkTypes thenBranch
    Expr.checkTypes elseBranch
  | ⟨.matchOn subject clauses, _⟩ => do
    Expr.checkTypes subject
    Clause.checkTypesList clauses
  | ⟨.tuple elems, _⟩ => Expr.checkTypesList elems
  | ⟨.caseFunction clauses, _⟩ => Clause.checkTypesList clauses
  | ⟨.block stmts, _⟩ => Stmt.checkTypesList stmts

def Expr.checkTypesList : List (Located Expr) → Checked Unit
  | [] => pure ()
  | e :: es => do
    Expr.checkTypes e
    Expr.checkTypesList es

def Arg.checkTypesList : List Arg → Checked Unit
  | [] => pure ()
  | ⟨_, value⟩ :: args => do
    Expr.checkTypes value
    Arg.checkTypesList args

def Clause.checkTypes : Clause → Checked Unit
  | ⟨pattern, none, body⟩ => do
    Pattern.checkTypes pattern
    Expr.checkTypes body
  | ⟨pattern, some guard, body⟩ => do
    Pattern.checkTypes pattern
    Expr.checkTypes guard
    Expr.checkTypes body

def Clause.checkTypesList : List Clause → Checked Unit
  | [] => pure ()
  | c :: cs => do
    Clause.checkTypes c
    Clause.checkTypesList cs

def ValDecl.checkTypes : ValDecl → Checked Unit
  | ⟨_, _, none, value⟩ => Expr.checkTypes value
  | ⟨name, _, some ty, value⟩ => do
    checkTy name.span ty
    Expr.checkTypes value

def Stmt.checkTypes : Located Stmt → Checked Unit
  | ⟨.val decl, _⟩ => ValDecl.checkTypes decl
  | ⟨.assign target _ value, _⟩ => do
    Expr.checkTypes target
    Expr.checkTypes value
  | ⟨.expr e, _⟩ => Expr.checkTypes e
  | ⟨.ret none, _⟩ => pure ()
  | ⟨.ret (some value), _⟩ => Expr.checkTypes value
  | ⟨.loop cond body, _⟩ => do
    Expr.checkTypes cond
    Stmt.checkTypesList body

def Stmt.checkTypesList : List (Located Stmt) → Checked Unit
  | [] => pure ()
  | s :: ss => do
    Stmt.checkTypes s
    Stmt.checkTypesList ss

end

def TypeParam.checkTypes (span : Span) (params : List TypeParam) : Checked Unit :=
  (params.filterMap (·.constraint)).forM (checkTy span)

def StructField.checkTypes (fields : List StructField) : Checked Unit :=
  fields.forM fun f => checkTy f.name.span f.ty

def Decl.checkTypes : Located Decl → Checked Unit
  | ⟨.val decl, _⟩ => decl.checkTypes
  | ⟨.func decl, _⟩ => do
    TypeParam.checkTypes decl.span decl.typeParams
    decl.receiver.forM fun r => checkTy decl.span r.ty
    decl.params.forM fun p => checkTy p.name.span p.ty
    decl.result.forM (checkTy decl.span)
    Expr.checkTypes decl.body
  | ⟨.struct decl, _⟩ => do
    TypeParam.checkTypes decl.span decl.typeParams
    StructField.checkTypes decl.fields
  | ⟨.sealedType decl, _⟩ => do
    TypeParam.checkTypes decl.span decl.typeParams
    decl.variants.forM fun v => StructField.checkTypes v.fields
  | ⟨.typeAlias decl, span⟩ => do
    TypeParam.checkTypes span decl.typeParams
    checkTy decl.name.span decl.ty

def Program.checkTypes (program : Program) : Checked Unit := program.decls.forM Decl.checkTypes

end Lowering.Source
