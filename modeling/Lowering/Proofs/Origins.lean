/-
  Origins — what the functions of the target are made from, and what is left to inference.

  A function of the program becomes one, and so do a lambda and a case function; a block, a conditional or a match
  only where it stands in the place of a value (`ownOrigins`).
-/

import Lowering.Source.Program

namespace Lowering.Source

/-- What a function of the target is made from. -/
structure Origin where
  /-- The receiver comes first. -/
  params : List String
  body : Expr
  /-- Whether there is a result; `none` where that depends on the context. -/
  returns : Option Bool

/-- The origin that an expression is in the place of a value. A block of a single expression is that
    expression. -/
def Expr.ownOrigins : Expr → List Origin
  | .block [⟨.expr ⟨e, _⟩, _⟩] => e.ownOrigins
  | .block stmts => [⟨[], .block stmts, some true⟩]
  | .ifElse cond thenBranch elseBranch => [⟨[], .ifElse cond thenBranch elseBranch, some true⟩]
  | .matchOn subject clauses => [⟨[], .matchOn subject clauses, some true⟩]
  | _ => []

mutual

def Expr.origins : Expr → List Origin
  | .lit _ => []
  | .nil => []
  | .ident _ => []
  | .call ⟨callee, _⟩ _ args => (callee.ownOrigins ++ callee.origins) ++ Arg.originsOf args
  | .select ⟨target, _⟩ _ => target.ownOrigins ++ target.origins
  | .index ⟨target, _⟩ ⟨index, _⟩ => (target.ownOrigins ++ target.origins) ++ (index.ownOrigins ++ index.origins)
  | .binary ⟨left, _⟩ _ ⟨right, _⟩ => (left.ownOrigins ++ left.origins) ++ (right.ownOrigins ++ right.origins)
  | .unary _ ⟨operand, _⟩ => operand.ownOrigins ++ operand.origins
  | .lambda params ⟨body, _⟩ => ⟨params.map (·.name), body, none⟩ :: body.origins
  | .ifElse ⟨cond, _⟩ ⟨thenBranch, _⟩ none => (cond.ownOrigins ++ cond.origins) ++ thenBranch.origins
  | .ifElse ⟨cond, _⟩ ⟨thenBranch, _⟩ (some ⟨elseBranch, _⟩) =>
    (cond.ownOrigins ++ cond.origins) ++ thenBranch.origins ++ elseBranch.origins
  | .matchOn ⟨subject, _⟩ clauses => (subject.ownOrigins ++ subject.origins) ++ Clause.originsOf clauses
  | .tuple elems => Expr.originsOf elems
  | .caseFunction clauses => ⟨[], .matchOn ⟨.nil, .synthetic⟩ clauses, none⟩ :: Clause.originsOf clauses
  | .block stmts => Stmt.originsOf stmts

def Expr.originsOf : List (Located Expr) → List Origin
  | [] => []
  | ⟨e, _⟩ :: es => (e.ownOrigins ++ e.origins) ++ Expr.originsOf es

def Arg.originsOf : List Arg → List Origin
  | [] => []
  | ⟨_, ⟨value, _⟩⟩ :: args => (value.ownOrigins ++ value.origins) ++ Arg.originsOf args

def Clause.origins : Clause → List Origin
  | ⟨_, none, ⟨body, _⟩⟩ => body.origins
  | ⟨_, some ⟨guard, _⟩, ⟨body, _⟩⟩ => (guard.ownOrigins ++ guard.origins) ++ body.origins

def Clause.originsOf : List Clause → List Origin
  | [] => []
  | c :: cs => c.origins ++ Clause.originsOf cs

def Stmt.origins : Stmt → List Origin
  | .val ⟨_, _, _, ⟨value, _⟩⟩ => value.ownOrigins ++ value.origins
  | .assign ⟨target, _⟩ _ ⟨value, _⟩ => (target.ownOrigins ++ target.origins) ++ (value.ownOrigins ++ value.origins)
  | .expr ⟨e, _⟩ => e.origins
  | .ret none => []
  | .ret (some ⟨value, _⟩) => value.origins
  | .loop ⟨cond, _⟩ body => (cond.ownOrigins ++ cond.origins) ++ Stmt.originsOf body

def Stmt.originsOf : List (Located Stmt) → List Origin
  | [] => []
  | ⟨s, _⟩ :: ss => s.origins ++ Stmt.originsOf ss

end

def FuncDecl.paramNames (d : FuncDecl) : List String :=
  d.receiver.toList.map (·.name) ++ d.params.map (·.name.val)

def FuncDecl.origin (d : FuncDecl) : Origin := ⟨d.paramNames, d.body.val, some (!(d.result.getD .void).isVoid)⟩

def Variant.origin (v : Variant) : Origin := ⟨v.fields.map (·.name.val), .nil, some true⟩

def Decl.origins : Decl → List Origin
  | .val d => d.value.val.ownOrigins ++ d.value.val.origins
  | .func d => d.origin :: d.body.val.origins
  | .sealedType d => d.variants.map (·.origin)
  | .struct _ | .typeAlias _ => []

def Program.origins (program : Program) : List Origin := program.decls.flatMap (·.val.origins)

/-! ## Gaps -/

-- A lambda says nothing about its result. Where the context has a type for it, that type decides; everywhere else
-- its type is inferred, with that of its body for the result.

/-- A lambda whose type is inferred. -/
structure Gap where
  params : List LambdaParam
  body : Located Expr

def Expr.ownGaps : Expr → List Gap
  | .lambda params body => [⟨params, body⟩]
  | _ => []

mutual

def Expr.gaps : Expr → List Gap
  | .lit _ => []
  | .nil => []
  | .ident _ => []
  | .call ⟨callee, _⟩ _ args => (callee.ownGaps ++ callee.gaps) ++ Arg.gapsOf args
  | .select ⟨target, _⟩ _ => target.ownGaps ++ target.gaps
  | .index ⟨target, _⟩ ⟨index, _⟩ => (target.ownGaps ++ target.gaps) ++ index.gaps
  | .binary ⟨left, _⟩ _ ⟨right, _⟩ => (left.ownGaps ++ left.gaps) ++ (right.ownGaps ++ right.gaps)
  | .unary _ ⟨operand, _⟩ => operand.ownGaps ++ operand.gaps
  | .lambda _ ⟨body, _⟩ => body.ownGaps ++ body.gaps
  | .ifElse ⟨cond, _⟩ ⟨thenBranch, _⟩ none => cond.gaps ++ thenBranch.gaps
  | .ifElse ⟨cond, _⟩ ⟨thenBranch, _⟩ (some ⟨elseBranch, _⟩) =>
    cond.gaps ++ (thenBranch.ownGaps ++ thenBranch.gaps) ++ (elseBranch.ownGaps ++ elseBranch.gaps)
  | .matchOn ⟨subject, _⟩ clauses => (subject.ownGaps ++ subject.gaps) ++ Clause.gapsOf clauses
  | .tuple elems => Expr.gapsOf elems
  | .caseFunction clauses => Clause.gapsOf clauses
  | .block stmts => Stmt.gapsOf stmts

def Expr.gapsOf : List (Located Expr) → List Gap
  | [] => []
  | ⟨e, _⟩ :: es => (e.ownGaps ++ e.gaps) ++ Expr.gapsOf es

def Arg.gapsOf : List Arg → List Gap
  | [] => []
  | ⟨_, ⟨value, _⟩⟩ :: args => value.gaps ++ Arg.gapsOf args

def Clause.gaps : Clause → List Gap
  | ⟨_, none, ⟨body, _⟩⟩ => body.gaps
  | ⟨_, some ⟨guard, _⟩, ⟨body, _⟩⟩ => guard.gaps ++ body.gaps

def Clause.gapsOf : List Clause → List Gap
  | [] => []
  | c :: cs => c.gaps ++ Clause.gapsOf cs

def Stmt.gaps : Stmt → List Gap
  | .val ⟨_, _, some _, ⟨value, _⟩⟩ => value.gaps
  | .val ⟨_, _, none, ⟨value, _⟩⟩ => value.ownGaps ++ value.gaps
  | .assign ⟨target, _⟩ _ ⟨value, _⟩ => target.gaps ++ value.gaps
  | .expr ⟨e, _⟩ => e.ownGaps ++ e.gaps
  | .ret none => []
  | .ret (some ⟨value, _⟩) => value.gaps
  | .loop ⟨cond, _⟩ body => cond.gaps ++ Stmt.gapsOf body

def Stmt.gapsOf : List (Located Stmt) → List Gap
  | [] => []
  | ⟨s, _⟩ :: ss => s.gaps ++ Stmt.gapsOf ss

end

def Decl.gaps : Decl → List Gap
  | .val ⟨_, _, some _, value⟩ => value.val.gaps
  | .val ⟨_, _, none, value⟩ => value.val.ownGaps ++ value.val.gaps
  | .func d => d.body.val.gaps
  | .struct _ | .sealedType _ | .typeAlias _ => []

def Program.gaps (program : Program) : List Gap := program.decls.flatMap (·.val.gaps)

end Lowering.Source
