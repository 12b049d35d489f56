/-
  Source.Expr — expressions and statements of the source.

  `references` asks whether a name occurs as an identifier; it ignores shadowing, so only a negative answer is
  exact.
-/

import Lowering.Source.Pattern

namespace Lowering.Source

/-- A lambda parameter; its type may come from the context. -/
structure LambdaParam where
  name : String
  ty : Option Ty

mutual

inductive Expr where
  | lit (value : Literal)
  | nil
  /-- A variable, function, type or package. -/
  | ident (name : String)
  /-- `callee[T](args)` -/
  | call (callee : Located Expr) (typeArgs : List Ty) (args : List Arg)
  /-- `target.member` -/
  | select (target : Located Expr) (member : Located String)
  /-- `target[index]` -/
  | index (target index : Located Expr)
  | binary (left : Located Expr) (op : BinaryOp) (right : Located Expr)
  | unary (op : UnaryOp) (operand : Located Expr)
  /-- `(x: T, y) => body` -/
  | lambda (params : List LambdaParam) (body : Located Expr)
  | ifElse (cond thenBranch : Located Expr) (elseBranch : Option (Located Expr))
  /-- `subject match { case … }` -/
  | matchOn (subject : Located Expr) (clauses : List Clause)
  | tuple (elems : List (Located Expr))
  /-- `{ case … }` as a function of one argument. -/
  | caseFunction (clauses : List Clause)
  /-- `{ stmt; …; tail }`; a last expression statement is the value. -/
  | block (stmts : List (Located Stmt))

structure Arg where
  name : Option (Located String)
  value : Located Expr

/-- `case pattern if guard => body` -/
structure Clause where
  pattern : Located Pattern
  guard : Option (Located Expr)
  body : Located Expr

/-- `val name: T = value` or `var name: T = value` -/
structure ValDecl where
  name : Located String
  mutable : Bool
  ty : Option Ty
  value : Located Expr

inductive Stmt where
  | val (decl : ValDecl)
  /-- `target = value` or `target op= value` -/
  | assign (target : Located Expr) (op : Option BinaryOp) (value : Located Expr)
  | expr (e : Located Expr)
  | ret (value : Option (Located Expr))
  | loop (cond : Located Expr) (body : List (Located Stmt))

end

namespace Expr

instance : Inhabited Expr := ⟨.nil⟩

def isLiteral : Expr → Bool
  | .lit _ => true
  | _ => false

def isNumericLiteral : Expr → Bool
  | .lit value => value.isNumeric
  | _ => false

end Expr

mutual

/-- The name occurs as an identifier somewhere inside. -/
def Expr.references (name : String) : Expr → Bool
  | .lit _ => false
  | .nil => false
  | .ident n => n == name
  | .call ⟨callee, _⟩ _ args => callee.references name || Arg.anyReferences name args
  | .select ⟨target, _⟩ _ => target.references name
  | .index ⟨target, _⟩ ⟨index, _⟩ => target.references name || index.references name
  | .binary ⟨left, _⟩ _ ⟨right, _⟩ => left.references name || right.references name
  | .unary _ ⟨operand, _⟩ => operand.references name
  | .lambda _ ⟨body, _⟩ => body.references name
  | .ifElse ⟨cond, _⟩ ⟨thenBranch, _⟩ none => cond.references name || thenBranch.references name
  | .ifElse ⟨cond, _⟩ ⟨thenBranch, _⟩ (some ⟨elseBranch, _⟩) =>
    cond.references name || thenBranch.references name || elseBranch.references name
  | .matchOn ⟨subject, _⟩ clauses => subject.references name || Clause.anyReferences name clauses
  | .tuple elems => Expr.anyReferences name elems
  | .caseFunction clauses => Clause.anyReferences name clauses
  | .block stmts => Stmt.anyReferences name stmts

def Expr.anyReferences (name : String) : List (Located Expr) → Bool
  | [] => false
  | ⟨e, _⟩ :: es => e.references name || Expr.anyReferences name es

def Arg.anyReferences (name : String) : List Arg → Bool
  | [] => false
  | ⟨_, ⟨value, _⟩⟩ :: args => value.references name || Arg.anyReferences name args

/-- In the body or the guard; what a pattern mentions does not count. -/
def Clause.references (name : String) : Clause → Bool
  | ⟨_, none, ⟨body, _⟩⟩ => body.references name
  | ⟨_, some ⟨guard, _⟩, ⟨body, _⟩⟩ => body.references name || guard.references name

def Clause.anyReferences (name : String) : List Clause → Bool
  | [] => false
  | c :: cs => c.references name || Clause.anyReferences name cs

def Stmt.references (name : String) : Stmt → Bool
  | .val ⟨_, _, _, ⟨value, _⟩⟩ => value.references name
  | .assign ⟨target, _⟩ _ ⟨value, _⟩ => target.references name || value.references name
  | .expr ⟨e, _⟩ => e.references name
  | .ret none => false
  | .ret (some ⟨value, _⟩) => value.references name
  | .loop ⟨cond, _⟩ body => cond.references name || Stmt.anyReferences name body

def Stmt.anyReferences (name : String) : List (Located Stmt) → Bool
  | [] => false
  | ⟨s, _⟩ :: ss => s.references name || Stmt.anyReferences name ss

end

end Lowering.Source
