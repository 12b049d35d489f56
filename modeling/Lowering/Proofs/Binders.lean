/-
  Binders — the names a source tree binds.

  Patterns, value declarations and lambda parameters bind names; `binds` asks whether one of them, anywhere
  inside, binds a given name.
-/

import Lowering.Source.Expr

namespace Lowering.Source

mutual

def Pattern.binds (x : String) : Pattern → Bool
  | .wildcard => false
  | .ident name => name == x
  | .literal _ => false
  | .typed name _ => name == x
  | .extractor _ _ args => Pattern.anyBinds x args
  | .tuple elems => Pattern.anyBinds x elems
  | .rest name => name == some x

def Pattern.anyBinds (x : String) : List (Located Pattern) → Bool
  | [] => false
  | ⟨p, _⟩ :: ps => p.binds x || Pattern.anyBinds x ps

end

mutual

def Expr.binds (x : String) : Expr → Bool
  | .lit _ => false
  | .nil => false
  | .ident _ => false
  | .call ⟨callee, _⟩ _ args => callee.binds x || Arg.anyBinds x args
  | .select ⟨target, _⟩ _ => target.binds x
  | .index ⟨target, _⟩ ⟨index, _⟩ => target.binds x || index.binds x
  | .binary ⟨left, _⟩ _ ⟨right, _⟩ => left.binds x || right.binds x
  | .unary _ ⟨operand, _⟩ => operand.binds x
  | .lambda params ⟨body, _⟩ => params.any (·.name == x) || body.binds x
  | .ifElse ⟨cond, _⟩ ⟨thenBranch, _⟩ none => cond.binds x || thenBranch.binds x
  | .ifElse ⟨cond, _⟩ ⟨thenBranch, _⟩ (some ⟨elseBranch, _⟩) =>
    cond.binds x || thenBranch.binds x || elseBranch.binds x
  | .matchOn ⟨subject, _⟩ clauses => subject.binds x || Clause.anyBinds x clauses
  | .tuple elems => Expr.anyBinds x elems
  | .caseFunction clauses => Clause.anyBinds x clauses
  | .block stmts => Stmt.anyBinds x stmts

def Expr.anyBinds (x : String) : List (Located Expr) → Bool
  | [] => false
  | ⟨e, _⟩ :: es => e.binds x || Expr.anyBinds x es

def Arg.anyBinds (x : String) : List Arg → Bool
  | [] => false
  | ⟨_, ⟨value, _⟩⟩ :: args => value.binds x || Arg.anyBinds x args

def Clause.binds (x : String) : Clause → Bool
  | ⟨⟨pattern, _⟩, none, ⟨body, _⟩⟩ => pattern.binds x || body.binds x
  | ⟨⟨pattern, _⟩, some ⟨guard, _⟩, ⟨body, _⟩⟩ => pattern.binds x || guard.binds x || body.binds x

def Clause.anyBinds (x : String) : List Clause → Bool
  | [] => false
  | c :: cs => c.binds x || Clause.anyBinds x cs

def Stmt.binds (x : String) : Stmt → Bool
  | .val ⟨name, _, _, ⟨value, _⟩⟩ => name.val == x || value.binds x
  | .assign ⟨target, _⟩ _ ⟨value, _⟩ => target.binds x || value.binds x
  | .expr ⟨e, _⟩ => e.binds x
  | .ret none => false
  | .ret (some ⟨value, _⟩) => value.binds x
  | .loop ⟨cond, _⟩ body => cond.binds x || Stmt.anyBinds x body

def Stmt.anyBinds (x : String) : List (Located Stmt) → Bool
  | [] => false
  | ⟨s, _⟩ :: ss => s.binds x || Stmt.anyBinds x ss

end

theorem Clause.binds_false {c : Clause} (h : c.binds x = false) :
    c.pattern.val.binds x = false ∧ c.body.val.binds x = false := by
  obtain ⟨⟨pattern, _⟩, guard, ⟨body, _⟩⟩ := c
  cases guard with
  | none => simpa [Clause.binds] using h
  | some guard =>
    simp only [Clause.binds, Bool.or_eq_false_iff] at h
    exact ⟨h.1.1, h.2⟩

end Lowering.Source
