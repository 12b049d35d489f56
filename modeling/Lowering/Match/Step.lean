/-
  Match.Step — a pattern as a list of steps.

  The steps test and take apart a subject in the order the target program evaluates them. Assembling folds them
  around the body of a clause: conditions next to each other become one conjunction, and bindings the body never
  reads are left out.
-/

import Lowering.Target.Tree

namespace Lowering.Match

open Target (Expr Stmt)

inductive Step where
  /-- `names := value` for temporaries. -/
  | define (names : List String) (value : Expr)
  /-- `name := value` for a binding of the program. -/
  | bind (name : String) (value : Expr)
  /-- What follows only runs when the condition holds. -/
  | check (cond : Expr)
  /-- `name, ok := any(value).(ty)`, then a check of `ok`. The name is a binding of the
      program when `user` is set, else a temporary. -/
  | assert (name : Option String) (user : Bool) (ok : String) (value : Expr) (ty : Ty)
  /-- `_ = value`, which counts as a use. -/
  | touch (value : Expr)

namespace Step

/-- May fail. -/
def isTest : Step → Bool
  | .check _ | .assert _ _ _ _ _ => true
  | _ => false

/-- One step around statements; the flag says that they are a conditional made by a check. -/
def wrap (used : String → Bool) (step : Step) (rest : List Stmt × Bool) : List Stmt × Bool :=
  match step with
  | .define names value => (.define names [value] :: rest.1, false)
  | .bind name value => if used name then (.define1 name value :: rest.1, false) else rest
  | .touch value => (.discard value :: rest.1, false)
  | .check cond =>
    match rest with
    | ([.ifElse inner thenBody els], true) => ([.ifElse (.binary .and cond inner) thenBody els], true)
    | (body, _) => ([.guarded cond body], true)
  | .assert name user ok value ty =>
    let target := match name with
      | some name => if !user || used name then name else "_"
      | none => "_"
    ([.define [target, ok] [.typeAssert (.apply (.ident "any") [value]) ty], .guarded (.ident ok) rest.1], false)

end Step

/-- The steps of a pattern and the names it binds, in order, with their types. -/
structure CompiledPattern where
  steps : List Step
  bindings : List (String × Ty)

namespace CompiledPattern

def guard (p : CompiledPattern) (cond : Expr) : CompiledPattern := { p with steps := p.steps ++ [.check cond] }

/-- Matches every value. -/
def isUnconditional (p : CompiledPattern) : Bool := !p.steps.any Step.isTest

/-- The body under the steps; bindings that are not used are left out. -/
def assemble (p : CompiledPattern) (used : String → Bool) (body : List Stmt) : List Stmt :=
  (p.steps.foldr (Step.wrap used) (body, false)).1

end CompiledPattern

end Lowering.Match
