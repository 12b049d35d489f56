/-
  Lower.Piece — a source expression, ready to be lowered in any position.

  In value position a construct that needs statements becomes a function literal called on the spot; in tail
  position it returns its value; in effect position it runs for its effect; as the body of a function a block
  needs no braces of its own.
-/

import Lowering.Lower.State

namespace Lowering

structure Piece where
  source : Located Source.Expr
  /-- In value position, where the context may expect a type. -/
  value : Option Ty → Lower Target.Expr
  /-- In tail position of a function with the given result. -/
  tail : Ty → Lower (List Target.Stmt)
  /-- In effect position. -/
  effect : Lower (List Target.Stmt)
  /-- As the whole body of a function with the given result. -/
  body : Ty → Lower (List Target.Stmt)
  parts : List Piece

structure ArgPiece where
  name : Option (Located String)
  value : Piece

structure ClausePiece where
  source : Source.Clause
  guard : Option Piece
  body : Piece

structure StmtPiece where
  source : Source.Stmt
  /-- Lowers the statement, given the statements after it in its block. -/
  run : (later : List Source.Stmt) → Lower (List Target.Stmt)
  expr : Option Piece

inductive Position where
  /-- Control goes on after it. -/
  | effect
  | tail (result : Ty)

namespace Lower

/-- Evaluates a value and drops it. -/
def discard : Target.Expr → Target.Stmt
  | .call callee typeArgs args => .expr (.call callee typeArgs args)
  | other => .discard other

/-- A call of the builtin `panic`, which never returns. -/
def isPanic : Source.Expr → Bool
  | .call ⟨.ident name, _⟩ _ _ => name == "panic"
  | _ => false

/-- The type a construct has in value position: as expected, or inferred. -/
def inPlaceType (env : Env) (source : Located Source.Expr) (expected : Option Ty) : Lower Ty :=
  match expected.filter Ty.isConcrete with
  | some ty => pure ty
  | none => typeOf env source

/-- `func() T { … }()` around a construct in tail position. -/
def invokeInPlace (env : Env) (source : Located Source.Expr) (expected : Option Ty)
    (tail : Ty → Lower (List Target.Stmt)) : Lower Target.Expr := do
  let ty ← inPlaceType env source expected
  if ty.isVoid then fail .noValue source.span
  let ty := if ty.isNil then .any else ty
  let body ← withFunction ty true (tail ty)
  pure (.invoked ty.results body)

end Lower

namespace Piece

open Lower

def ofValue (env : Env) (source : Located Source.Expr) (value : Option Ty → Lower Target.Expr)
    (parts : List Piece) : Piece :=
  let span := source.span
  let value expected := nested env span (value expected)
  let effect := nested env span do
    let v ← value none
    pure [discard v]
  let tail (result : Ty) :=
    if result.isVoid then effect
    else nested env span do
      if isPanic source.val then effect
      else
        let v ← value (some result)
        pure [.ret1 v]
  ⟨source, value, tail, effect, tail, parts⟩

def ofStmts (env : Env) (source : Located Source.Expr) (tail : Ty → Lower (List Target.Stmt))
    (effect : Lower (List Target.Stmt)) : Piece :=
  let span := source.span
  let effect := nested env span effect
  let tail (result : Ty) := if result.isVoid then effect else nested env span (tail result)
  ⟨source, fun expected => nested env span (invokeInPlace env source expected tail), tail, effect, tail, []⟩

end Piece

end Lowering
