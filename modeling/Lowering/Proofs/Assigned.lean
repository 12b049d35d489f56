/-
  Assigned — what assignments write to.

  An assignment writes to the last component of a path: to a variable, to a field declared `var` or into an array
  or a map. The lowered path is the written one with a `Get()` after each component before the last that is stored
  in the wrapper (`unwraps_place`).
-/

import Lowering.Proofs.FirstMatch
import Lowering.Proofs.Lowered

namespace Lowering

open Lower (unlocated)
open Target (Node Stmt)

/-! ## Paths -/

namespace Source

/-- The path starts at or goes through something that is stored in the wrapper: a binding or a
    field. A call, an `if` and the like are where a path starts. -/
def Expr.crosses (inf : Inference) (scope : Scope) : Expr → Bool
  | .ident name => (scope.find? name).any (·.ty.isWrapper)
  | .select ⟨target, span⟩ member =>
    match packageOf? inf.env scope target with
    | some _ => false
    | none =>
      (inf.env.field? (inf.typeOf scope ⟨target, span⟩).unwrap member.val).any (·.wrapped) || target.crosses inf scope
  | .index ⟨target, _⟩ _ => target.crosses inf scope
  | .block [⟨.expr ⟨e, _⟩, _⟩] => e.crosses inf scope
  | _ => false

/-- Along the path, its lowered form reads out of a wrapper. -/
def Expr.unwraps : Expr → Target.Expr → Bool
  | .ident _, x => x.getReceiver?.isSome
  | .select ⟨target, _⟩ _, .selector x _ => target.unwraps x
  | .select _ _, x => x.getReceiver?.isSome
  | .index ⟨target, _⟩ _, .index x _ => target.unwraps x
  | .index ⟨target, _⟩ _, .call (.selector x _) _ _ => target.unwraps x
  | .block [⟨.expr ⟨e, _⟩, _⟩], x => e.unwraps x
  | _, _ => false

end Source

namespace Lower

variable {env : Env}

variable {name : String} {s s' : LowerState} {span : Span} {x : Target.Expr} {member : Located String} {ty : Ty}
  {target : Located Source.Expr}

/-- The lowered path reads out of a wrapper exactly when the path crosses one. -/
def Unwraps (env : Env) (e : Located Source.Expr) : Prop :=
  ∀ expected s s' x, (piece env e).value expected s = .ok x s' →
    e.val.unwraps x = e.val.crosses ⟨env, s.typeParams⟩ s.scope

theorem Unwraps.gives (h : Unwraps env target) (hx : (piece env target).Gives s x) :
    target.val.unwraps x = target.val.crosses ⟨env, s.typeParams⟩ s.scope := by
  obtain ⟨expected, s1, s2, hs, hx⟩ := hx
  rw [← hs.scope, ← hs.typeParams]
  exact h expected s1 s2 x hx

end Lower

/-! ## Assignments of a file -/

def Source.Program.binds (program : Source.Program) (env : Env) (x : String) : Prop :=
  .binder x ∈ program.items ∨ ∃ n : Nat, x = env.settings.tempStem ++ toString n

/-- The assignment is lowered from one of the program. -/
structure Assigns (program : Source.Program) (env : Env) (target : Located Source.Expr) (place : Target.Expr)
    (s : LowerState) : Prop where
  written : .place target ∈ program.items
  names : ∀ x b, s.scope.find? x = some b → program.binds env x
  lowered : ∃ span ty s', Lower.assignTarget env (Lower.piece env target) span s = .ok (place, ty) s'

variable {env : Env} {n : Node} {program : Source.Program}

end Lowering
