/-
  Crowding — how often a name is declared in one scope.

  The body of a function stands beside its parameters, and the variables of a clause that is sure to match beside
  whatever stands around the match. `spills` counts how often a name is declared beside what stands around an
  expression, `crowd` how often at most in one scope inside.
-/

import Lowering.Proofs.Origins
import Lowering.Proofs.Spared
import Lowering.Proofs.Sure

namespace Lowering.Source

/-! ## Clauses -/

def Clause.declares (x : String) (c : Clause) : Nat := if c.pattern.val.binds x && c.references x then 1 else 0

section

variable (env : Env) (x : String)

mutual

/-- How often the name is declared beside what stands around the expression, which returns its value
    or runs for its effect. -/
def Expr.spills (tail : Bool) : Expr → Nat
  | .matchOn _ clauses => if tail || clauses.length ≤ 1 then Clause.spillsOf tail clauses else 0
  | _ => 0

/-- At most one clause that is sure to match is lowered. -/
def Clause.spillsOf (tail : Bool) : List Clause → Nat
  | [] => 0
  | ⟨pattern, guard, ⟨body, span⟩⟩ :: clauses =>
    let c : Clause := ⟨pattern, guard, ⟨body, span⟩⟩
    max (if c.isSure env then c.declares x + body.spills tail else 0) (Clause.spillsOf tail clauses)

end

/-! ## Statements -/

/-- The same of a statement; only as the last one it may return the value of the block. -/
def Stmt.declares (tail : Bool) : Stmt → Nat
  | .val decl => if decl.name.val = x then 1 else 0
  | .expr e => e.val.spills env x tail
  | .ret (some value) => max (value.val.spills env x false) (value.val.spills env x true)
  | _ => 0

def Stmt.declaresOf (tail : Bool) : List (Located Stmt) → Nat
  | [] => 0
  | [s] => s.val.declares env x tail
  | s :: ss => s.val.declares env x false + Stmt.declaresOf tail ss

mutual

/-- How often at most the name is declared in one scope inside the expression. -/
def Expr.crowd (tail : Bool) : Expr → Nat
  | .ifElse _ ⟨thenBranch, _⟩ none => max (thenBranch.spills env x tail) (thenBranch.crowd tail)
  | .ifElse _ ⟨thenBranch, _⟩ (some ⟨elseBranch, _⟩) =>
    max (max (thenBranch.spills env x tail) (thenBranch.crowd tail))
      (max (elseBranch.spills env x tail) (elseBranch.crowd tail))
  | .matchOn _ clauses => Clause.crowdOf tail clauses
  | .block stmts => max (Stmt.declaresOf env x tail stmts) (Stmt.crowdOf tail stmts)
  | _ => 0

def Clause.crowdOf (tail : Bool) : List Clause → Nat
  | [] => 0
  | ⟨pattern, guard, ⟨body, span⟩⟩ :: clauses =>
    let c : Clause := ⟨pattern, guard, ⟨body, span⟩⟩
    max (max (c.declares x + body.spills env x tail) (body.crowd tail)) (Clause.crowdOf tail clauses)

def Stmt.crowd (tail : Bool) : Stmt → Nat
  | .expr ⟨e, _⟩ => e.crowd tail
  | .ret (some ⟨value, _⟩) => max (value.crowd false) (value.crowd true)
  | .loop _ body => max (Stmt.declaresOf env x false body) (Stmt.crowdOf false body)
  | _ => 0

def Stmt.crowdOf (tail : Bool) : List (Located Stmt) → Nat
  | [] => 0
  | [⟨s, _⟩] => s.crowd tail
  | ⟨s, _⟩ :: ss => max (s.crowd false) (Stmt.crowdOf tail ss)

end

/-! ## Functions -/

def Expr.bodyDeclares (tail : Bool) : Expr → Nat
  | .block stmts => Stmt.declaresOf env x tail stmts
  | e => e.spills env x tail

def Expr.bodyCrowd (tail : Bool) : Expr → Nat
  | .block stmts => Stmt.crowdOf env x tail stmts
  | e => e.crowd env x tail

def Origin.crowd (o : Origin) (tail : Bool) : Nat :=
  max (o.params.count x + o.body.bodyDeclares env x tail) (o.body.bodyCrowd env x tail)

end

/-! ## Names that are not bound -/

variable {env : Env} {x : String} {tail : Bool}

mutual

theorem Expr.spills_of_unbound : ∀ e : Expr, e.binds x = false → e.spills env x tail = 0
  | .matchOn ⟨subject, _⟩ clauses, h => by
    simp only [Expr.binds, Bool.or_eq_false_iff] at h
    simp [Expr.spills, Clause.spillsOf_of_unbound clauses h.2]
  | .lit _, _ | .nil, _ | .ident _, _ | .call .., _ | .select .., _ | .index .., _ | .binary .., _ | .unary .., _
  | .lambda .., _ | .ifElse .., _ | .tuple _, _ | .caseFunction _, _ | .block _, _ => by simp [Expr.spills]

theorem Clause.spillsOf_of_unbound : ∀ cs : List Clause, Clause.anyBinds x cs = false → Clause.spillsOf env x tail cs = 0
  | [], _ => rfl
  | ⟨⟨pattern, _⟩, guard, ⟨body, _⟩⟩ :: cs, h => by
    simp only [Clause.anyBinds, Bool.or_eq_false_iff] at h
    obtain ⟨hpattern, hbody⟩ := Clause.binds_false h.1
    simp_all [Clause.spillsOf, Clause.declares, body.spills_of_unbound hbody, Clause.spillsOf_of_unbound cs h.2]

end

theorem Stmt.declares_of_unbound {s : Stmt} (h : s.binds x = false) : s.declares env x tail = 0 := by
  cases s with
  | val decl => simp_all [Stmt.binds_val, Stmt.declares]
  | expr e => exact e.val.spills_of_unbound h
  | ret value =>
    cases value with
    | none => rfl
    | some value => simp [Stmt.declares, value.val.spills_of_unbound (h : value.val.binds x = false)]
  | _ => rfl

theorem Stmt.declaresOf_of_unbound (ss : List (Located Stmt)) (h : Stmt.anyBinds x ss = false) :
    Stmt.declaresOf env x tail ss = 0 := by
  fun_induction Stmt.declaresOf with
  | case1 => rfl
  | case2 s =>
    simp only [Stmt.anyBinds, Bool.or_false] at h
    exact Stmt.declares_of_unbound h
  | case3 s ss _ ih =>
    simp only [Stmt.anyBinds, Bool.or_eq_false_iff] at h
    rw [Stmt.declares_of_unbound h.1, ih h.2]

mutual

theorem Expr.crowd_of_unbound (tail : Bool) : ∀ e : Expr, e.binds x = false → e.crowd env x tail = 0
  | .ifElse _ ⟨thenBranch, _⟩ none, h => by
    simp only [Expr.binds, Bool.or_eq_false_iff] at h
    simp [Expr.crowd, thenBranch.spills_of_unbound h.2, thenBranch.crowd_of_unbound tail h.2]
  | .ifElse _ ⟨thenBranch, _⟩ (some ⟨elseBranch, _⟩), h => by
    simp only [Expr.binds, Bool.or_eq_false_iff] at h
    simp [Expr.crowd, thenBranch.spills_of_unbound h.1.2, thenBranch.crowd_of_unbound tail h.1.2,
      elseBranch.spills_of_unbound h.2, elseBranch.crowd_of_unbound tail h.2]
  | .matchOn _ clauses, h => by
    simp only [Expr.binds, Bool.or_eq_false_iff] at h
    simp [Expr.crowd, Clause.crowdOf_of_unbound tail clauses h.2]
  | .block stmts, h => by
    simp [Expr.crowd, Stmt.declaresOf_of_unbound stmts h, Stmt.crowdOf_of_unbound tail stmts h]
  | .lit _, _ | .nil, _ | .ident _, _ | .call .., _ | .select .., _ | .index .., _ | .binary .., _ | .unary .., _
  | .lambda .., _ | .tuple _, _ | .caseFunction _, _ => by simp [Expr.crowd]

theorem Clause.crowdOf_of_unbound (tail : Bool) :
    ∀ cs : List Clause, Clause.anyBinds x cs = false → Clause.crowdOf env x tail cs = 0
  | [], _ => rfl
  | ⟨⟨pattern, _⟩, guard, ⟨body, _⟩⟩ :: cs, h => by
    simp only [Clause.anyBinds, Bool.or_eq_false_iff] at h
    obtain ⟨hpattern, hbody⟩ := Clause.binds_false h.1
    simp_all [Clause.crowdOf, Clause.declares, body.spills_of_unbound hbody, body.crowd_of_unbound tail hbody,
      Clause.crowdOf_of_unbound tail cs h.2]

theorem Stmt.crowd_of_unbound (tail : Bool) : ∀ s : Stmt, s.binds x = false → s.crowd env x tail = 0
  | .expr ⟨e, _⟩, h => e.crowd_of_unbound tail h
  | .ret (some ⟨value, _⟩), h => by
    simp [Stmt.crowd, value.crowd_of_unbound false h, value.crowd_of_unbound true h]
  | .loop _ body, h => by
    simp only [Stmt.binds, Bool.or_eq_false_iff] at h
    simp [Stmt.crowd, Stmt.declaresOf_of_unbound body h.2, Stmt.crowdOf_of_unbound false body h.2]
  | .val _, _ | .assign .., _ | .ret none, _ => rfl

theorem Stmt.crowdOf_of_unbound (tail : Bool) :
    ∀ ss : List (Located Stmt), Stmt.anyBinds x ss = false → Stmt.crowdOf env x tail ss = 0
  | [], _ => rfl
  | [⟨s, _⟩], h => s.crowd_of_unbound tail (by simpa [Stmt.anyBinds] using h)
  | ⟨s, _⟩ :: s' :: ss, h => by
    have h := Bool.or_eq_false_iff.mp h
    simp [Stmt.crowdOf, s.crowd_of_unbound false h.1, Stmt.crowdOf_of_unbound tail (s' :: ss) h.2]

end

/-- Whether the name is a parameter or is bound in the body. -/
def Origin.binds (x : String) (o : Origin) : Bool := o.params.contains x || o.body.binds x

theorem Origin.crowd_of_unbound {o : Origin} (h : o.binds x = false) : o.crowd env x tail = 0 := by
  obtain ⟨params, body, returns⟩ := o
  simp only [Origin.binds, Bool.or_eq_false_iff, List.contains_eq_mem, decide_eq_false_iff_not] at h
  rw [Origin.crowd, List.count_eq_zero.mpr h.1]
  cases body with
  | block stmts =>
    simp [Expr.bodyDeclares, Expr.bodyCrowd, Stmt.declaresOf_of_unbound stmts h.2, Stmt.crowdOf_of_unbound tail stmts h.2]
  | _ => simp [Expr.bodyDeclares, Expr.bodyCrowd, Expr.spills_of_unbound _ h.2, Expr.crowd_of_unbound tail _ h.2]

end Lowering.Source
