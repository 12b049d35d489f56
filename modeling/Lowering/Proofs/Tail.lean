/-
  Tail — in tail position control never goes on.

  Statements lowered in tail position of a function with a result end in a `return` or in a call of the builtin
  `panic` on every path, as long as nothing is named `panic`.
-/

import Lowering.Proofs.Spared

namespace Lowering.Target

variable {m : Machine}

/-- A call of `panic`, unless a local hides it, panics. -/
def Machine.Panics (m : Machine) : Prop :=
  ∀ typeArgs args (locals : Locals m.Value m.Cell) store, locals.lookup "panic" = none →
    ∃ store', m.eval (.call (.ident "panic") typeArgs args) locals store = .panic store'

theorem ofEval_not_normal {α : Type} {e : Evaluated α m.Store} {f : α → m.Store → Run m} {st' : State m}
    (h : ∀ v store, f v store ≠ some (.normal st')) : Run.ofEval e f ≠ some (.normal st') := by
  cases e with
  | value v store => exact h v store
  | panic store =>
    intro h
    cases h

theorem leave_not_normal {r : Run m} (h : ∀ st, r ≠ some (.normal st)) (n : Nat) : r.leave n ≠ some (.normal st') := by
  rcases r with _ | ⟨st | ⟨vs, store⟩ | store⟩
  · intro h
    cases h
  · exact absurd rfl (h st)
  · intro h
    cases h
  · intro h
    cases h

theorem rounds_none_not_normal (body : State m → Run m) (st : State m) :
    rounds none body bound st ≠ some (.normal st') := by
  induction bound generalizing st with
  | zero =>
    intro h
    cases h
  | succ bound ih =>
    simp only [rounds]
    rcases (body st).leave st.locals.length with _ | ⟨st1 | ⟨vs, store⟩ | store⟩
    · intro h
      cases h
    · exact ih st1
    · intro h
      cases h
    · intro h
      cases h

mutual

theorem exec_isTerminating (hm : m.Panics) : ∀ (s : Stmt) (st st' : State m), s.isTerminating = true →
    s.writes "panic" = false → st.locals.lookup "panic" = none → exec bound s st ≠ some (.normal st')
  | .ret values, st, st', _, _, _ => by
    simp only [exec]
    exact ofEval_not_normal fun _ _ => nofun
  | .expr (.call (.ident name) typeArgs args), st, st', h, _, hl => by
    have hname : name = "panic" := by simpa [Stmt.isTerminating] using h
    subst hname
    obtain ⟨store', hpanic⟩ := hm typeArgs args st.locals st.store hl
    simp only [exec, hpanic]
    intro h
    cases h
  | .ifElse cond thenBody els, st, st', h, hw, hl => by
    simp only [Stmt.isTerminating, Bool.and_eq_true] at h
    simp only [Stmt.writes, Bool.or_eq_false_iff] at hw
    simp only [exec]
    refine ofEval_not_normal fun v store => leave_not_normal (fun st1 => ?_) _
    split
    · exact execAll_terminates hm thenBody ⟨st.locals, store⟩ st1 h.1.2 hw.1 hl
    · exact execAll_terminates hm els ⟨st.locals, store⟩ st1 h.2 hw.2 hl
  | .loop none body, st, st', _, _, _ => by
    simp only [exec]
    exact rounds_none_not_normal _ st
  | .block body, st, st', h, hw, hl => by
    simp only [Stmt.isTerminating] at h
    simp only [Stmt.writes] at hw
    simp only [exec]
    exact leave_not_normal (fun st1 => execAll_terminates hm body st st1 h hw hl) _

theorem execAll_terminates (hm : m.Panics) : ∀ (l : List Stmt) (st st' : State m), Stmt.terminates l = true →
    Stmt.anyWrites "panic" l = false → st.locals.lookup "panic" = none → execAll bound l st ≠ some (.normal st')
  | [s], st, st', h, hw, hl => by
    simp only [Stmt.terminates] at h
    simp only [Stmt.anyWrites, Bool.or_false] at hw
    rw [execAll_single]
    exact exec_isTerminating hm s st st' h hw hl
  | s :: s' :: rest, st, st', h, hw, hl => by
    simp only [Stmt.terminates] at h
    rw [Stmt.anyWrites, Bool.or_eq_false_iff] at hw
    rw [execAll_cons]
    rcases hs : exec bound s st with _ | ⟨st1 | ⟨vs, store⟩ | store⟩
    · intro h
      cases h
    · have hl1 : st1.locals.lookup "panic" = none :=
        (exec_kept s st st1 hw.1 hs).lookup.trans hl
      exact execAll_terminates hm (s' :: rest) st1 st' h hw.2 hl1
    · intro h
      cases h
    · intro h
      cases h

end

namespace Stmt

variable {l : List Stmt}

theorem terminates_ne_nil (h : terminates l = true) : l ≠ [] := by
  rintro rfl
  simp [terminates] at h

theorem terminates_cons {s : Stmt} (h : terminates l = true) : terminates (s :: l) = true := by
  cases l with
  | nil => exact absurd rfl (terminates_ne_nil h)
  | cons s' l => simpa only [terminates] using h

theorem terminates_append {l' : List Stmt} (h : terminates l' = true) : terminates (l ++ l') = true := by
  induction l with
  | nil => exact h
  | cons s l ih => exact terminates_cons ih

end Stmt

end Lowering.Target

namespace Lowering

open Target (Stmt)

/-- Nothing declared or imported is named `panic`. -/
structure Env.PanicFree (env : Env) : Prop where
  function : env.function? "panic" = none
  type : env.type? "panic" = none

/-- The name `panic` is left to the builtin. -/
def Env.LeavesPanic (env : Env) : Prop := namedCallee env "panic" = .unknown

variable {env : Env}

theorem Env.PanicFree.leaves (h : env.PanicFree) : env.LeavesPanic := by
  simp only [Env.LeavesPanic, namedCallee, h.function, h.type]
  rfl

def Ends (stmts : List Stmt) : Prop := Stmt.terminates stmts = true

namespace Lower

variable {env : Env}

/-! ## Calls of the builtin -/

theorem spared_panic {s : LowerState} (h : s.scope.find? "panic" = none) : Spared "panic" s where
  unbound := h
  temporary n _ := NameSupply.numbered_ne (by decide)
  flag n _ hflag := by
    have := congrArg String.toList hflag
    simp at this

variable {s : LowerState}

theorem callee_panic (henv : env.LeavesPanic) (hs : s.scope.find? "panic" = none) (typeParams : List String)
    (span : Span) : (⟨env, typeParams⟩ : Inference).callee s.scope ⟨.ident "panic", span⟩ = .unknown := by
  simp only [Inference.callee, calleeOf, Scope.contains, hs, Option.isSome_none, Bool.false_eq_true, if_false]
  exact henv

theorem isPanic_iff {e : Source.Expr} (h : isPanic e = true) :
    ∃ span typeArgs args, e = .call ⟨.ident "panic", span⟩ typeArgs args := by
  unfold isPanic at h
  split at h
  · rename_i name span typeArgs args
    obtain rfl : name = "panic" := by simpa using h
    exact ⟨span, typeArgs, args, rfl⟩
  · cases h

theorem panic_gives (henv : env.LeavesPanic) {e : Located Source.Expr} (he : isPanic e.val = true)
    (hs : s.scope.find? "panic" = none) {v : Target.Expr} (hv : (piece env e).Gives s v) :
    ∃ args, v = .call (.ident "panic") [] args := by
  obtain ⟨expected, s1, s2, hframed, hrun⟩ := hv
  obtain ⟨e, span⟩ := e
  obtain ⟨span0, typeArgs, args, rfl⟩ := isPanic_iff he
  obtain ⟨s3, hrun⟩ := nested_ok hrun
  obtain ⟨called, s4, hask, hrun⟩ := bind_ok hrun
  rw [askCalleeOf_run, piece_source, callee_panic henv (by rw [hframed.scope]; exact hs)] at hask
  cases hask
  have hbuiltin : isBuiltin "panic" = true := by decide
  simp only [callUntyped, piece_source, hbuiltin, if_true, pure_bind] at hrun
  obtain ⟨values, s5, -, hrun⟩ := bind_ok hrun
  obtain ⟨lowered, s6, -, hrun⟩ := bind_ok hrun
  exact ⟨lowered, (pure_ok hrun).1⟩

/-! ## Matches -/

def ClauseCode.Ends (c : ClauseCode) : Prop := Lowering.Ends c.body

def ClosedBy (codes : List ClauseCode) : Prop :=
  codes.any ClauseCode.always = true → ∃ init last, codes = init ++ [last] ∧ last.always = true

theorem terminates_assemble {p : Match.CompiledPattern} (hp : p.isUnconditional = true) {used : String → Bool}
    {body : List Stmt} (h : Ends body) : Ends (p.assemble used body) := by
  have hp : p.steps.any Match.Step.isTest = false := by
    simpa only [Match.CompiledPattern.isUnconditional, Bool.not_eq_true'] using hp
  unfold Match.CompiledPattern.assemble
  revert hp
  generalize p.steps = steps
  intro hp
  induction steps with
  | nil => exact h
  | cons step steps ih =>
    rw [List.any_cons, Bool.or_eq_false_iff] at hp
    have hrest := ih hp.2
    cases step with
    | define names value | touch value => exact Stmt.terminates_cons hrest
    | bind name value =>
      simp only [List.foldr_cons, Match.Step.wrap]
      split
      · exact Stmt.terminates_cons hrest
      · exact hrest
    | check cond | assert name user ok value ty => cases hp.1

theorem chain_append (flag : Option String) (codes codes' : List ClauseCode) :
    chain flag (codes ++ codes') = chain flag codes ++ chain flag codes' := by
  simp [chain]

theorem MatchCode.ends {code : MatchCode} (hflag : code.flag = none) (hpanics : code.panics = !code.covered)
    (hlast : ClosedBy code.clauses) (h : ∀ c ∈ code.clauses, c.Ends) : Ends code.stmts := by
  rw [stmts, hpanics, hflag]
  cases hcovered : code.covered with
  | false =>
    exact Stmt.terminates_append (by simp [unreachable, Stmt.terminates, Stmt.isTerminating, Target.Expr.apply])
  | true =>
    obtain ⟨init, last, heq, halways⟩ := hlast hcovered
    have hassembled : Lowering.Ends (last.stmts none) := terminates_assemble halways (h last (by simp [heq]))
    have hlastStmts : Lowering.Ends (chain none [last]) := by simpa [chain, placeClause, halways] using hassembled
    rw [heq, chain_append, ← List.append_assoc, Bool.not_true, if_neg Bool.false_ne_true, List.append_nil]
    exact Stmt.terminates_append hlastStmts

end Lower

/-! ## The source -/

/-- The statements that an expression is lowered to terminate, and so do the bodies of the clauses. -/
def Task.Ends (out : List Stmt) : Task → Prop
  | .value _ _ | .stmts _ | .stmt _ _ => True
  | .clauses _ _ _ _ codes => (∀ c ∈ codes, c.Ends) ∧ Lower.ClosedBy codes
  | _ => Lowering.Ends out

theorem Flow.ends (henv : env.LeavesPanic) {s : LowerState} {tail : Bool} {task : Task} {out : List Stmt}
    {names : NameSupply} (h : Flow env s tail task out names) (htail : tail = true) (hx : Spared "panic" s)
    (hb : task.binds "panic" = false) : task.Ends out := by
  induction h with
  | reached hs _ ih => exact ih htail (hx.framed hs) hb
  | dropped _ hpanic hs hgives _ _ _ =>
    obtain ⟨args, rfl⟩ := Lower.panic_gives henv (hpanic htail) (hx.below hs).unbound hgives
    simp [Task.Ends, Ends, Lower.discard, Stmt.terminates, Stmt.isTerminating]
  | returned => simp [Task.Ends, Ends, Stmt.ret1, Stmt.terminates, Stmt.isTerminating]
  | @ifElse _ _ _ _ _ _ _ _ _ t e _ hs _ _ hs2 _ _ iht ihe =>
    simp only [Task.binds, Source.Expr.binds, Bool.or_eq_false_iff] at hb
    have hthen : Ends t := iht htail (hx.below hs) hb.1.2
    have helse : Ends e := ihe htail ((hx.below hs).framed hs2) hb.2
    have hne : e.isEmpty = false := by simpa using Stmt.terminates_ne_nil helse
    simp only [Ends] at hthen helse
    simp [Task.Ends, Ends, Stmt.terminates, Stmt.isTerminating, hthen, helse, hne]
  | matched hs _ ih =>
    simp only [Task.binds, Source.Expr.binds, Bool.or_eq_false_iff] at hb
    exact ih htail (hx.below hs) hb.2
  | braces hs _ ih =>
    simpa [Task.Ends, Ends, Stmt.terminates, Stmt.isTerminating] using ih htail (hx.below hs) hb
  | bodyExpr _ _ ih => exact ih htail hx hb
  | bodyBlock _ hends _ => exact hends htail
  | @«match» _ _ _ _ _ clauses result _ _ _ hcode _ _ hflag hs2 _ _ ih =>
    have hvoid : result.isVoid = false := by simpa using htail
    rw [Position.ofResult, hvoid] at hcode hflag
    obtain ⟨hbodies, hlast⟩ := ih htail (hx.framed hs2) hb
    exact Lower.MatchCode.ends (pure_ok hflag).1 (Lower.matchCode_panics Lower.clausePieces_guard hcode)
      hlast hbodies
  | noClause => exact ⟨List.forall_mem_nil _, fun h => by cases h⟩
  | @clause _ _ _ _ _ _ _ _ code _ _ codes _ hcode _ _ hs1 _ hlast _ _ ihbody ihrest =>
    simp only [Task.binds, Source.Clause.anyBinds, Bool.or_eq_false_iff] at hb
    obtain ⟨hpattern, hbody⟩ := Source.Clause.binds_false hb.1
    have hends := ihbody htail (hcode.spares (by decide) hx hpattern).2 hbody
    cases halways : code.always with
    | true =>
      cases hlast halways
      exact ⟨List.forall_mem_singleton.mpr hends, fun _ => ⟨[], code, rfl, halways⟩⟩
    | false =>
      obtain ⟨hbodies, hlast⟩ := ihrest halways htail (hx.framed hs1) hb.2
      refine ⟨List.forall_mem_cons.mpr ⟨hends, hbodies⟩, fun hany => ?_⟩
      rw [List.any_cons, halways, Bool.false_or] at hany
      obtain ⟨init, last, heq, hlast⟩ := hlast hany
      exact ⟨code :: init, last, by rw [heq, List.cons_append], hlast⟩
  | ifOnly => cases htail
  | _ => trivial

end Lowering
