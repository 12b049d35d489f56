/-
  Chain — a chain of clauses runs the first that matches.

  The meaning of a chain is `firstMatch`: the steps of the clauses are run in order, a clause that fails leaves no
  definition behind, and the first that passes runs its body.
-/

import Lowering.Lower.Match
import Lowering.Proofs.Steps

namespace Lowering.Lower

open Target (Stmt Machine State Run Locals Kept exec execAll execAll_append execAll_cons)
open Match (Tested runSteps)

variable {m : Machine} {st' : State m} {Value Cell : Type} {slot : Target.Slot Value Cell}

/-- A lowered clause: its tests, with the guard, the bindings it reads and its body. -/
structure ClauseCode where
  pattern : Match.CompiledPattern
  used : String → Bool
  body : List Stmt

namespace ClauseCode

def always (c : ClauseCode) : Bool := c.pattern.isUnconditional

def steps (c : ClauseCode) : List Match.Step := c.pattern.kept c.used

def stmts (flag : Option String) (c : ClauseCode) :
    List Stmt := c.pattern.assemble c.used (setFlag flag ++ c.body)

end ClauseCode

def chain (flag : Option String) (codes : List ClauseCode) : List Stmt :=
  codes.flatMap fun c => placeClause flag (c.stmts flag) c.always

/-- The body of the first clause whose steps all pass, or else what comes after the clauses. -/
def firstMatch (flag : Option String) (bound : Nat) (otherwise : State m → Run m) : List ClauseCode → State m → Run m
  | [], st => otherwise st
  | c :: codes, st =>
    match runSteps c.steps st with
    | .passed st' => execAll bound (setFlag flag ++ c.body) st'
    | .failed st' => firstMatch flag bound otherwise codes ⟨st.locals, st'.store⟩
    | .panicked store => some (.panicked store)

theorem chain_cons {flag : Option String} (c : ClauseCode) {codes : List ClauseCode} :
    chain flag (c :: codes) = placeClause flag (c.stmts flag) c.always ++ chain flag codes := by
  simp [chain]

variable {c : ClauseCode} {codes : List ClauseCode} {st : State m} {r : Run m} {flag x : String}

theorem steps_always (h : c.always = true) : c.steps.any Match.Step.isTest = false := by
  have hkept := c.pattern.kept_any_isTest c.used
  rwa [show c.pattern.isUnconditional = true from h] at hkept

theorem firstMatch_passing {flag : Option String}
    (h : ∃ c ∈ codes, ∀ store st', runSteps c.steps ⟨st.locals, store⟩ ≠ .failed st') :
    firstMatch flag bound f codes st = firstMatch flag bound g codes st := by
  obtain ⟨c', hc', hpasses⟩ := h
  induction codes generalizing st with
  | nil => cases hc'
  | cons c codes ih =>
    simp only [firstMatch]
    cases hs : runSteps c.steps st with
    | passed st' | panicked store => rfl
    | failed st' =>
      rcases List.mem_cons.mp hc' with rfl | hc'
      · exact absurd hs (hpasses st.store st')
      · exact ih hc' hpasses

theorem firstMatch_always {flag : Option String} (h : codes.any ClauseCode.always = true) :
    firstMatch flag bound f codes st = firstMatch flag bound g codes st := by
  obtain ⟨c, hc, h⟩ := List.any_eq_true.mp h
  exact firstMatch_passing ⟨c, hc, fun store => Match.runSteps_unconditional (steps_always h) _⟩

/-! ## Clauses that follow one another -/

theorem execAll_placeClause (bound : Nat) (h : c.always = false) (st : State m) :
    execAll bound (placeClause none (c.stmts none) c.always) st =
      ((runSteps c.steps st).finish (execAll bound c.body)).leave st.locals.length := by
  have hblock : ((execAll bound (c.stmts none) st).leave st.locals.length) =
      ((runSteps c.steps st).finish (execAll bound c.body)).leave st.locals.length :=
    c.pattern.execAll_assemble_leave (Nat.le_refl _)
  simp only [placeClause, h, Bool.not_false, Bool.true_and, decide_eq_true_eq]
  split
  · rw [Target.execAll_single, ← hblock]
    simp only [exec]
  · rcases Match.CompiledPattern.assemble_isTest h with ⟨cond, inner, hs⟩ | hlen
    · have hs : c.stmts none = [.guarded cond inner] := hs
      rw [← hblock, hs, Target.execAll_single, Match.exec_guarded_leave]
    · contradiction

theorem finish_failed_leave (hs : st.locals <:+ st'.locals) (f : State m → Run m) :
    (Tested.finish (.failed st') f).leave st.locals.length = some (.normal ⟨st.locals, st'.store⟩) := by
  simp only [Tested.finish, Target.leave_normal, State.leave, Match.leave_of_suffix hs]

/-- From the given locals, control does not go on after the body of the clause. -/
def ClauseCode.Leaves (m : Machine) (bound : Nat) (base : Locals m.Value m.Cell) (c : ClauseCode) : Prop :=
  ∀ (store : m.Store) (st st' : State m), runSteps c.steps ⟨base, store⟩ = .passed st →
    execAll bound c.body st ≠ some (.normal st')

theorem leave_of_not_normal (h : ∀ st, r ≠ some (.normal st)) (n : Nat) : r.leave n = r := by
  rcases r with _ | ⟨st | ⟨vs, store⟩ | store⟩
  · rfl
  · exact absurd rfl (h st)
  · rfl
  · rfl

theorem andThen_of_not_normal (h : ∀ st, r ≠ some (.normal st)) (f : State m → Run m) : r.andThen f = r := by
  rcases r with _ | ⟨st | ⟨vs, store⟩ | store⟩
  · rfl
  · exact absurd rfl (h st)
  · rfl
  · rfl

theorem execAll_chain_leaving (bound : Nat) (ending : List Stmt) (st : State m)
    (hl : ∀ c ∈ codes, c.Leaves m bound st.locals) :
    execAll bound (chain none codes ++ ending) st = firstMatch none bound (execAll bound ending) codes st := by
  induction codes generalizing st with
  | nil => rfl
  | cons c codes ih =>
    have hc := hl c (.head _) st.store
    have hrest : ∀ c ∈ codes, c.Leaves m bound st.locals := fun c hmem => hl c (.tail _ hmem)
    rw [chain_cons, List.append_assoc, execAll_append]
    simp only [firstMatch]
    cases ha : c.always with
    | true =>
      have hstmts : execAll bound (c.stmts none) st = (runSteps c.steps st).finish (execAll bound c.body) :=
        Match.CompiledPattern.execAll_assemble_unconditional bound ha c.used c.body st
      have hplaced : placeClause none (c.stmts none) true = c.stmts none := rfl
      rw [hplaced, hstmts]
      cases hs : runSteps c.steps st with
      | passed st' => exact andThen_of_not_normal (fun st'' => hc st' st'' hs) _
      | failed st' => exact absurd hs (Match.runSteps_unconditional (steps_always ha) st st')
      | panicked store => rfl
    | false =>
      have hplaced := execAll_placeClause bound ha st
      rw [ha] at hplaced
      rw [hplaced]
      cases hs : runSteps c.steps st with
      | passed st' =>
        simp only [Tested.finish]
        rw [leave_of_not_normal (fun st'' => hc st' st'' hs)]
        exact andThen_of_not_normal (fun st'' => hc st' st'' hs) _
      | failed st' =>
        rw [finish_failed_leave (Match.runSteps_suffix (.inr hs)), Target.andThen_normal]
        exact ih ⟨st.locals, st'.store⟩ hrest
      | panicked store => rfl

/-! ## Clauses behind a flag -/

def FlagIs (flag : String) (b : Bool) (st : State m) :
    Prop := st.locals.lookup flag = some (.value (m.bool b))

theorem test_unlessSet (h : FlagIs flag b st) :
    Match.Step.test (.not (.ident flag)) st = if b then .failed st else .passed st := by
  simp only [Match.Step.test, m.eval_not, m.eval_local flag _ st.locals st.store h, Target.Slot.read, Tested.ofEval,
    m.truth_bool]
  cases b <;> rfl

theorem execAll_unlessSet_true {bodies : List (List Stmt)} (h : FlagIs flag true st) :
    execAll bound (bodies.map (unlessSet flag)) st = some (.normal st) := by
  induction bodies with
  | nil => rfl
  | cons body bodies ih =>
    rw [List.map_cons, execAll_cons, unlessSet, Match.exec_guarded, test_unlessSet h]
    exact ih

theorem exec_unlessSet_false {body : List Stmt} (h : FlagIs flag false st) :
    exec bound (unlessSet flag body) st = (execAll bound body st).leave st.locals.length := by
  rw [unlessSet, Match.exec_guarded, test_unlessSet h]
  rfl

theorem lookup_set {l : Locals Value Cell} (h : l.lookup x = some slot) : (l.set x v).lookup x = some (.value v) := by
  induction l with
  | nil => cases h
  | cons e l ih =>
    obtain ⟨y, s⟩ := e
    simp only [Locals.set]
    by_cases hy : y = x
    · simp [hy]
    · rw [List.lookup_cons, beq_false_of_ne (Ne.symm hy)] at h
      simp only [hy, if_false, List.lookup_cons, beq_false_of_ne (Ne.symm hy)]
      exact ih h

theorem set_length (l : Locals Value Cell) : (l.set x v).length = l.length := by
  induction l with
  | nil => rfl
  | cons e l ih =>
    simp only [Locals.set]
    split <;> simp [ih]

theorem set_append (h : newer.lookup x = none) (l : Locals Value Cell) :
    Locals.set x v (newer ++ l) = newer ++ Locals.set x v l := by
  induction newer with
  | nil => rfl
  | cons e newer ih =>
    obtain ⟨y, s⟩ := e
    by_cases hy : y = x
    · simp [hy] at h
    · rw [List.lookup_cons, beq_false_of_ne (Ne.symm hy)] at h
      simp only [List.cons_append, Locals.set, hy, if_false, ih h]

theorem lookup_set_leave {a b : Locals Value Cell} (hab : Kept x a b) (ha : a.lookup x = some slot) :
    ((b.set x v).leave a.length).lookup x = some (.value v) := by
  obtain ⟨newer, rest, rfl, hnew, hrest⟩ := hab
  have hlookup : rest.lookup x = some slot := (Target.forall₂_sameAt_lookup hrest).trans ha
  rw [set_append hnew, hrest.length_eq, ← set_length rest, Locals.leave_append]
  exact lookup_set hlookup

theorem flag_after_body {bound : Nat} (hflag : flag ≠ "_") (hbody : Stmt.anyWrites flag body = false)
    (hset : FlagIs flag false st) (hkept : Kept flag st.locals st'.locals)
    (h : execAll bound (setFlag (some flag) ++ body) st' = some (.normal st'')) :
    FlagIs flag true (st''.leave st.locals.length) := by
  have hlookup : st'.locals.lookup flag = some (.value (m.bool false)) := hkept.lookup.trans hset
  have hassign : exec bound (.assign1 (.ident flag) (.bool true)) st' =
      some (.normal { st' with locals := st'.locals.set flag (m.bool true) }) := by
    simp only [Stmt.assign1, exec, Target.execAssign, Machine.evalAll, m.eval_bool, Run.ofEval, Target.assignTo, hflag,
      if_false, hlookup, Machine.assigned]
  rw [setFlag, List.singleton_append, execAll_cons, hassign, Target.andThen_normal] at h
  have hafter := Target.execAll_kept body _ st'' hbody h
  have hle : st.locals.length ≤ (st'.locals.set flag (m.bool true)).length := by
    obtain ⟨newer, rest, hl, -, hrest⟩ := hkept
    rw [set_length, hl, List.length_append, hrest.length_eq]
    exact Nat.le_add_left _ _
  show (st''.locals.leave st.locals.length).lookup flag = _
  rw [hafter.lookup_leave hle]
  exact lookup_set_leave hkept hset

/-- Neither the steps nor the body of the clause write the flag. -/
structure ClauseCode.Spares (flag : String) (c : ClauseCode) : Prop where
  steps : Match.SparesSteps flag c.pattern.steps
  body : Stmt.anyWrites flag c.body = false

theorem chain_flagged : chain (some flag) codes = (codes.map (ClauseCode.stmts (some flag))).map (unlessSet flag) := by
  induction codes with
  | nil => rfl
  | cons c codes ih => rw [chain_cons, ih]; rfl

theorem execAll_chain_flagged (hflag : flag ≠ "_") (bound : Nat) (closing : Option (List Stmt))
    (hcodes : ∀ c ∈ codes, c.Spares flag) (hset : FlagIs flag false st) :
    execAll bound (chain (some flag) codes ++ (closing.map (unlessSet flag)).toList) st =
      (firstMatch (some flag) bound (execAll bound (closing.getD [])) codes st).leave st.locals.length := by
  induction codes generalizing st with
  | nil =>
    cases closing with
    | none => simp [chain, firstMatch]
    | some body =>
      show execAll bound [unlessSet flag body] st = _
      rw [Target.execAll_single, exec_unlessSet_false hset]
      rfl
  | cons c codes ih =>
    have hc := hcodes c (.head _)
    -- the rest of the chain as bodies behind the flag
    obtain ⟨bodies, hbodies⟩ : ∃ bodies : List (List Stmt),
        chain (some flag) codes ++ (closing.map (unlessSet flag)).toList = bodies.map (unlessSet flag) := by
      refine ⟨codes.map (ClauseCode.stmts (some flag)) ++ closing.toList, ?_⟩
      rw [chain_flagged, List.map_append]
      cases closing <;> rfl
    have hclause : exec bound (unlessSet flag (c.stmts (some flag))) st =
        ((runSteps c.steps st).finish (execAll bound (setFlag (some flag) ++ c.body))).leave st.locals.length := by
      rw [exec_unlessSet_false hset]
      exact c.pattern.execAll_assemble_leave (Nat.le_refl _)
    rw [chain_cons, List.append_assoc]
    simp only [placeClause, List.singleton_append]
    rw [execAll_cons, hclause]
    simp only [firstMatch]
    cases hs : runSteps c.steps st with
    | passed st' =>
      simp only [Tested.finish]
      rcases hr : execAll bound (setFlag (some flag) ++ c.body) st' with _ | ⟨st'' | ⟨vs, store⟩ | store⟩
      · rfl
      · have hkept := Match.runSteps_kept (Match.sparesSteps_kept hflag hc.steps) hs
        have htrue := flag_after_body hflag hc.body hset hkept hr
        rw [Target.leave_normal, Target.andThen_normal, hbodies]
        exact execAll_unlessSet_true htrue
      · rfl
      · rfl
    | failed st' =>
      rw [finish_failed_leave (Match.runSteps_suffix (.inr hs)), Target.andThen_normal]
      exact ih (fun c hmem => hcodes c (.tail _ hmem)) hset
    | panicked store => rfl

end Lowering.Lower
