/-
  Steps — assembled steps run like the list of steps.

  A step passes, with what it defined, or fails, or panics.
-/

import Lowering.Match.Step
import Lowering.Proofs.Machine

namespace Lowering.Match

open Target

variable {m : Machine}

inductive Tested (m : Machine) where
  | passed (st : State m)
  | failed (st : State m)
  | panicked (store : m.Store)

namespace Tested

def ofEval {α : Type} (e : Evaluated α m.Store) (next : α → m.Store → Tested m) : Tested m :=
  match e with
  | .value v store => next v store
  | .panic store => .panicked store

def andThen (t : Tested m) (next : State m → Tested m) : Tested m :=
  match t with
  | .passed st => next st
  | t => t

/-- Goes on after a step that passed; where it failed, control goes on behind the steps. -/
def finish (t : Tested m) (next : State m → Run m) : Run m :=
  match t with
  | .passed st => next st
  | .failed st => some (.normal st)
  | .panicked store => some (.panicked store)

end Tested

/-! ## Running steps -/

namespace Step

/-- The step as it is assembled. A binding that is not used is left out. -/
def keep (used : String → Bool) : Step → Option Step
  | .bind name value => if used name then some (.bind name value) else none
  | .assert (some name) true ok value ty =>
      some (.assert (if used name then some name else none) true ok value ty)
  | step => some step

def test (cond : Expr) (st : State m) : Tested m :=
  .ofEval (m.eval cond st.locals st.store) fun v store =>
    if m.truth v then .passed { st with store } else .failed { st with store }

def defining (names : List String) (value : Expr) (st : State m) : Tested m :=
  .ofEval (evalDefine names [value] st) fun locals store => .passed ⟨locals, store⟩

def run : Step → State m → Tested m
  | .define names value, st => defining names value st
  | .bind name value, st => defining [name] value st
  | .touch value, st => .ofEval (m.eval value st.locals st.store) fun _ store => .passed { st with store }
  | .check cond, st => test cond st
  | .assert name _ ok value ty, st =>
    (defining [name.getD "_", ok] (.typeAssert (.apply (.ident "any") [value]) ty) st).andThen (test (.ident ok))

end Step

def runSteps : List Step → State m → Tested m
  | [], st => .passed st
  | step :: steps, st => (step.run st).andThen (runSteps steps)

/-- Steps and then a body; what follows a test is in a block of its own. -/
def runThen (body : State m → Run m) : List Step → State m → Run m
  | [], st => body st
  | step :: steps, st =>
    (step.run st).finish fun st =>
      if step.isTest then (runThen body steps st).leave st.locals.length else runThen body steps st

/-! ## Steps as statements -/

theorem exec_define1 {bound : Nat} {names : List String} {value : Expr} {st : State m} {next : State m → Run m} :
    (exec bound (.define names [value]) st).andThen next = (Step.defining names value st).finish next := by
  simp only [exec, execDefine, Step.defining, ofEval_andThen, andThen_normal]
  cases evalDefine names [value] st <;> rfl

theorem exec_discard (bound : Nat) (value : Expr) (st : State m) (next : State m → Run m) :
    (exec bound (.discard value) st).andThen next = ((Step.touch value).run st).finish next := by
  simp only [Stmt.discard, Stmt.assign1, exec, execAssign, Machine.evalAll, Step.run, ofEval_andThen]
  cases m.eval value st.locals st.store <;> rfl

theorem exec_guarded (bound : Nat) (cond : Expr) (body : List Stmt) (st : State m) :
    exec bound (.guarded cond body) st =
      (Step.test cond st).finish fun st => (execAll bound body st).leave st.locals.length := by
  simp only [Stmt.guarded, exec, Step.test]
  cases m.eval cond st.locals st.store with
  | panic store => rfl
  | value v store =>
    simp only [Run.ofEval, Tested.ofEval]
    split
    · rfl
    · simp only [execAll_nil, leave_normal, Tested.finish]
      exact congrArg (fun st => some (Outcome.normal st)) (State.leave_length (State.mk st.locals store))

theorem test_and (left right : Expr) (st : State m) :
    Step.test (.binary .and left right) st = (Step.test left st).andThen (Step.test right) := by
  simp only [Step.test, m.eval_and]
  cases m.eval left st.locals st.store with
  | panic store => rfl
  | value v store =>
    simp only [Tested.ofEval]
    cases hv : m.truth v with
    | true => rfl
    | false => simp [hv, Tested.andThen]

/-! ## Assembling -/

theorem finish_andThen (t : Tested m) (f : State m → Tested m) (g : State m → Run m) :
    (t.andThen f).finish g = t.finish fun st => (f st).finish g := by
  cases t <;> rfl

theorem exec_guarded_leave (bound : Nat) (cond : Expr) (body : List Stmt) (st : State m) :
    (exec bound (.guarded cond body) st).leave st.locals.length = exec bound (.guarded cond body) st := by
  simp only [Stmt.guarded, exec, ofEval_leave]
  congr 1
  funext v store
  exact leave_leave _ (Nat.le_refl _)

theorem exec_joined (bound : Nat) (cond inner : Expr) (body : List Stmt) (st : State m) :
    exec bound (.guarded (.binary .and cond inner) body) st =
      (Step.test cond st).finish fun st => (exec bound (.guarded inner body) st).leave st.locals.length := by
  rw [exec_guarded, test_and, finish_andThen]
  congr 1
  funext st
  rw [exec_guarded_leave, exec_guarded]

/-- The kept steps run, and then the body. The flag tells a conditional made by a check. -/
structure Assembled (bound : Nat) (body : List Stmt) (steps : List Step) (result : List Stmt × Bool) : Prop where
  runs : ∀ (m : Machine) (st : State m), execAll bound result.1 st = runThen (execAll bound body) steps st
  joins : result.2 = true → ∃ cond inner, result.1 = [.guarded cond inner]

namespace Assembled

variable {bound : Nat} {body : List Stmt} {steps : List Step} {rest : List Stmt × Bool}

theorem cons {step : Step} (hstep : step.isTest = false)
    (hs : ∀ (m : Machine) (st : State m) (next : State m → Run m),
      (exec bound s st).andThen next = (step.run st).finish next)
    (h : Assembled bound body steps rest) : Assembled bound body (step :: steps) (s :: rest.1, false) := by
  refine ⟨fun m st => ?_, by simp⟩
  rw [execAll_cons, hs, runThen, funext (h.runs m)]
  simp only [hstep, Bool.false_eq_true, if_false]

theorem check (cond : Expr) (h : Assembled bound body steps rest) :
    Assembled bound body (.check cond :: steps) ([.guarded cond rest.1], true) := by
  refine ⟨fun m st => ?_, fun _ => ⟨_, _, rfl⟩⟩
  rw [execAll_single, exec_guarded, runThen]
  simp only [h.runs m, Step.isTest, if_true, Step.run]

theorem join (cond inner : Expr) (then_ : List Stmt) (h : Assembled bound body steps ([.guarded inner then_], true)) :
    Assembled bound body (.check cond :: steps) ([.guarded (.binary .and cond inner) then_], true) := by
  refine ⟨fun m st => ?_, fun _ => ⟨_, _, rfl⟩⟩
  rw [execAll_single, exec_joined, runThen]
  simp only [← h.runs m, execAll_single, Step.isTest, if_true, Step.run]

theorem assert {name : Option String} {user : Bool} {ok : String} {value : Expr} {ty : Ty}
    (h : Assembled bound body steps rest) : Assembled bound body (.assert name user ok value ty :: steps)
      ([.define [name.getD "_", ok] [.typeAssert (.apply (.ident "any") [value]) ty],
        .guarded (.ident ok) rest.1], false) := by
  refine ⟨fun m st => ?_, by simp⟩
  rw [execAll_cons, exec_define1, runThen]
  simp only [Step.isTest, if_true, Step.run, finish_andThen]
  congr 1
  funext st
  rw [execAll_single, exec_guarded]
  simp only [h.runs m]

end Assembled

theorem assembled_wrap (bound : Nat) (body : List Stmt) (used : String → Bool) (steps : List Step) :
    Assembled bound body (steps.filterMap (Step.keep used)) (steps.foldr (Step.wrap used) (body, false)) := by
  induction steps with
  | nil => exact ⟨fun _ _ => rfl, by simp⟩
  | cons step steps ih =>
    rw [List.foldr_cons]
    generalize steps.foldr (Step.wrap used) (body, false) = rest at ih
    cases step with
    | define names value =>
      exact ih.cons rfl fun m st next => exec_define1
    | touch value => exact ih.cons rfl fun m st next => exec_discard bound value st next
    | bind name value =>
      by_cases hused : used name = true
      · simp only [List.filterMap_cons, Step.keep, Step.wrap, hused, if_true]
        exact ih.cons rfl fun m st next => exec_define1
      · simp only [List.filterMap_cons, Step.keep, Step.wrap, hused]
        exact ih
    | check cond =>
      simp only [List.filterMap_cons, Step.keep, Step.wrap]
      split
      · obtain ⟨c, inner, hc⟩ := ih.joins rfl
        cases hc
        exact ih.join cond _ _
      · exact ih.check cond
    | assert name user ok value ty =>
      cases name with
      | none => exact ih.assert
      | some name =>
        cases user with
        | false => exact ih.assert
        | true =>
          simp only [List.filterMap_cons, Step.keep, Step.wrap]
          cases used name with
          | false => exact ih.assert
          | true => exact ih.assert

theorem execAll_assemble (bound : Nat) (p : CompiledPattern) (used : String → Bool) (body : List Stmt) (st : State m) :
    execAll bound (p.assemble used body) st = runThen (execAll bound body) (p.steps.filterMap (Step.keep used)) st :=
  (assembled_wrap bound body used p.steps).runs m st

/-! ## What steps define -/

def Step.names : Step → List String
  | .define names _ => names
  | .bind name _ => [name]
  | .assert name _ ok _ _ => [name.getD "_", ok]
  | _ => []

variable {names : List String} {st st' : State m} {value : Expr} {step : Step} {steps : List Step} {x : String}
  {p : CompiledPattern}

theorem defining_passed (h : Step.defining names value st = .passed st') :
    ∃ vs, st'.locals = defineAll st.locals names vs := by
  simp only [Step.defining, Tested.ofEval] at h
  split at h
  · cases h
    exact evalDefine_eq (by assumption)
  · cases h

theorem defining_not_failed : Step.defining names value st ≠ .failed st' := by
  simp only [Step.defining, Tested.ofEval]
  split <;> exact nofun

def Tested.EndsIn (t : Tested m) (st : State m) : Prop := t = .passed st ∨ t = .failed st

theorem Tested.EndsIn.andThen {t : Tested m} (h : (t.andThen next).EndsIn st') :
    (∃ st, t = .passed st ∧ (next st).EndsIn st') ∨ t = .failed st' := by
  cases t with
  | passed st => exact .inl ⟨st, rfl, h⟩
  | failed st =>
    rcases h with h | h <;> cases h
    exact .inr rfl
  | panicked store => rcases h with h | h <;> cases h

theorem Tested.andThen_passed {t : Tested m} (h : t.andThen next = .passed st') :
    ∃ st, t = .passed st ∧ next st = .passed st' := by
  cases t with
  | passed st => exact ⟨st, rfl, h⟩
  | _ => cases h

theorem test_locals {cond : Expr} (h : (Step.test cond st).EndsIn st') : st'.locals = st.locals := by
  simp only [Step.test, Tested.ofEval] at h
  split at h
  · split at h <;> rcases h with h | h <;> cases h <;> rfl
  · rcases h with h | h <;> cases h

theorem run_locals (h : (step.run st).EndsIn st') : ∃ vs, st'.locals = defineAll st.locals step.names vs := by
  cases step with
  | define | bind => exact h.elim defining_passed fun h => absurd h defining_not_failed
  | check cond => exact ⟨[], test_locals h⟩
  | touch value =>
    simp only [Step.run, Tested.ofEval] at h
    split at h
    · rcases h with h | h <;> cases h
      exact ⟨[], rfl⟩
    · rcases h with h | h <;> cases h
  | assert name user ok value ty =>
    rcases h.andThen with ⟨st1, hd, h⟩ | hd
    · obtain ⟨vs, hvs⟩ := defining_passed hd
      exact ⟨vs, (test_locals h).trans hvs⟩
    · exact absurd hd defining_not_failed

theorem defineAll_suffix (values : List m.Value) (l : Locals m.Value m.Cell) : l <:+ defineAll l names values := by
  unfold defineAll
  generalize names.zip values = pairs
  induction pairs generalizing l with
  | nil => exact List.suffix_refl l
  | cons p pairs ih =>
    refine List.IsSuffix.trans ?_ (ih (l.define p.1 (.value p.2)))
    unfold Locals.define
    split
    · exact List.suffix_refl l
    · exact List.suffix_cons _ l

theorem run_suffix (h : (step.run st).EndsIn st') : st.locals <:+ st'.locals := by
  obtain ⟨vs, hvs⟩ := run_locals h
  rw [hvs]
  exact defineAll_suffix _ _

theorem runSteps_suffix (h : (runSteps steps st).EndsIn st') : st.locals <:+ st'.locals := by
  induction steps generalizing st with
  | nil => rcases h with h | h <;> cases h; exact List.suffix_refl _
  | cons step steps ih =>
    rcases h.andThen with ⟨st1, hs, h⟩ | hs
    · exact (run_suffix (.inl hs)).trans (ih h)
    · exact run_suffix (.inr hs)

theorem runSteps_kept (hx : ∀ step ∈ steps, x ∉ step.names) (h : runSteps steps st = .passed st') :
    Kept x st.locals st'.locals := by
  induction steps generalizing st with
  | nil => cases h; exact Kept.refl x _
  | cons step steps ih =>
    obtain ⟨st1, hs, h⟩ := Tested.andThen_passed h
    obtain ⟨vs, hvs⟩ := run_locals (.inl hs)
    refine Kept.trans ?_ (ih (fun s hmem => hx s (.tail _ hmem)) h)
    rw [hvs]
    exact kept_defineAll (hx step (.head _)) vs _

/-! ## Seen from outside -/

theorem leave_of_suffix {l l' : Locals m.Value m.Cell} (h : l <:+ l') : l'.leave l.length = l := by
  obtain ⟨newer, rfl⟩ := h
  exact Locals.leave_append l

theorem runThen_leave (body : State m → Run m) (steps : List Step) (st : State m)
    (hn : n ≤ st.locals.length) :
    (runThen body steps st).leave n = ((runSteps steps st).finish body).leave n := by
  induction steps generalizing st with
  | nil => rfl
  | cons step steps ih =>
    simp only [runThen, runSteps, finish_andThen]
    cases hs : step.run st with
    | passed st1 =>
      have hle : n ≤ st1.locals.length := Nat.le_trans hn (run_suffix (.inl hs)).length_le
      simp only [Tested.finish]
      split
      · rw [leave_leave _ hle, ih st1 hle]
        rfl
      · rw [ih st1 hle]
        rfl
    | failed st1 | panicked store => rfl

theorem runThen_unconditional {body : State m → Run m} (h : steps.any Step.isTest = false) (st : State m) :
    runThen body steps st = (runSteps steps st).finish body := by
  induction steps generalizing st with
  | nil => rfl
  | cons step steps ih =>
    simp only [List.any_cons, Bool.or_eq_false_iff] at h
    simp only [runThen, runSteps, finish_andThen, h.1, Bool.false_eq_true, if_false]
    congr 1
    funext st
    exact ih h.2 st

theorem runSteps_unconditional (h : steps.any Step.isTest = false) (st st' : State m) :
    runSteps steps st ≠ .failed st' := by
  induction steps generalizing st with
  | nil => exact fun h => by cases h
  | cons step steps ih =>
    simp only [List.any_cons, Bool.or_eq_false_iff] at h
    simp only [runSteps]
    cases hs : step.run st with
    | passed st1 => exact ih h.2 st1
    | panicked store => exact fun h => by cases h
    | failed st1 =>
      cases step with
      | define | bind => exact absurd hs defining_not_failed
      | check | assert => simp [Step.isTest] at h
      | touch value =>
        simp only [Step.run, Tested.ofEval] at hs
        split at hs <;> cases hs

namespace CompiledPattern

def kept (p : CompiledPattern) (used : String → Bool) : List Step := p.steps.filterMap (Step.keep used)

theorem kept_any_isTest (p : CompiledPattern) (used : String → Bool) :
    (p.kept used).any Step.isTest = !p.isUnconditional := by
  simp only [kept, isUnconditional, Bool.not_not]
  induction p.steps with
  | nil => rfl
  | cons step steps ih =>
    have hstep : ((step.keep used).toList).any Step.isTest = step.isTest := by
      unfold Step.keep
      split
      · split <;> rfl
      · rfl
      · simp
    rw [List.filterMap_cons, List.any_cons, ← ih, ← hstep]
    cases step.keep used <;> simp

theorem execAll_assemble_leave {bound : Nat} (p : CompiledPattern) (hn : n ≤ st.locals.length) :
    (execAll bound (p.assemble used body) st).leave n =
      ((runSteps (p.kept used) st).finish (execAll bound body)).leave n := by
  rw [execAll_assemble]
  exact runThen_leave _ _ _ hn

variable {p : CompiledPattern}

theorem execAll_assemble_unconditional (bound : Nat) (hp : p.isUnconditional = true) (used : String → Bool)
    (body : List Stmt) (st : State m) :
    execAll bound (p.assemble used body) st = (runSteps (p.kept used) st).finish (execAll bound body) := by
  rw [execAll_assemble]
  have hkept := p.kept_any_isTest used
  rw [hp] at hkept
  exact runThen_unconditional hkept st

theorem assemble_isTest (hp : p.isUnconditional = false) :
    (∃ cond inner, p.assemble used body = [.guarded cond inner]) ∨ 1 < (p.assemble used body).length := by
  have hp : p.steps.any Step.isTest = true := by simpa only [isUnconditional, Bool.not_eq_false'] using hp
  unfold assemble
  revert hp
  generalize p.steps = steps
  intro hp
  induction steps with
  | nil => cases hp
  | cons step steps ih =>
    have more : ∀ s : Stmt, step.isTest = false →
        1 < (s :: (steps.foldr (Step.wrap used) (body, false)).1).length := by
      intro s hstep
      rw [List.any_cons, hstep, Bool.false_or] at hp
      rcases ih hp with ⟨cond, inner, h⟩ | h
      · simp [h]
      · exact Nat.lt_succ_of_lt h
    cases step with
    | define | touch => exact .inr (more _ rfl)
    | bind name value =>
      simp only [List.foldr_cons, Step.wrap]
      split
      · exact .inr (more _ rfl)
      · exact ih hp
    | check cond =>
      -- the flag is set, so what stands there is a conditional
      refine .inl ((assembled_wrap 0 body used (.check cond :: steps)).joins ?_)
      simp only [List.foldr_cons, Step.wrap]
      split <;> rfl
    | assert name user ok value ty => exact .inr (Nat.lt_succ_self 1)

end CompiledPattern

/-! ## Where the body stands -/

/-- Statements with a place for a body. -/
inductive Nest where
  | body
  | after (s : Stmt) (rest : Nest)
  | under (cond : Expr) (rest : Nest)

def Nest.fill (body : List Stmt) : Nest → List Stmt
  | .body => body
  | .after s rest => s :: rest.fill body
  | .under cond rest => [.guarded cond (rest.fill body)]

theorem foldr_wrap_fill : ∃ (nest : Nest) (flag : Bool),
    (∀ body, steps.foldr (Step.wrap used) (body, false) = (nest.fill body, flag)) ∧
      (flag = true → ∃ cond rest, nest = .under cond rest) := by
  induction steps with
  | nil => exact ⟨.body, false, fun _ => rfl, nofun⟩
  | cons step steps ih =>
    obtain ⟨nest, flag, hnest, hflag⟩ := ih
    simp only [List.foldr_cons, hnest]
    cases step with
    | define names value => exact ⟨.after (.define names [value]) nest, false, fun _ => rfl, nofun⟩
    | touch value => exact ⟨.after (.discard value) nest, false, fun _ => rfl, nofun⟩
    | bind name value =>
      cases hused : used name with
      | true => exact ⟨.after (.define1 name value) nest, false, fun _ => by simp [Step.wrap, hused, Nest.fill], nofun⟩
      | false => exact ⟨nest, flag, fun _ => by simp [Step.wrap, hused], hflag⟩
    | check cond =>
      cases flag with
      | false => exact ⟨.under cond nest, true, fun _ => by simp [Step.wrap, Nest.fill], fun _ => ⟨_, _, rfl⟩⟩
      | true =>
        obtain ⟨inner, rest, rfl⟩ := hflag rfl
        exact ⟨.under (.binary .and cond inner) rest, true, fun _ => rfl, fun _ => ⟨_, _, rfl⟩⟩
    | assert name user ok value ty =>
      exact ⟨.after _ (.under (.ident ok) nest), false, fun _ => rfl, nofun⟩

/-- Assembled steps run like the steps in order, without the bindings that are not used: up to the first that fails,
    where control goes on behind them with the locals from before, or else on to the body. What follows a test is in a
    block of its own, and what stands around the body is the same for every body. -/
theorem CompiledPattern.assemble_runsInOrder (p : CompiledPattern) (used : String → Bool) :
    ∃ nest : Nest, ∀ body, p.assemble used body = nest.fill body ∧
      ∀ (bound : Nat) (m : Machine) (st : State m),
        execAll bound (p.assemble used body) st = runThen (execAll bound body) (p.kept used) st ∧
        (execAll bound (p.assemble used body) st).leave st.locals.length =
          ((runSteps (p.kept used) st).finish (execAll bound body)).leave st.locals.length := by
  obtain ⟨nest, flag, hnest, -⟩ := foldr_wrap_fill
  refine ⟨nest, fun body => ⟨congrArg Prod.fst (hnest body), fun bound m st => ⟨?_, ?_⟩⟩⟩
  · exact execAll_assemble bound p used body st
  · exact p.execAll_assemble_leave (Nat.le_refl _)

/-! ## Names that steps do not write -/

def SparesSteps (x : String) (steps : List Step) : Prop := ∀ step ∈ steps, x ∉ step.names

theorem keep_names (h : step.keep used = some step') (hx : x ∈ step'.names) :
    x ∈ step.names ∨ x = "_" := by
  unfold Step.keep at h
  split at h
  · split at h <;> cases h
    exact .inl hx
  · cases h
    simp only [Step.names, List.mem_cons, List.not_mem_nil, or_false] at hx ⊢
    rcases hx with rfl | rfl
    · split
      · exact .inl (.inl rfl)
      · exact .inr rfl
    · exact .inl (.inr rfl)
  · cases h
    exact .inl hx

theorem sparesSteps_kept (hne : x ≠ "_") (h : SparesSteps x p.steps) : SparesSteps x (p.kept used) := by
  intro step' hmem hx
  obtain ⟨step, hstep, hkeep⟩ := List.mem_filterMap.mp hmem
  rcases keep_names hkeep hx with hx | hx
  · exact h step hstep hx
  · exact hne hx

theorem anyWrites_assemble (hne : x ≠ "_") (h : SparesSteps x p.steps) (hbody : Stmt.anyWrites x body = false) :
    Stmt.anyWrites x (p.assemble used body) = false := by
  unfold CompiledPattern.assemble
  revert h
  generalize p.steps = steps
  intro h
  induction steps with
  | nil => exact hbody
  | cons step steps ih =>
    have hstep := h step (.head _)
    have hrest := ih fun s hs => h s (.tail _ hs)
    rw [List.foldr_cons]
    generalize steps.foldr (Step.wrap used) (body, false) = rest at hrest
    cases step with
    | define names value => simpa [Step.wrap, Step.names, Stmt.anyWrites, Stmt.writes, hrest] using hstep
    | touch value =>
      simp [Step.wrap, Stmt.anyWrites, Stmt.discard, Stmt.assign1, Stmt.writes, Expr.isIdent, hrest, hne.symm]
    | bind name value =>
      simp only [Step.wrap]
      split
      · simpa [Step.names, Stmt.define1, Stmt.anyWrites, Stmt.writes, hrest] using hstep
      · exact hrest
    | check cond =>
      simp only [Step.wrap]
      split
      · simpa [Stmt.anyWrites, Stmt.writes] using hrest
      · simpa [Stmt.anyWrites, Stmt.writes, Stmt.guarded] using hrest
    | assert name user ok value ty =>
      have hok : x ≠ ok := fun heq => hstep (by simp [Step.names, heq])
      have htarget : ∀ target, (target = "_" ∨ name = some target) → x ≠ target := by
        rintro target (rfl | rfl)
        · exact hne
        · exact fun heq => hstep (by simp [Step.names, heq])
      simp only [Step.wrap, Stmt.anyWrites, Stmt.writes, Stmt.guarded, hrest, Bool.or_false, List.contains_cons,
        List.contains_nil, beq_false_of_ne hok]
      refine beq_false_of_ne (htarget _ ?_)
      cases name with
      | none => exact .inl rfl
      | some name =>
        dsimp only
        split
        · exact .inr rfl
        · exact .inl rfl

end Lowering.Match
