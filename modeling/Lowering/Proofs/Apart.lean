/-
  Apart — bindings kept apart from the locals.

  The steps of a pattern define the names the program binds in the very scope in which later steps read the
  subject again. Run *apart*, steps put what the program binds aside, so that only temporaries are defined next to
  what was there before.
-/

import Lowering.Proofs.Steps

namespace Lowering

/-! ## Names that are mentioned -/

namespace Ty

mutual

/-- The name is written somewhere in the type, as the name of a type or of a package. -/
def writes (x : String) : Ty → Bool
  | .basic name => name == x
  | .named package name => (if package.isEmpty then name else package) == x
  | .generic base params => base.writes x || anyWrites x params
  | .array elem => elem.writes x
  | .pointer elem => elem.writes x
  | .map key elem => key.writes x || elem.writes x
  | .func params results => anyWrites x params || anyWrites x results
  | .any => x == "any"
  | .nil | .void => false

def anyWrites (x : String) : List Ty → Bool
  | [] => false
  | t :: ts => t.writes x || anyWrites x ts

end

end Ty

namespace Target

mutual

/-- The name is written somewhere in the expression. Names bound inside count as well. -/
def Expr.mentions (x : String) : Expr → Bool
  | .ident name => name == x
  | .lit _ | .nil => false
  | .type ty => ty.writes x
  | .selector e _ => e.mentions x
  | .call callee typeArgs args => callee.mentions x || Ty.anyWrites x typeArgs || Expr.anyMentions x args
  | .index e i => e.mentions x || i.mentions x
  | .binary _ left right => left.mentions x || right.mentions x
  | .unary _ e => e.mentions x
  | .funcLit params results body =>
    params.any (fun p => p.name == x || p.ty.writes x) || Ty.anyWrites x results || Stmt.anyMentions x body
  | .composite ty elements => ty.writes x || Element.anyMentions x elements
  | .typeAssert e ty => e.mentions x || ty.writes x
  | .paren e => e.mentions x

def Expr.anyMentions (x : String) : List Expr → Bool
  | [] => false
  | e :: es => e.mentions x || Expr.anyMentions x es

def Element.anyMentions (x : String) : List Element → Bool
  | [] => false
  | ⟨_, value⟩ :: es => value.mentions x || Element.anyMentions x es

def Stmt.mentions (x : String) : Stmt → Bool
  | .define names values => names.contains x || Expr.anyMentions x values
  | .var name ty none => name == x || ty.writes x
  | .var name ty (some value) => name == x || ty.writes x || value.mentions x
  | .assign targets _ values => Expr.anyMentions x targets || Expr.anyMentions x values
  | .expr e => e.mentions x
  | .ret values => Expr.anyMentions x values
  | .ifElse cond thenBody els => cond.mentions x || Stmt.anyMentions x thenBody || Stmt.anyMentions x els
  | .loop none body => Stmt.anyMentions x body
  | .loop (some cond) body => cond.mentions x || Stmt.anyMentions x body
  | .block body => Stmt.anyMentions x body

def Stmt.anyMentions (x : String) : List Stmt → Bool
  | [] => false
  | s :: rest => s.mentions x || Stmt.anyMentions x rest

end

/-- The value of an expression depends on no locals but those it mentions. -/
def Machine.Local (m : Machine) : Prop :=
  ∀ (e : Expr) (l l' : Locals m.Value m.Cell) (store : m.Store),
    (∀ x, e.mentions x = true → l.lookup x = l'.lookup x) → m.eval e l store = m.eval e l' store

end Target

namespace Match

open Target

variable {m : Machine}

/-! ## Running apart -/

namespace Step

def binds : Step → List String
  | .bind name _ => [name]
  | .assert (some name) true _ _ _ => [name]
  | _ => []

def temps : Step → List String
  | .define names _ => names
  | .assert (some name) false ok _ _ => [name, ok]
  | .assert _ _ ok _ _ => [ok]
  | _ => []

/-- The name is written in what the step evaluates. -/
def reads (x : String) : Step → Bool
  | .define _ value => value.mentions x
  | .bind _ value => value.mentions x
  | .check cond => cond.mentions x
  | .assert _ _ _ value ty => (Expr.typeAssert (.apply (.ident "any") [value]) ty).mentions x
  | .touch value => value.mentions x

end Step

theorem mem_names {step : Step} (h : x ∈ step.names) :
    x = "_" ∨ x ∈ step.binds ∨ x ∈ step.temps := by
  cases step with
  | assert name user ok value ty =>
    simp only [Step.names, List.mem_cons, List.not_mem_nil, or_false] at h
    rcases name with _ | name <;> cases user <;> simp_all [Step.binds, Step.temps]
  | define names value => exact .inr (.inr h)
  | bind name value => exact .inr (.inl h)
  | check cond | touch value => cases h

def NoCapture (steps : List Step) : Prop := steps.Pairwise fun a b => ∀ x ∈ a.binds, b.reads x = false

/-- What comes of steps whose bindings are put aside. -/
inductive Apart (m : Machine) where
  | passed (st : State m) (bound : List (String × m.Value))
  | failed (st : State m)
  | panicked (store : m.Store)

namespace Apart

def ofTested (bound : List (String × m.Value)) : Tested m → Apart m
  | .passed st => .passed st bound
  | .failed st => .failed st
  | .panicked store => .panicked store

/-- Goes on after a step, with the bindings of both. -/
def andThen (a : Apart m) (next : State m → Apart m) : Apart m :=
  match a with
  | .passed st bound =>
    match next st with
    | .passed st' later => .passed st' (bound ++ later)
    | other => other
  | other => other

end Apart

/-- One step; a binding is put aside instead of being defined. -/
def Step.runApart : Step → State m → Apart m
  | .bind name value, st =>
    match m.eval value st.locals st.store with
    | .value v store => .passed ⟨st.locals, store⟩ [(name, v)]
    | .panic store => .panicked store
  | .assert (some name) true ok value ty, st =>
    match m.eval (.apply (.ident "any") [value]) st.locals st.store with
    | .value v _ => .ofTested [(name, (m.cast v ty).1)] ((Step.assert none true ok value ty).run st)
    | .panic store => .panicked store
  | step, st => .ofTested [] (step.run st)

def runApart : List Step → State m → Apart m
  | [], st => .passed st []
  | step :: steps, st => (step.runApart st).andThen (runApart steps)

theorem runApart_append {a b : List Step} {st : State m} :
    runApart (a ++ b) st = (runApart a st).andThen (runApart b) := by
  induction a generalizing st with
  | nil =>
    simp only [List.nil_append, runApart, Apart.andThen]
    cases runApart b st <;> rfl
  | cons step a ih =>
    simp only [List.cons_append, runApart]
    cases step.runApart st with
    | failed st' | panicked store => rfl
    | passed st' bound =>
      simp only [Apart.andThen, ih]
      cases runApart a st' with
      | failed st'' | panicked store => rfl
      | passed st'' bound' =>
        simp only
        cases runApart b st'' with
        | failed _ | panicked _ => rfl
        | passed _ _ => simp [List.append_assoc]

theorem runSteps_append (a b : List Step) (st : State m) :
    runSteps (a ++ b) st = (runSteps a st).andThen (runSteps b) := by
  induction a generalizing st with
  | nil => rfl
  | cons step a ih =>
    simp only [List.cons_append, runSteps]
    cases step.run st with
    | passed st' => exact ih st'
    | failed st' | panicked store => rfl

/-! ## Side by side -/

/-- The locals of a run that defines the bindings that are used, beside those of the run apart. -/
structure Beside (used : String → Bool) (bound : List (String × m.Value)) (st apart : State m) : Prop where
  store : st.store = apart.store
  others : ∀ x, x ∉ bound.map Prod.fst → st.locals.lookup x = apart.locals.lookup x
  bound : ∀ b ∈ bound, used b.1 = true → b.1 ≠ "_" → st.locals.lookup b.1 = some (.value b.2)

theorem Beside.start (used : String → Bool) {st : State m} : Beside used [] st st := ⟨rfl, fun _ _ => rfl, nofun⟩

theorem lookup_define {Value Cell : Type} (l : Locals Value Cell) (x y : String) (slot : Slot Value Cell) :
    (l.define x slot).lookup y = if x ≠ "_" ∧ y = x then some slot else l.lookup y := by
  unfold Locals.define
  by_cases hx : x = "_"
  · simp [hx]
  · by_cases hy : y = x
    · simp [hx, hy]
    · simp [hx, hy, List.lookup_cons, beq_false_of_ne hy]

namespace Beside

variable {used : String → Bool} {bound : List (String × m.Value)} {st apart : State m}

theorem eval (hm : m.Local) (h : Beside used bound st apart) {e : Expr} (he : ∀ b ∈ bound, e.mentions b.1 = false) :
    m.eval e st.locals st.store = m.eval e apart.locals apart.store := by
  rw [h.store]
  refine hm e _ _ _ fun x hx => h.others x fun hmem => ?_
  obtain ⟨b, hb, rfl⟩ := List.mem_map.mp hmem
  rw [he b hb] at hx
  cases hx

theorem withStore (h : Beside used bound st apart) (store : m.Store) :
    Beside used bound ⟨st.locals, store⟩ ⟨apart.locals, store⟩ := ⟨rfl, h.others, h.bound⟩

variable {x : String}

theorem define (h : Beside used bound st apart) (hx : x ≠ "_" → x ∉ bound.map Prod.fst) (slot : Slot m.Value m.Cell) :
    Beside used bound ⟨st.locals.define x slot, st.store⟩ ⟨apart.locals.define x slot, apart.store⟩ := by
  refine ⟨h.store, fun y hy => ?_, fun b hb hused hne => ?_⟩
  · simp only [lookup_define, h.others y hy]
  · have hbx : ¬(x ≠ "_" ∧ b.1 = x) := fun ⟨hx', heq⟩ => hx hx' (heq ▸ List.mem_map_of_mem hb)
    simp only [lookup_define, hbx, if_false]
    exact h.bound b hb hused hne

theorem defineAll (h : Beside used bound st apart)
    (hnames : ∀ x ∈ names, x ≠ "_" → x ∉ bound.map Prod.fst) (values : List m.Value) :
    Beside used bound ⟨Target.defineAll st.locals names values, st.store⟩
      ⟨Target.defineAll apart.locals names values, apart.store⟩ := by
  induction names generalizing st apart values with
  | nil => exact h
  | cons x names ih =>
    cases values with
    | nil => exact h
    | cons v values =>
      exact ih (h.define (hnames x (.head _)) (.value v)) (fun y hy => hnames y (.tail _ hy)) values

theorem bindUsed (h : Beside used bound st apart) (hx : x ∉ bound.map Prod.fst) (v : m.Value) :
    Beside used (bound ++ [(x, v)]) ⟨st.locals.define x (.value v), st.store⟩ apart := by
  refine ⟨h.store, fun y hy => ?_, fun b hb hused hne => ?_⟩
  · simp only [List.map_append, List.mem_append, List.map_cons, List.map_nil, List.mem_singleton, not_or] at hy
    simp only [lookup_define, hy.2, and_false, if_false]
    exact h.others y hy.1
  · rcases List.mem_append.mp hb with hb | hb
    · have hbx : b.1 ≠ x := fun heq => hx (heq ▸ List.mem_map_of_mem hb)
      simp only [lookup_define, hbx, and_false, if_false]
      exact h.bound b hb hused hne
    · cases List.mem_singleton.mp hb
      simp [lookup_define, hne]

theorem bindUnused (h : Beside used bound st apart) (hx : used x = false) {v : m.Value} :
    Beside used (bound ++ [(x, v)]) st apart := by
  refine ⟨h.store, fun y hy => ?_, fun b hb hused hne => ?_⟩
  · simp only [List.map_append, List.mem_append, not_or] at hy
    exact h.others y hy.1
  · rcases List.mem_append.mp hb with hb | hb
    · exact h.bound b hb hused hne
    · cases List.mem_singleton.mp hb
      rw [hx] at hused
      cases hused

end Beside

def Follows (used : String → Bool) (bound : List (String × m.Value)) (ran : Tested m) : Apart m → Prop
  | .passed apart new => ∃ st, ran = .passed st ∧ Beside used (bound ++ new) st apart
  | .failed apart => ∃ st, ran = .failed st ∧ st.store = apart.store
  | .panicked store => ran = .panicked store

section

variable {used : String → Bool} {bound : List (String × m.Value)} {st apart : State m}

theorem test_follows (hm : m.Local) (h : Beside used bound st apart) {cond : Expr}
    (hcond : ∀ b ∈ bound, cond.mentions b.1 = false) :
    Follows used bound (Step.test cond st) (.ofTested [] (Step.test cond apart)) := by
  simp only [Step.test, h.eval hm hcond]
  cases m.eval cond apart.locals apart.store with
  | panic store => rfl
  | value v store =>
    simp only [Tested.ofEval]
    cases m.truth v with
    | false => exact ⟨_, rfl, rfl⟩
    | true => exact ⟨_, rfl, by simpa using h.withStore store⟩

variable {value : Expr} {ran : Tested m} {new : List (String × m.Value)} {x ok : String} {name : Option String}
  {ty : Ty} {user : Bool} {step : Step} {steps : List Step}

theorem evalDefine_beside (hm : m.Local) (h : Beside used bound st apart)
    (hvalue : ∀ b ∈ bound, value.mentions b.1 = false) {names : List String} :
    (∃ vs store, evalDefine names [value] st = .value (defineAll st.locals names vs) store ∧
      evalDefine names [value] apart = .value (defineAll apart.locals names vs) store) ∨
    ∃ store, evalDefine names [value] st = .panic store ∧ evalDefine names [value] apart = .panic store := by
  unfold evalDefine
  split
  · rename_i target ok x ty hassert
    simp only [List.cons.injEq, and_true] at hassert
    subst hassert
    have hx : ∀ b ∈ bound, x.mentions b.1 = false := fun b hb => by
      have := hvalue b hb
      simp only [Expr.mentions, Bool.or_eq_false_iff] at this
      exact this.1
    rw [h.eval hm hx]
    cases m.eval x apart.locals apart.store with
    | value v store => exact .inl ⟨_, store, rfl, rfl⟩
    | panic store => exact .inr ⟨store, rfl, rfl⟩
  · simp only [Machine.evalAll, h.eval hm hvalue]
    cases m.eval value apart.locals apart.store with
    | value v store => exact .inl ⟨_, store, rfl, rfl⟩
    | panic store => exact .inr ⟨store, rfl, rfl⟩

theorem defining_follows (hm : m.Local) (h : Beside used bound st apart) {names : List String}
    (hnames : ∀ x ∈ names, x ≠ "_" → x ∉ bound.map Prod.fst) (hvalue : ∀ b ∈ bound, value.mentions b.1 = false) :
    Follows used bound (Step.defining names value st) (.ofTested [] (Step.defining names value apart)) := by
  unfold Step.defining
  rcases evalDefine_beside hm h hvalue with ⟨vs, store, hst, hapart⟩ | ⟨store, hst, hapart⟩
  · rw [hst, hapart]
    exact ⟨_, rfl, by simpa using (h.withStore store).defineAll hnames vs⟩
  · rw [hst, hapart]
    rfl

theorem Follows.andThen (h : Follows used bound ran a)
    (hnext : ∀ st apart new, a = .passed apart new → Beside used (bound ++ new) st apart →
      Follows used (bound ++ new) (f st) (g apart)) : Follows used bound (ran.andThen f) (a.andThen g) := by
  cases a with
  | failed apart =>
    obtain ⟨st, rfl, hstore⟩ := h
    exact ⟨st, rfl, hstore⟩
  | panicked store =>
    cases (h : ran = .panicked store)
    rfl
  | passed apart new =>
    obtain ⟨st, rfl, hbeside⟩ := h
    have hg := hnext st apart new rfl hbeside
    simp only [Tested.andThen, Apart.andThen]
    cases hga : g apart with
    | failed apart' | panicked store => rw [hga] at hg; exact hg
    | passed apart' later =>
      rw [hga] at hg
      obtain ⟨st', hst', hbeside'⟩ := hg
      exact ⟨st', hst', by rw [← List.append_assoc]; exact hbeside'⟩

theorem Follows.ofTested {t : Tested m} (h : Follows used (bound ++ new) ran (.ofTested [] t)) :
    Follows used bound ran (.ofTested new t) := by
  cases t with
  | passed st =>
    obtain ⟨st', hst', hbeside⟩ := h
    exact ⟨st', hst', by rwa [List.append_nil] at hbeside⟩
  | failed st | panicked store => exact h

theorem ident_mentions_bound (hx : x ∉ bound.map Prod.fst) : ∀ b ∈ bound, (Expr.ident x).mentions b.1 = false := by
  intro b hb
  simp only [Expr.mentions, beq_eq_false_iff_ne]
  exact fun heq => hx (heq ▸ List.mem_map_of_mem hb)

theorem run_assert : (Step.assert name user ok value ty).run st =
      .ofEval (m.eval (.apply (.ident "any") [value]) st.locals st.store) fun v store =>
        Step.test (.ident ok) ⟨(st.locals.define (name.getD "_") (.value (m.cast v ty).1)).define ok
          (.value (m.bool (m.cast v ty).2)), store⟩ := by
  simp only [Step.run, Step.defining, evalDefine]
  cases m.eval (.apply (.ident "any") [value]) st.locals st.store <;> rfl

theorem assert_reads (h : (Step.assert name user ok value ty).reads x = false) :
    (Expr.apply (.ident "any") [value]).mentions x = false := by
  simp only [Step.reads, Expr.mentions, Bool.or_eq_false_iff] at h
  exact h.1

theorem assertTemp_follows (hm : m.Local) (h : Beside used bound st apart)
    (hname : name.getD "_" ≠ "_" → name.getD "_" ∉ bound.map Prod.fst) (hok : ok ∉ bound.map Prod.fst)
    (hreads : ∀ b ∈ bound, (Step.assert name user ok value ty).reads b.1 = false) :
    Follows used bound ((Step.assert name user ok value ty).run st)
      (.ofTested [] ((Step.assert name user ok value ty).run apart)) := by
  rw [run_assert, run_assert, h.eval hm fun b hb => assert_reads (hreads b hb)]
  cases m.eval (.apply (.ident "any") [value]) apart.locals apart.store with
  | panic store => rfl
  | value v store =>
    exact test_follows hm (((h.withStore store).define hname _).define (fun _ => hok) _) (ident_mentions_bound hok)

theorem assertUser_follows (hm : m.Local) (h : Beside used bound st apart) {name : String}
    (hname : name ∉ bound.map Prod.fst) (hok : ok ∉ bound.map Prod.fst) (hne : name ≠ ok)
    (hreads : ∀ b ∈ bound, (Step.assert (some name) true ok value ty).reads b.1 = false) :
    Follows used bound ((Step.assert (if used name then some name else none) true ok value ty).run st)
      ((Step.assert (some name) true ok value ty).runApart apart) := by
  simp only [Step.runApart]
  rw [run_assert, run_assert, h.eval hm fun b hb => assert_reads (hreads b hb)]
  cases m.eval (.apply (.ident "any") [value]) apart.locals apart.store with
  | panic store => rfl
  | value v store =>
    have hbound : Beside used (bound ++ [(name, (m.cast v ty).1)])
        ⟨st.locals.define ((if used name then some name else none).getD "_") (.value (m.cast v ty).1), store⟩
        ⟨apart.locals.define "_" (.value (m.cast v ty).1), store⟩ := by
      cases hused : used name with
      | true => exact (h.withStore store).bindUsed hname _
      | false =>
        exact (h.withStore store).bindUnused hused
    have hok' : ok ∉ (bound ++ [(name, (m.cast v ty).1)]).map Prod.fst := by
      simpa only [List.map_append, List.mem_append, List.map_cons, List.map_nil, List.mem_singleton, not_or]
        using ⟨hok, hne.symm⟩
    exact (test_follows hm (hbound.define (fun _ => hok') _) (ident_mentions_bound hok')).ofTested

theorem runSteps_single : runSteps [step] st = step.run st := by
  simp only [runSteps]
  cases step.run st <;> rfl

def Step.Quiet (step : Step) (st : State m) : Prop :=
  match step with
  | .bind _ value => ∃ v, m.eval value st.locals st.store = .value v st.store
  | _ => True

def Quiet : List Step → State m → Prop
  | [], _ => True
  | step :: steps, st => step.Quiet st ∧ ∀ st' bound, step.runApart st = .passed st' bound → Quiet steps st'

theorem quiet_append (ha : Quiet a st)
    (hb : ∀ st' bound, runApart a st = .passed st' bound → Quiet b st') : Quiet (a ++ b) st := by
  induction a generalizing st with
  | nil => exact hb st [] rfl
  | cons step a ih =>
    refine ⟨ha.1, fun st' bound hstep => ih (ha.2 st' bound hstep) fun st'' later hrest => ?_⟩
    refine hb st'' (bound ++ later) ?_
    simp only [runApart, hstep, Apart.andThen, hrest]

theorem step_follows (hm : m.Local) (h : Beside used bound st apart) (hquiet : step.Quiet apart)
    (hreads : ∀ b ∈ bound, step.reads b.1 = false) (htemps : ∀ x ∈ step.temps, x ∉ bound.map Prod.fst)
    (hbinds : ∀ x ∈ step.binds, x ∉ bound.map Prod.fst ∧ x ∉ step.temps) :
    Follows used bound (runSteps (step.keep used).toList st) (step.runApart apart) := by
  cases step with
  | define names value =>
    show Follows used bound (runSteps [.define names value] st) _
    rw [runSteps_single]
    exact defining_follows hm h (fun x hx _ => htemps x hx) hreads
  | check cond =>
    show Follows used bound (runSteps [.check cond] st) _
    rw [runSteps_single]
    exact test_follows hm h hreads
  | touch value =>
    show Follows used bound (runSteps [.touch value] st) _
    rw [runSteps_single]
    simp only [Step.run, Step.runApart, h.eval hm hreads]
    cases m.eval value apart.locals apart.store with
    | panic store => rfl
    | value v store => exact ⟨_, rfl, by simpa using h.withStore store⟩
  | bind name value =>
    have hname := (hbinds name (by simp [Step.binds])).1
    have heval : m.eval value st.locals st.store = m.eval value apart.locals apart.store := h.eval hm hreads
    obtain ⟨v, hv⟩ := hquiet
    simp only [Step.runApart, Step.keep, hv]
    cases hused : used name with
    | false => exact ⟨st, rfl, h.bindUnused hused⟩
    | true =>
      rw [if_pos rfl, Option.toList_some, runSteps_single]
      simp only [Step.run, Step.defining, evalDefine, Machine.evalAll, heval, hv]
      exact ⟨_, rfl, (h.withStore apart.store).bindUsed hname v⟩
  | assert name user ok value ty =>
    cases name with
    | none =>
      show Follows used bound (runSteps [.assert none user ok value ty] st) _
      rw [runSteps_single]
      exact assertTemp_follows hm h (fun hne => absurd rfl hne) (htemps ok (by simp [Step.temps])) hreads
    | some name =>
      cases user with
      | false =>
        show Follows used bound (runSteps [.assert (some name) false ok value ty] st) _
        rw [runSteps_single]
        exact assertTemp_follows hm h (fun _ => htemps name (by simp [Step.temps]))
          (htemps ok (by simp [Step.temps])) hreads
      | true =>
        have hname := hbinds name (by simp [Step.binds])
        rw [Step.keep, Option.toList_some, runSteps_single]
        exact assertUser_follows hm h hname.1 (htemps ok (by simp [Step.temps]))
          (fun heq => hname.2 (by simp [Step.temps, heq])) hreads

/-- The names steps bind are distinct, and no temporary is among them. -/
structure Distinct (steps : List Step) : Prop where
  binds : (steps.flatMap Step.binds).Nodup
  temps : ∀ a ∈ steps, ∀ b ∈ steps, ∀ x ∈ a.binds, x ∉ b.temps

theorem bound_binds (h : step.runApart st = .passed st' new) : new.map Prod.fst = step.binds := by
  have tested : ∀ {bound : List (String × m.Value)} {t : Tested m}, Apart.ofTested bound t = .passed st' new →
      new = bound := by
    intro bound t ht
    cases t <;> cases ht
    rfl
  cases step with
  | bind name value =>
    simp only [Step.runApart] at h
    split at h <;> cases h
    rfl
  | assert name user ok value ty =>
    cases name with
    | none => rw [tested h]; rfl
    | some name =>
      cases user with
      | false => rw [tested h]; rfl
      | true =>
        simp only [Step.runApart] at h
        split at h
        · rw [tested h]; rfl
        · cases h
  | define names value | check cond | touch value => rw [tested h]; rfl

theorem runSteps_follows (hm : m.Local) (h : Beside used bound st apart) (hquiet : Quiet steps apart)
    (hcapture : NoCapture steps) (hdistinct : Distinct steps)
    (hreads : ∀ b ∈ bound, ∀ step ∈ steps, step.reads b.1 = false)
    (hapart : ∀ b ∈ bound, ∀ step ∈ steps, b.1 ∉ step.temps ∧ b.1 ∉ step.binds) :
    Follows used bound (runSteps (steps.filterMap (Step.keep used)) st) (runApart steps apart) := by
  induction steps generalizing bound st apart with
  | nil => exact ⟨st, rfl, by rwa [List.append_nil]⟩
  | cons step steps ih =>
    have hstep : Follows used bound (runSteps (step.keep used).toList st) (step.runApart apart) := by
      refine step_follows hm h hquiet.1 (fun b hb => hreads b hb step (.head _)) (fun x hx hmem => ?_)
        fun x hx => ⟨fun hmem => ?_, hdistinct.temps step (.head _) step (.head _) x hx⟩
      · obtain ⟨b, hb, rfl⟩ := List.mem_map.mp hmem
        exact (hapart b hb step (.head _)).1 hx
      · obtain ⟨b, hb, rfl⟩ := List.mem_map.mp hmem
        exact (hapart b hb step (.head _)).2 hx
    have hlist : (step :: steps).filterMap (Step.keep used) =
        (step.keep used).toList ++ steps.filterMap (Step.keep used) := by
      rw [List.filterMap_cons]
      cases step.keep used <;> rfl
    rw [hlist, runSteps_append]
    obtain ⟨hfirst, hlast⟩ := List.pairwise_cons.mp hcapture
    have hbinds := hdistinct.binds
    rw [List.flatMap_cons, List.nodup_append] at hbinds
    refine hstep.andThen fun st' apart' new hnew hbeside => ?_
    have hmem : ∀ b ∈ new, b.1 ∈ step.binds := fun b hb => bound_binds hnew ▸ List.mem_map_of_mem hb
    refine ih hbeside (hquiet.2 apart' new hnew) hlast
      ⟨hbinds.2.1, fun a ha b hb => hdistinct.temps a (.tail _ ha) b (.tail _ hb)⟩ ?_ ?_
    · intro b hb later hlater
      rcases List.mem_append.mp hb with hb | hb
      · exact hreads b hb later (.tail _ hlater)
      · exact hfirst later hlater b.1 (hmem b hb)
    · intro b hb later hlater
      rcases List.mem_append.mp hb with hb | hb
      · exact hapart b hb later (.tail _ hlater)
      · refine ⟨hdistinct.temps step (.head _) later (.tail _ hlater) b.1 (hmem b hb), fun hlaterBinds => ?_⟩
        exact hbinds.2.2 b.1 (hmem b hb) b.1 (List.mem_flatMap.mpr ⟨later, hlater, hlaterBinds⟩) rfl

theorem runSteps_beside (hm : m.Local) (hquiet : Quiet steps st) (hcapture : NoCapture steps)
    (hdistinct : Distinct steps) :
    Follows used [] (runSteps (steps.filterMap (Step.keep used)) st) (runApart steps st) :=
  runSteps_follows hm (.start used) hquiet hcapture hdistinct nofun nofun

end

end Match

end Lowering
