/-
  FirstMatch — a lowered match runs the first clause that matches.

  Running the statements of a match defines the subject, tests the clauses in order and runs the body of the first
  that passes, or the closing panic when none does (`MatchCode.runFirst`).
-/

import Lowering.Proofs.Tail

namespace Lowering.Lower

open Target (Expr Stmt Machine State Run Outcome Locals exec execAll execAll_append)
open Match (runSteps)

variable {m : Machine}

namespace MatchCode

/-- The subject and the flag are defined; then the first clause that matches, or what is to
    happen otherwise, runs in a block of its own. -/
def runFirst (code : MatchCode) (bound : Nat) (otherwise : State m → Run m) (st : State m) : Run m :=
  (execAll bound (code.start ++ code.flagStart) st).andThen fun st =>
    (firstMatch code.flag bound otherwise code.clauses st).leave st.locals.length

def closing (code : MatchCode) : List Stmt := [unreachable code.ty none]

end MatchCode

def goOn (st : State m) : Run m := some (.normal st)

/-! ## In tail position -/

variable {c : ClauseCode} {codes : List ClauseCode} {flag : Option String} {st st' : State m} {r : Run m}
  {clauses : List Source.Clause} {code : MatchCode} {env : Env} {s s' : LowerState} {span : Span}
  {subject : Located Source.Expr} {n : Nat} {f g : State m → Run m}

theorem leaves_of_ends (hm : m.Panics) (hs : c.Spares "panic") (he : ClauseCode.Ends c) {base : Locals m.Value m.Cell}
    (hbase : base.lookup "panic" = none) : c.Leaves m bound base := by
  intro store st st' hpassed
  have hkept := Match.runSteps_kept (Match.sparesSteps_kept (by decide) hs.steps) hpassed
  exact Target.execAll_terminates hm c.body st st' he hs.body (hkept.lookup.trans hbase)

theorem firstMatch_not_normal {bound : Nat} {otherwise : State m → Run m} (hflag : flag = none)
    (hcodes : ∀ c ∈ codes, c.Leaves m bound st.locals)
    (ho : ∀ store st', otherwise ⟨st.locals, store⟩ ≠ some (.normal st')) (st' : State m) :
    firstMatch flag bound otherwise codes st ≠ some (.normal st') := by
  subst hflag
  induction codes generalizing st with
  | nil => exact ho st.store st'
  | cons c codes ih =>
    simp only [firstMatch]
    cases hs : runSteps c.steps st with
    | passed st1 => exact hcodes c (.head _) st.store st1 st' hs
    | failed st1 => exact ih (fun c hc => hcodes c (.tail _ hc)) ho
    | panicked store =>
      intro h
      cases h

theorem andThen_congr (h : ∀ st, r = some (.normal st) → f st = g st) : r.andThen f = r.andThen g := by
  rcases r with _ | ⟨st | ⟨vs, store⟩ | store⟩
  · rfl
  · exact h st rfl
  · rfl
  · rfl

theorem stmts_eq : code.stmts = (code.start ++ code.flagStart) ++
      (chain code.flag code.clauses ++ if code.panics then [unreachable code.ty code.flag] else []) := by
  rw [MatchCode.stmts, List.append_assoc (code.start ++ code.flagStart)]

theorem closing_ends : Ends code.closing := by
  simp [Ends, MatchCode.closing, unreachable, Stmt.terminates, Stmt.isTerminating, Expr.apply]

/-- What is known about the code of a match in tail position. -/
structure TailCode (code : MatchCode) : Prop where
  spares : code.Spares "panic"
  ends : ∀ c ∈ code.clauses, ClauseCode.Ends c
  flag : code.flag = none
  panics : code.panics = !code.covered

theorem tailCode_of_matchCode (henv : env.PanicFree) {result : Ty} (hresult : result.isVoid = false)
    (hbinds : Source.Clause.anyBinds "panic" clauses = false) (hscope : s.scope.find? "panic" = none)
    (h : matchCode env (piece env subject) (clausePieces env clauses) (.tail result) span s = .ok code s') :
    TailCode code := by
  have hspared := spared_panic hscope
  have htidy := piece_tidy env subject
  obtain ⟨s1, s2, hsubject, hflag, hcodes⟩ := (matchCode_from h).parts
  have hspared1 := hspared.framed ((framed.matchSubject htidy).ok hsubject)
  have hspared2 := hspared1.framed (framed.matchFlag.ok hflag)
  have hposition : Position.ofResult result = .tail result := by rw [Position.ofResult, hresult]; rfl
  rw [← hposition] at hcodes
  have hflow : Flow env s2 (!result.isVoid) (.clauses _ _ code.flag clauses _) _ _ :=
    clauses_flow (clauses_follow env clauses) hcodes
  exact {
    spares := ⟨silent_start htidy hsubject hspared, ne_flag hflag hspared1, hflow.spares (by decide) hspared2 hbinds⟩
    ends := (hflow.ends henv.leaves (by rw [hresult]; rfl) hspared2 hbinds).1
    flag := (pure_ok hflag).1
    panics := matchCode_panics clausePieces_guard h }

theorem execAll_tailCode (hm : m.Panics) (hcode : TailCode code) (hst : st.locals.lookup "panic" = none) :
    execAll bound code.stmts st = code.runFirst bound (execAll bound code.closing) st := by
  rw [stmts_eq, execAll_append, MatchCode.runFirst]
  refine andThen_congr fun st1 hstart => ?_
  have hflagStart : code.flagStart = [] := by rw [MatchCode.flagStart, hcode.flag]
  have hst1 : st1.locals.lookup "panic" = none := by
    rw [hflagStart, List.append_nil] at hstart
    exact (Target.execAll_kept code.start st st1 hcode.spares.start hstart).lookup.trans hst
  have hleaves : ∀ c ∈ code.clauses, c.Leaves m bound st1.locals :=
    fun c hc => leaves_of_ends hm (hcode.spares.clauses c hc) (hcode.ends c hc) hst1
  have hclosing : ∀ store st', execAll bound code.closing ⟨st1.locals, store⟩ ≠
    some (.normal st') := fun store st' =>
    Target.execAll_terminates hm code.closing ⟨st1.locals, store⟩ st' closing_ends
      silent_unreachable hst1
  rw [leave_of_not_normal (firstMatch_not_normal hcode.flag hleaves hclosing), hcode.flag,
    execAll_chain_leaving bound _ st1 hleaves, hcode.panics]
  cases hcovered : code.covered with
  | false => rfl
  | true => exact firstMatch_always hcovered

/-! ## In effect position -/

def flagName (n : Nat) : String := "_matched" ++ toString n

theorem flagName_inj {a b : Nat} (h : flagName a = flagName b) : a = b := NameSupply.numbered_inj h

theorem flagName_ne_blank : flagName n ≠ "_" := by
  intro h
  have := congrArg String.toList h
  simp [flagName] at this

theorem flagName_head (n : Nat) : (flagName n).toList.take 2 = ['_', 'm'] := by simp [flagName]

/-- No name in scope, no name the clauses bind and no temporary is a flag. -/
structure FlagsApart (s : LowerState) (clauses : List Source.Clause) : Prop where
  scope : ∀ n, s.scope.find? (flagName n) = none
  clauses : ∀ n, Source.Clause.anyBinds (flagName n) clauses = false
  temporaries : ∀ n k : Nat, s.names.stem ++ toString k ≠ flagName n

/-- What is known about the code of a match in effect position. -/
structure EffectCode (code : MatchCode) : Prop where
  start : code.start = [] ∨ ∃ tmp value, code.start = [.define1 tmp value]
  panics : code.panics = !code.covered
  flagged : ∀ f ∈ code.flag, f ≠ "_" ∧ ∀ c ∈ code.clauses, c.Spares f
  single : code.flag = none → code.clauses.length ≤ 1

theorem matchSubject_start {subject : Piece} {start : List Stmt} {value : Expr}
    (h : matchSubject subject s = .ok (start, value) s') : start = [] ∨ ∃ tmp e, start = [.define1 tmp e] := by
  obtain ⟨lowered, s1, -, h1⟩ := bind_ok h
  split at h1
  · cases (pure_ok h1).1
    exact .inl rfl
  · obtain ⟨tmp, -, ⟨⟩⟩ := map_ok h1
    exact .inr ⟨tmp, lowered, rfl⟩

theorem clauseCodes_length {clauses : List ClausePiece} {subject : Expr} {ty : Ty} {position : Position}
    (h : clauseCodes env subject ty position clauses s = .ok codes s') :
    codes.length ≤ clauses.length ∧ (codes = [] → clauses = []) := by
  induction clauses generalizing s s' codes with
  | nil =>
    rw [(pure_ok h).1]
    exact ⟨Nat.le_refl _, fun _ => rfl⟩
  | cons clause clauses ih =>
    obtain ⟨code, s1, -, h1⟩ := bind_ok h
    split at h1
    · rw [(pure_ok h1).1]
      exact ⟨Nat.succ_le_succ (Nat.zero_le _), fun h => by cases h⟩
    · obtain ⟨rest, hrest, rfl⟩ := map_ok h1
      exact ⟨Nat.succ_le_succ (ih hrest).1, fun h => by cases h⟩

theorem matchFlag_isNone (h : matchFlag .effect n s = .ok flag s') : flag.isNone = true ↔ n ≤ 1 := by
  unfold matchFlag at h
  dsimp only at h
  split at h
  next hn =>
    cases h
    exact ⟨fun h => (by cases h), fun hle => by omega⟩
  next hn =>
    cases h
    exact ⟨fun _ => by omega, fun _ => rfl⟩

theorem spared_flag (h : FlagsApart s clauses) {s1 s2 : LowerState} (hs1 : Framed s s1)
    (hflag : matchFlag .effect n s1 = .ok flag s2) : ∀ f ∈ flag, ∃ k, f = flagName k ∧ Spared f s2 := by
  intro f hf
  unfold matchFlag at hflag
  dsimp only at hflag
  split at hflag
  · cases hflag
    cases hf
    refine ⟨s1.names.matched, rfl, ?_, fun k _ => ?_, fun k hk heq => ?_⟩
    · show s1.scope.find? _ = none
      rw [hs1.scope]
      exact h.scope s1.names.matched
    · show flagName s1.names.matched ≠ s1.names.stem ++ toString k
      rw [hs1.names.stem]
      exact (h.temporaries _ _).symm
    · have hk : s1.names.matched + 1 ≤ k := hk
      have heq : s1.names.matched = k := flagName_inj heq
      omega
  · cases hflag
    cases hf

theorem effectCode_of_matchCode (hflags : FlagsApart s clauses)
    (h : matchCode env (piece env subject) (clausePieces env clauses) .effect span s = .ok code s') :
    EffectCode code := by
  obtain ⟨s1, s2, hsubject, hflag, hcodes⟩ := (matchCode_from h).parts
  have hframed := (framed.matchSubject (piece_tidy env subject)).ok hsubject
  refine ⟨matchSubject_start hsubject, matchCode_panics clausePieces_guard h, fun f hf => ?_,
    fun hnone => ?_⟩
  · obtain ⟨k, rfl, hspared⟩ := spared_flag hflags hframed hflag f hf
    refine ⟨flagName_ne_blank, ?_⟩
    have hflow : Flow env s2 (!Ty.void.isVoid) (.clauses _ _ code.flag clauses _) _ _ :=
      clauses_flow (clauses_follow env clauses) hcodes
    exact hflow.spares flagName_ne_blank hspared (hflags.clauses k)
  · exact Nat.le_trans (clauseCodes_length hcodes).1 ((matchFlag_isNone hflag).mp (by rw [hnone]; rfl))

def MatchCode.lone (code : MatchCode) : Bool := code.flag.isNone && code.clauses.length == 1 && !code.covered

theorem lone_iff (h : matchCode env (piece env subject) (clausePieces env clauses) .effect span s = .ok code s') :
    code.lone = true ↔ clauses.length = 1 ∧ code.covered = false := by
  obtain ⟨s1, s2, -, hflag, hcodes⟩ := (matchCode_from h).parts
  have hlength := clauseCodes_length hcodes
  rw [length_clausePieces] at hlength
  have hempty : code.clauses.length = 0 → clauses.length = 0 := fun h => by
    rw [← length_clausePieces, hlength.2 (List.length_eq_zero_iff.mp h), List.length_nil]
  have hnone := matchFlag_isNone hflag
  rw [length_clausePieces] at hnone
  simp only [MatchCode.lone, Bool.and_eq_true, hnone, beq_iff_eq, Bool.not_eq_true']
  constructor
  · rintro ⟨⟨hle, hone⟩, hcovered⟩
    exact ⟨by omega, hcovered⟩
  · rintro ⟨hone, hcovered⟩
    exact ⟨⟨by omega, by omega⟩, hcovered⟩

theorem exec_flagStart {flag : String} (hflag : flag ≠ "_")
    (h : execAll bound [.define1 flag (.bool false)] st = some (.normal st')) : FlagIs flag false st' := by
  rw [Target.execAll_single] at h
  simp only [Stmt.define1, exec, Target.execDefine, Target.evalDefine, Machine.evalAll, m.eval_bool, Run.ofEval] at h
  cases h
  simp [FlagIs, Target.defineAll, Locals.define, hflag]

theorem execAll_flagged (hcode : EffectCode code) {flag : String} (hflag : code.flag = some flag) (st : State m) :
    execAll bound code.stmts st = code.runFirst bound (execAll bound code.closing) st := by
  obtain ⟨hne, hspares⟩ := hcode.flagged flag hflag
  rw [stmts_eq, execAll_append, MatchCode.runFirst]
  refine andThen_congr fun st1 hstart => ?_
  have hset : FlagIs flag false st1 := by
    rw [execAll_append, MatchCode.flagStart, hflag] at hstart
    rcases hrun : execAll bound code.start st with _ | ⟨st0 | ⟨vs, store⟩ | store⟩
    · rw [hrun] at hstart; cases hstart
    · rw [hrun] at hstart
      exact exec_flagStart hne hstart
    · rw [hrun] at hstart; cases hstart
    · rw [hrun] at hstart; cases hstart
  rw [hflag, hcode.panics]
  cases hcovered : code.covered with
  | false => exact execAll_chain_flagged hne bound (some code.closing) hspares hset
  | true =>
    have hchain := execAll_chain_flagged hne bound none hspares hset
    rw [firstMatch_always hcovered]
    exact hchain

theorem andThen_leave_congr (h : ∀ st, r = some (.normal st) → (f st).leave n = (g st).leave n) :
    (r.andThen f).leave n = (r.andThen g).leave n := by
  rcases r with _ | ⟨st | ⟨vs, store⟩ | store⟩
  · rfl
  · exact h st rfl
  · rfl
  · rfl

theorem execAll_always (hc : c.always = true) (otherwise : State m → Run m) (hn : n ≤ st.locals.length) :
    (execAll bound (chain none [c]) st).leave n =
      ((firstMatch none bound otherwise [c] st).leave st.locals.length).leave n := by
  have hchain : chain none [c] = c.stmts none := by simp [chain, placeClause, hc]
  have hstmts : execAll bound (c.stmts none) st = (runSteps c.steps st).finish (execAll bound c.body) :=
    Match.CompiledPattern.execAll_assemble_unconditional bound hc c.used c.body st
  rw [hchain, hstmts, Target.leave_leave _ hn]
  simp only [firstMatch]
  cases hs : runSteps c.steps st with
  | passed st' => rfl
  | failed st' => exact absurd hs (Match.runSteps_unconditional (steps_always hc) st st')
  | panicked store => rfl

theorem execAll_lone (hc : c.always = false) (st : State m) :
    execAll bound (chain none [c]) st = (firstMatch none bound goOn [c] st).leave st.locals.length := by
  have hplaced := execAll_placeClause bound hc st
  have hchain : chain none [c] = placeClause none (c.stmts none) c.always := by simp [chain]
  rw [hchain, hplaced]
  simp only [firstMatch]
  cases hs : runSteps c.steps st with
  | passed st' => rfl
  | failed st' =>
    rw [finish_failed_leave (Match.runSteps_suffix (.inr hs))]
    exact congrArg (fun st => some (Outcome.normal st)) (State.leave_length (State.mk st.locals st'.store)).symm
  | panicked store => rfl

theorem start_suffix (hcode : EffectCode code) (h : execAll bound code.start st = some (.normal st')) :
    st.locals <:+ st'.locals := by
  rcases hcode.start with hstart | ⟨tmp, value, hstart⟩
  · rw [hstart] at h
    cases h
    exact List.suffix_refl _
  · rw [hstart, Target.execAll_single, ← Target.andThen_some_normal (exec _ _ _), Stmt.define1, Match.exec_define1] at h
    cases hd : Match.Step.defining [tmp] value st with
    | passed st1 =>
      rw [hd] at h
      cases h
      obtain ⟨vs, hvs⟩ := Match.defining_passed hd
      rw [hvs]
      exact Match.defineAll_suffix _ _
    | failed st1 => exact absurd hd Match.defining_not_failed
    | panicked store => rw [hd] at h; cases h

theorem execAll_effectCode (hcode : EffectCode code) (st : State m) :
    (execAll bound code.stmts st).leave st.locals.length =
      (if code.lone then (code.runFirst bound goOn st).andThen (execAll bound code.closing)
        else code.runFirst bound (execAll bound code.closing) st).leave st.locals.length := by
  cases hflag : code.flag with
  | some flag => rw [execAll_flagged hcode hflag, MatchCode.lone, hflag]; rfl
  | none =>
    have hflagStart : code.flagStart = [] := by rw [MatchCode.flagStart, hflag]
    have hsingle := hcode.single hflag
    simp only [MatchCode.lone, MatchCode.runFirst, stmts_eq, hflagStart, List.append_nil, hflag,
      hcode.panics, MatchCode.covered, execAll_append bound code.start, Option.isNone_none, Bool.true_and]
    rcases hclauses : code.clauses with _ | ⟨c, _ | ⟨c', rest⟩⟩
    · refine andThen_leave_congr fun st1 hst1 => ?_
      exact (Target.leave_leave _ (start_suffix hcode hst1).length_le).symm
    · cases hc : c.always with
      | true =>
        simp only [List.any_cons, List.any_nil, hc, Bool.or_false, Bool.not_true, Bool.and_false, Bool.false_eq_true,
          if_false, List.append_nil]
        refine andThen_leave_congr fun st1 hst1 => ?_
        exact execAll_always hc _ (start_suffix hcode hst1).length_le
      | false =>
        simp only [List.any_cons, List.any_nil, hc, Bool.or_false, Bool.not_false, List.length_singleton, BEq.rfl,
          Bool.and_true, if_true, Target.andThen_assoc]
        refine andThen_leave_congr fun st1 hst1 => ?_
        rw [execAll_append, execAll_lone hc]
        rfl
    · simp [hclauses] at hsingle

/-! ## A machine that logs -/

/-- Truth values only: a call logs its name and is true, `panic` panics. -/
def evalLogged : Expr → Locals Bool Unit → List String → Target.Evaluated Bool (List String)
  | .ident x, locals, log =>
    match locals.lookup x with
    | some (.value v) => .value v log
    | _ => .value true log
  | .lit (.bool b), _, log => .value b log
  | .unary .not x, locals, log =>
    match evalLogged x locals log with
    | .value v log => .value (!v) log
    | .panic log => .panic log
  | .binary .and a b, locals, log =>
    match evalLogged a locals log with
    | .value v log => if v then evalLogged b locals log else .value v log
    | .panic log => .panic log
  | .call (.ident name) _ _, _, log => if name = "panic" then .panic log else .value true (name :: log)
  | _, _, log => .value true log

def logging : Machine where
  Value := Bool
  Cell := Unit
  Store := List String
  bool b := b
  truth b := b
  zero _ := false
  load _ _ := true
  put _ _ log := log
  allocate _ log := ((), log)
  cast v _ := (v, true)
  combine _ _ v := v
  eval := evalLogged
  write _ _ _ _ log := .value () log
  truth_bool _ := rfl
  eval_local x slot locals log h := by
    simp only [evalLogged, h]
    cases slot <;> rfl
  eval_bool _ _ _ := rfl
  eval_not _ _ _ := by
    simp only [Expr.not, evalLogged]
    split <;> simp_all
  eval_and _ _ _ _ := by
    simp only [evalLogged]
    split <;> simp_all

theorem logging_panics : logging.Panics := by
  intro typeArgs args locals log _
  exact ⟨log, by simp [logging, evalLogged]⟩

/-- The local `x`, and nothing logged. -/
def logStart (x : Bool) : State logging := ⟨[("x", .value x)], []⟩

def unlocated {α : Type} (a : α) : Located α := ⟨a, .synthetic⟩

theorem exists_of_any {α : Type} {r : Checked α} {p : α → Bool} (h : r.toOption.any p = true) :
    ∃ a, r = .ok a ∧ p a = true := by
  cases r with
  | error d => cases h
  | ok a => exact ⟨a, rfl, h⟩

/-- `case pattern => name()` -/
def callClause (pattern : Source.Pattern) (name : String) : Source.Clause :=
  ⟨unlocated pattern, none, unlocated (.call (unlocated (.ident name)) [] [])⟩

def bareEnv : Env := ⟨Index.empty, .empty, .standard⟩

/-- `sealed Only { One }` -/
def onlyEnv : Env where
  index := { Index.empty with types := .ofList [
    ("Only", { TypeEntry.new "" "Only" .sealedType with variants := ["One"] }),
    ("One", { TypeEntry.new "" "One" .companion with
      methods := .ofList [("Unapply", .plain [.own "Only"] .bool)] })] }
  catalog := .empty
  settings := .standard

/-- `x` is in scope. -/
def subjectState (env : Env) (ty : Ty) : LowerState :=
  { LowerState.start env with scope := Scope.new.bind "x" .val ty }

theorem bareEnv_panicFree : bareEnv.PanicFree := ⟨by decide, by decide⟩

/-! ## Lowered matches -/

/-- A match in tail position. The steps of its clauses run in order, a clause that fails leaves
    no definition behind, and the body of the first that passes leaves the function; the panic
    at the end runs only when none passes. -/
theorem tailMatch_runsFirst {env : Env} (henv : env.PanicFree) {subject : Located Source.Expr}
    {clauses : List Source.Clause} {result : Ty} (hresult : result.isVoid = false) {span : Span}
    {s s' : LowerState} (hbinds : Source.Clause.anyBinds "panic" clauses = false)
    (hscope : s.scope.find? "panic" = none) {stmts : List Stmt}
    (h : lowerMatch env (piece env subject) (clausePieces env clauses) (.tail result) span s =
      .ok stmts s') :
    ∃ code, matchCode env (piece env subject) (clausePieces env clauses) (.tail result) span s = .ok code s' ∧
      stmts = code.stmts ∧
      ∀ (m : Machine), m.Panics → ∀ (bound : Nat) (st : State m), st.locals.lookup "panic" = none →
        execAll bound stmts st = code.runFirst bound (execAll bound code.closing) st ∧
        (∀ st', execAll bound stmts st ≠ some (.normal st')) ∧
        ∀ st₁, execAll bound code.start st = some (.normal st₁) → ∀ c ∈ code.clauses,
          c.Leaves m bound st₁.locals := by
  have hposition : Position.ofResult result = .tail result := by rw [Position.ofResult, hresult]; rfl
  have hflow := match_flow (piece_flow env) (clauses_follow env clauses) result span s stmts s' (hposition ▸ h)
  have hends := hflow.ends henv.leaves (by rw [hresult]; rfl) (spared_panic hscope) hbinds
  rw [lowerMatch_eq] at h
  obtain ⟨code, hcode, rfl⟩ := map_ok h
  have htail := tailCode_of_matchCode henv hresult hbinds hscope hcode
  refine ⟨code, hcode, rfl, fun m hm bound st hst => ⟨execAll_tailCode hm htail hst, fun st' => ?_, ?_⟩⟩
  · exact Target.execAll_terminates hm code.stmts st st' hends
      (silent_matchCode (by decide) htail.spares) hst
  · intro st₁ hstart c hc
    have hst₁ : st₁.locals.lookup "panic" = none :=
      (Target.execAll_kept code.start st st₁ htail.spares.start hstart).lookup.trans hst
    exact leaves_of_ends hm (htail.spares.clauses c hc) (htail.ends c hc) hst₁

/-- `case true => false; case y => y` -/
def truthClauses : List Source.Clause :=
  [⟨unlocated (.literal (.bool true)), none, unlocated (.lit (.bool false))⟩,
    ⟨unlocated (.ident "y"), none, unlocated (.ident "y")⟩]

theorem tailMatch_runsFirst_bool :
    ∃ stmts, lowerMatch bareEnv (piece bareEnv (unlocated (.ident "x")))
      (clausePieces bareEnv truthClauses) (.tail .bool)
        .synthetic (subjectState bareEnv .bool) = .ok stmts (subjectState bareEnv .bool) ∧
      execAll 0 stmts (logStart false) = some (.returned [false] []) ∧
      ∃ code : MatchCode, stmts = code.stmts ∧
        execAll 0 stmts (logStart false) = code.runFirst 0 (execAll 0 code.closing) (logStart false) := by
  refine ⟨_, by with_unfolding_all rfl, by with_unfolding_all rfl, ?_⟩
  obtain ⟨code, -, hstmts, hrun⟩ := tailMatch_runsFirst bareEnv_panicFree
    (by rfl) (by decide) (by decide)
    (show lowerMatch bareEnv (piece bareEnv (unlocated (.ident "x")))
      (clausePieces bareEnv truthClauses) (.tail .bool)
        .synthetic (subjectState bareEnv .bool) = _ by with_unfolding_all rfl)
  exact ⟨code, hstmts, (hrun logging logging_panics 0 (logStart false) rfl).1⟩

/-- A match in effect position whose flag nothing else is named like. Seen from outside, the body
    of the first clause whose steps all pass runs and control goes on after it; the panic at the
    end runs only when no clause passes, except that after a lone clause it always runs. -/
theorem effectMatch_runsFirst {env : Env} {subject : Located Source.Expr} {clauses : List Source.Clause}
    {span : Span} {s s' : LowerState} (hflags : FlagsApart s clauses) {stmts : List Stmt}
    (h : lowerMatch env (piece env subject) (clausePieces env clauses) .effect span s = .ok stmts s') :
    ∃ code, matchCode env (piece env subject) (clausePieces env clauses) .effect span s = .ok code s' ∧
      stmts = code.stmts ∧ (code.lone = true ↔ clauses.length = 1 ∧ code.covered = false) ∧
      ∀ (m : Machine) (bound : Nat) (st : State m),
        (execAll bound stmts st).leave st.locals.length =
          (if code.lone then (code.runFirst bound goOn st).andThen (execAll bound code.closing)
            else code.runFirst bound (execAll bound code.closing) st).leave st.locals.length := by
  rw [lowerMatch_eq] at h
  obtain ⟨code, hcode, rfl⟩ := map_ok h
  have heffect := effectCode_of_matchCode hflags hcode
  exact ⟨code, hcode, rfl, lone_iff hcode, fun m bound st => execAll_effectCode heffect st⟩

def printClauses : List Source.Clause :=
  [callClause (.literal (.bool true)) "print", callClause (.literal (.bool false)) "println"]

theorem flagName_ne {x : String} (hx : x.toList.take 2 ≠ ['_', 'm']) : flagName n ≠ x :=
  fun h => hx (h ▸ flagName_head n)

theorem flagsApart_subjectState {env : Env} (henv : env.settings = .standard) {ty : Ty} {clauses : List Source.Clause}
    (h : ∀ n, Source.Clause.anyBinds (flagName n) clauses = false) : FlagsApart (subjectState env ty) clauses where
  scope n := by
    rfl
  clauses := h
  temporaries n k h := by
    have hstem : (subjectState env ty).names.stem = "_tmp" := by
      simp only [subjectState, LowerState.start, NameSupply.new, henv, Settings.standard]
    rw [hstem] at h
    refine flagName_ne ?_ h.symm
    simp

theorem effectMatch_runsFirst_bool :
    ∃ stmts, lowerMatch bareEnv (piece bareEnv (unlocated (.ident "x")))
        (clausePieces bareEnv printClauses) .effect .synthetic (subjectState bareEnv .bool) =
          .ok stmts { subjectState bareEnv .bool with names := ⟨"_tmp", 0, 1⟩ } ∧
      (execAll 0 stmts (logStart false)).leave 1 = some (.normal ⟨[("x", .value false)], ["println"]⟩) ∧
      ∃ code : MatchCode, stmts = code.stmts ∧ code.lone = false ∧
        (execAll 0 stmts (logStart false)).leave 1 =
          (code.runFirst 0 (execAll 0 code.closing) (logStart false)).leave 1 := by
  refine ⟨_, by with_unfolding_all rfl, by with_unfolding_all rfl, ?_⟩
  obtain ⟨code, -, hstmts, hlone, hrun⟩ := effectMatch_runsFirst
    (flagsApart_subjectState rfl fun _ => rfl)
    (show lowerMatch bareEnv (piece bareEnv (unlocated (.ident "x")))
        (clausePieces bareEnv printClauses) .effect .synthetic (subjectState bareEnv .bool) = _ by
      with_unfolding_all rfl)
  have hlone : code.lone = false := Bool.eq_false_iff.mpr fun h => absurd (hlone.mp h).1 (by decide)
  have hlog := hrun logging 0 (logStart false)
  rw [hlone, if_neg Bool.false_ne_true] at hlog
  exact ⟨code, hstmts, hlone, hlog⟩

/-- The code of `x match { case One() => print() }`. -/
def loneCode : MatchCode where
  start := []
  value := .ident "x"
  flag := none
  clauses := [⟨⟨[.check (.method (.zero (.own "One")) "Unapply" [.ident "x"])], []⟩,
    (callClause (.extractor "One" [] []) "print").references, [.expr (.apply (.ident "print") [])]⟩]
  ty := .own "Only"
  panics := true

/-- `case _matched0 if _matched0 => print(); case _ => println()` -/
def shadowingClauses : List Source.Clause :=
  [{ callClause (.ident "_matched0") "print" with guard := some (unlocated (.ident "_matched0")) },
    callClause .wildcard "println"]

/-- The code of a match of `x` with these clauses. -/
def shadowedCode : MatchCode where
  start := []
  value := .ident "x"
  flag := some "_matched0"
  clauses := [⟨⟨[.bind "_matched0" (.ident "x"), .check (.ident "_matched0")], [("_matched0", .bool)]⟩,
      (shadowingClauses[0]).references, [.expr (.apply (.ident "print") [])]⟩,
    ⟨⟨[], []⟩, (shadowingClauses[1]).references, [.expr (.apply (.ident "println") [])]⟩]
  ty := .bool
  panics := false

/-- A lone clause matches and its body runs, but then so does the panic. And where a clause binds
    the name of the flag, it sets its own variable, and the body of the next clause runs too. -/
theorem effectMatch_diverges :
    (lowerMatch onlyEnv (piece onlyEnv (unlocated (.ident "x")))
        (clausePieces onlyEnv [callClause (.extractor "One" [] []) "print"]) .effect .synthetic
        (subjectState onlyEnv (.own "Only")) = .ok loneCode.stmts (subjectState onlyEnv (.own "Only")) ∧
      loneCode.runFirst 0 (execAll 0 loneCode.closing) (logStart true) =
        some (.normal ⟨(logStart true).locals, ["print"]⟩) ∧
      execAll 0 loneCode.stmts (logStart true) = some (.panicked ["print"])) ∧
    (lowerMatch bareEnv (piece bareEnv (unlocated (.ident "x")))
        (clausePieces bareEnv shadowingClauses) .effect .synthetic (subjectState bareEnv .bool) =
          .ok shadowedCode.stmts { subjectState bareEnv .bool with names := ⟨"_tmp", 0, 1⟩ } ∧
      (shadowedCode.runFirst 0 (execAll 0 shadowedCode.closing) (logStart true)).leave 1 =
        some (.normal ⟨(logStart true).locals, ["print"]⟩) ∧
      (execAll 0 shadowedCode.stmts (logStart true)).leave 1 =
        some (.normal ⟨(logStart true).locals, ["println", "print"]⟩)) := by
  refine ⟨⟨?_, ?_, ?_⟩, ?_, ?_, ?_⟩ <;> with_unfolding_all rfl

end Lowering.Lower
