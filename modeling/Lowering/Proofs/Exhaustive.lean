/-
  Exhaustive — an exhaustive match does not reach its closing panic.

  Where every variant is covered by a clause whose arguments test nothing, some clause without a guard passes on
  the value of the subject, as long as the subject keeps its value.
-/

import Lowering.Proofs.Coverage
import Lowering.Proofs.FirstMatch

namespace Lowering.Lower

open Source (Clause Pattern)
open Target (Expr Stmt Machine State Run execAll)
open Match (Runtime Reads OlderExpr Datum boxEnv boxes)

variable {m : Machine} {rt : Runtime m} {env : Env}

/-! ## The clause of a value -/

variable {codes : List ClauseCode} {st : State m} {clauses : List Clause} {clause : ClausePiece}
  {position : Position} {s s' : LowerState} {subject : Expr} {ty : Ty} {code : MatchCode} {span : Span} {name : String}
  {d : Datum}

theorem clausePiece_source (c : Clause) : (clausePiece env c).source = c := by
  obtain ⟨pattern, guard, body⟩ := c
  cases guard <;> rfl

theorem mem_clausePieces {c : Clause} (h : c ∈ clauses) : clausePiece env c ∈ clausePieces env clauses := by
  induction clauses with
  | nil => cases h
  | cons c' clauses ih =>
    rcases List.mem_cons.mp h with rfl | h
    · exact .head _
    · exact .tail _ (ih h)

theorem compile_bindings {p : Located Pattern} {names names' : NameSupply} {compiled : Match.CompiledPattern}
    (h : Match.compile env p subject ty names = (.ok compiled, names')) :
    ∀ b ∈ compiled.bindings, p.val.binds b.1 = true := by
  obtain ⟨s', hs', -, hbound, -⟩ := Match.compile_ok h
  have hemits : Match.CompileState.Emits (fun x => p.val.binds x = true) ⟨names, [], []⟩ s' :=
    (Match.compileInto_emits env p subject ty fun _ hx => hx).ok hs'
  obtain ⟨new, hnew, hallowed⟩ := hemits.bindings
  rw [← hbound, hnew]
  exact hallowed

/-! ## The subject of a match -/

theorem matchSubject_older {subject : Piece} (ht : subject.Tidy) {start : List Stmt} {value : Expr}
    (h : matchSubject subject s = .ok (start, value) s') (holder : start = [] → OlderExpr s.names value) :
    OlderExpr s'.names value := by
  have hframed : Framed s s' := (framed.matchSubject ht).ok h
  obtain ⟨lowered, s1, -, h1⟩ := bind_ok h
  split at h1
  · cases (pure_ok h1).1
    exact (holder rfl).grows hframed.names
  · obtain ⟨tmp, htmp, ⟨⟩⟩ := map_ok h1
    cases htmp
    exact Match.olderExpr_fresh

/-- Once the subject is defined, the clauses read the value from it, whatever guards do to the
    store, and nothing they rely on is hidden. -/
structure Faces (rt : Runtime m) (s : LowerState) (code : MatchCode) (bound : Nat) (st : State m)
    (v : m.Value) : Prop where
  older : code.start = [] → OlderExpr s.names code.value
  supply : ∀ n, s.names.next ≤ n → rt.outside (s.names.stem ++ toString n) = false
  clear : ∀ st1, execAll bound (code.start ++ code.flagStart) st = some (.normal st1) → rt.Clear st1.locals
  reads : ∀ st1, execAll bound (code.start ++ code.flagStart) st = some (.normal st1) →
    ∀ store, Reads st1.locals store code.value v

theorem runFirst_passing {subject : Located Source.Expr}
    (h : matchCode env (piece env subject) (clausePieces env clauses) position span s = .ok code s')
    (hbinds : ∀ c ∈ clauses, ∀ x, c.pattern.val.binds x = true → s.names.Older x) {bound : Nat} {v : m.Value}
    (hfaces : Faces rt s code bound st v) (hhas : rt.Has v code.ty)
    (hpasses : ∃ c ∈ clauses, c.guard = none ∧ Match.Passes rt env c.pattern code.ty v) {g : State m → Run m}
    (f : State m → Run m) : code.runFirst bound f st = code.runFirst bound g st := by
  obtain ⟨c, hc, hguard, hpasses⟩ := hpasses
  obtain ⟨s1, s2, hsubject, hflag, hcodes⟩ := (matchCode_from h).parts
  have hframed1 : Framed s s1 := (framed.matchSubject (piece_tidy env subject)).ok hsubject
  have hframed2 : Framed s1 s2 := framed.matchFlag.ok hflag
  refine andThen_congr fun st1 hstart => congrArg (fun r => Run.leave r st1.locals.length) ?_
  rcases clauseCodes_mem
      (fun c hc _ _ _ hs hrun => hs.trans ((framed.clauseCode (clausePieces_tidy c hc)).ok hrun))
      (Std.Refl.refl s2 : Framed s2 s2) (mem_clausePieces hc) hcodes with
    halways | ⟨clauseCode, hmem, s3, s4, hframed3, hlowered⟩
  · exact firstMatch_always halways
  · refine firstMatch_passing ⟨clauseCode, hmem, fun store st' hfailed => ?_⟩
    have hgrows2 : s1.names.Grows s3.names := hframed2.names.trans hframed3.names
    have hgrows : s.names.Grows s3.names := hframed1.names.trans hgrows2
    obtain ⟨names', hcompiled⟩ := clauseCode_pattern
      (clausePieces_guard _ (mem_clausePieces hc) (by rw [clausePiece_source, hguard])) hlowered
    rw [clausePiece_source] at hcompiled
    have hholds : Match.Holds rt s3.names code.value code.ty ⟨st1.locals, store⟩ v :=
      { clear := hfaces.clear st1 hstart
        supply := fun n hn => by
          rw [hgrows.stem]
          exact hfaces.supply n (Nat.le_trans hgrows.next hn)
        reads := hfaces.reads st1 hstart store
        older := (matchSubject_older (piece_tidy env subject) hsubject hfaces.older).grows hgrows2
        has := hhas }
    obtain ⟨l, hl⟩ := hpasses hcompiled
      (fun b hb => (hbinds c hc b.1 (compile_bindings hcompiled b hb)).grows hgrows) hholds clauseCode.used
    cases hfailed.symm.trans hl

/-! ## Boxes -/

def boxedEntry : TypeEntry := { TypeEntry.new "" "Boxed" .sealedType with variants := ["Wrap", "Empty"] }

theorem namesVariant_boxed (h : Match.namesVariant boxEnv boxedEntry name = true) : name = "Wrap" ∨ name = "Empty" := by
  unfold Match.namesVariant at h
  cases hhead : boxEnv.type? name with
  | none =>
    rw [hhead] at h
    cases h
  | some head =>
    rw [hhead] at h
    have hmem := Match.boxEnv_type? hhead
    simp only [Match.boxTypes, List.mem_cons, List.not_mem_nil, or_false] at hmem
    rcases hmem with hmem | hmem | hmem | hmem | hmem | hmem <;>
      injection hmem with hname hentry <;> subst hentry
    · cases h
    · cases h
    · cases h
    · cases h
    · exact .inr hname
    · exact .inl hname

theorem boxed_unapply {head : TypeEntry} (h : Match.namesVariant boxEnv boxedEntry name = true)
    (hhead : boxEnv.type? name = some head) : (head.method? "Unapply").isSome = true := by
  rcases namesVariant_boxed h with rfl | rfl
  · cases hhead
    rfl
  · cases hhead
    rfl

theorem has_boxed (h : d.Has (.own "Boxed")) : (∃ a, d = .built "Wrap" [a]) ∨ d = .built "Empty" [] := by
  generalize hty : Ty.own "Boxed" = ty at h
  cases h with
  | wrap _ => exact .inl ⟨_, rfl⟩
  | empty => exact .inr rfl
  | on | off => simp [Ty.own] at hty
  | _ => cases hty

theorem boxes_built (h : d.Has (.own "Boxed")) : boxes.IsBuilt boxEnv (.own "Boxed") d := by
  intro e he _
  have he : e = boxedEntry := by
    cases he
    rfl
  subst he
  rcases has_boxed h with ⟨a, rfl⟩ | rfl
  · refine ⟨"Wrap", .head _, fun _ _ => boxed_unapply, fun site extraction hty hnames hbare hresolve => ?_⟩
    rcases Match.boxEnv_resolve hresolve with ⟨hhead, -⟩ | ⟨-, param, rfl⟩
    · rcases namesVariant_boxed hnames with hname | hname
      · exact absurd hname hhead
      · rw [hname] at hbare
        exact absurd hbare (by decide)
    · simp only [Runtime.components, Runtime.needsCast, hty]
      rfl
  · refine ⟨"Empty", .tail _ (.head _), fun _ _ => boxed_unapply, fun site extraction hty hnames hbare hresolve => ?_⟩
    rcases Match.boxEnv_resolve hresolve with ⟨hhead, param, rfl⟩ | ⟨hhead, -⟩
    · rcases namesVariant_boxed hnames with hname | hname
      · exact absurd hname hhead
      · simp only [Runtime.components, Runtime.needsCast, hty, hname]
        rfl
    · rw [hhead] at hbare
      exact absurd hbare (by decide)

/-- `case Wrap(pattern) => print(); case Empty => println()` -/
def boxClauses (pattern : Pattern) : List Clause :=
  [callClause (.extractor "Wrap" [] [unlocated pattern]) "print", callClause (.ident "Empty") "println"]

/-- The code of `x match { case Wrap(f) => print(); case Empty => println() }`. -/
def boxCode : MatchCode where
  start := []
  value := .ident "x"
  flag := some "_matched0"
  clauses := [⟨⟨[.define ["_tmp0"] (.method (.zero (.own "Wrap")) "Unapply" [.ident "x"]),
      .check (.method (.ident "_tmp0") "IsDefined" []), .bind "f" (.method (.ident "_tmp0") "Get" [])],
        [("f", .own "Flag")]⟩,
    (callClause (.extractor "Wrap" [] [unlocated (.ident "f")]) "print").references,
      [.expr (.apply (.ident "print") [])]⟩,
    ⟨⟨[.check (.method (.zero (.own "Empty")) "Unapply" [.ident "x"])], []⟩,
    (callClause (.ident "Empty") "println").references, [.expr (.apply (.ident "println") [])]⟩]
  ty := .own "Boxed"
  panics := true

def offBox : Datum := .built "Wrap" [.built "Off" []]

def offState : State Match.data := ⟨[("x", .value offBox)], ()⟩

theorem offBox_faces : Faces boxes (subjectState boxEnv (.own "Boxed")) boxCode 0 offState offBox where
  older _ x hx n _ := by
    simp only [boxCode, Expr.mentions, beq_iff_eq] at hx
    exact NameSupply.numbered_ne (by rw [← hx]; decide)
  supply _ _ := rfl
  clear _ _ _ h := by cases h
  reads st1 h store := by
    cases h
    exact Match.reads_local rfl

theorem boxClauses_plain : Match.PlainlyCovered boxEnv (boxClauses (.ident "f")) := by
  rintro e variant ⟨c, hc, hcovers⟩
  refine ⟨c, hc, hcovers, ?_⟩
  simp only [boxClauses, List.mem_cons, List.not_mem_nil, or_false] at hc
  rcases hc with rfl | rfl
  · rfl
  · rfl

theorem boxClauses_apart : FlagsApart (subjectState boxEnv (.own "Boxed")) (boxClauses (.ident "f")) := by
  refine flagsApart_subjectState rfl fun n => ?_
  simp only [boxClauses, callClause, unlocated, Clause.anyBinds, Clause.binds,
    Pattern.binds, Pattern.anyBinds, Source.Expr.binds, Source.Arg.anyBinds, Bool.or_false,
    Bool.or_eq_false_iff, beq_eq_false_iff_ne]
  exact ⟨(flagName_ne (by decide)).symm, (flagName_ne (by decide)).symm⟩

theorem boxClauses_older : ∀ c ∈ boxClauses (.ident "f"), ∀ x, c.pattern.val.binds x = true →
    (subjectState boxEnv (.own "Boxed")).names.Older x := by
  intro c hc x hx n _
  simp only [boxClauses, List.mem_cons, List.not_mem_nil, or_false] at hc
  refine NameSupply.numbered_ne ?_
  rcases hc with rfl | rfl
  all_goals
    simp only [callClause, unlocated, Pattern.binds, Pattern.anyBinds, Bool.or_false, beq_iff_eq] at hx
    rw [← hx]
    decide

/-! ## Closing panics -/

/-- Nothing is named like what the lowered match is written with: in tail position `panic`, in
    effect position its flag, which only a match of one clause does without. -/
def Placed (env : Env) (s : LowerState) (clauses : List Clause) : Position → Prop
  | .tail result => env.PanicFree ∧ result.isVoid = false ∧ Clause.anyBinds "panic" clauses = false ∧
    s.scope.find? "panic" = none
  | .effect => FlagsApart s clauses ∧ clauses.length ≠ 1

/-- In tail position, calling `panic` panics. -/
def PanicsIn (m : Machine) (st : State m) : Position → Prop
  | .tail _ => m.Panics ∧ st.locals.lookup "panic" = none
  | .effect => True

theorem execAll_placed {subject : Located Source.Expr}
    (h : matchCode env (piece env subject) (clausePieces env clauses) position span s = .ok code s')
    (hplaced : Placed env s clauses position) {bound : Nat} (hst : PanicsIn m st position) :
    (execAll bound code.stmts st).leave st.locals.length =
      (code.runFirst bound (execAll bound code.closing) st).leave st.locals.length := by
  cases position with
  | tail result =>
    obtain ⟨henv, hresult, hbinds, hscope⟩ := hplaced
    rw [execAll_tailCode hst.1 (tailCode_of_matchCode henv hresult hbinds hscope h) hst.2]
  | effect =>
    have hlone : code.lone = false := Bool.eq_false_iff.mpr fun hlone => hplaced.2 ((lone_iff h).mp hlone).1
    rw [execAll_effectCode (effectCode_of_matchCode hplaced.1 h), hlone, if_neg Bool.false_ne_true]

/-- A match that was accepted without a default, with a plain clause for every variant. On every
    value of the subject's type the pattern of an unguarded clause passes, and in the lowered match
    the panic at the end is not run: anything may stand there instead. -/
theorem coverage_neverPanics (hrt : rt.Lawful env) {clauses : List Source.Clause} {ty : Ty} {span : Span}
    {coverage : Match.Coverage} (hcover : Match.checkCoverage env clauses ty span = .ok coverage)
    (hdefault : coverage.default = none) (hplain : Match.PlainlyCovered env clauses)
    (hty : ty.isWrapper = false) {v : m.Value} (hhas : rt.Has v ty) (hbuilt : rt.IsBuilt env ty v) :
    (∃ c ∈ clauses, c.guard = none ∧ Match.Passes rt env c.pattern ty v) ∧
    ∀ {subject : Located Source.Expr} {position : Position} {s s' : LowerState} {stmts : List Stmt},
      lowerMatch env (piece env subject) (clausePieces env clauses) position span s = .ok stmts s' →
      Placed env s clauses position → (∀ c ∈ clauses, ∀ x, c.pattern.val.binds x = true → s.names.Older x) →
      ∃ code, matchCode env (piece env subject) (clausePieces env clauses) position span s = .ok code s' ∧
        stmts = code.stmts ∧ (code.ty = ty → ∀ (bound : Nat) (st : State m), PanicsIn m st position →
          Faces rt s code bound st v → ∀ otherwise : State m → Run m,
            (execAll bound stmts st).leave st.locals.length =
              (code.runFirst bound otherwise st).leave st.locals.length) := by
  have hpasses := Match.exists_passing hrt hcover hdefault hplain hty hhas hbuilt
  refine ⟨hpasses, fun h hplaced hbinds => ?_⟩
  rw [lowerMatch_eq] at h
  obtain ⟨code, hcode, rfl⟩ := map_ok h
  refine ⟨code, hcode, rfl, ?_⟩
  rintro rfl bound st hst hfaces otherwise
  rw [execAll_placed hcode hplaced hst, runFirst_passing hcode hbinds hfaces hhas hpasses _]

theorem coverage_neverPanics_boxed :
    Match.checkCoverage boxEnv (boxClauses (.ident "f")) (.own "Boxed") .synthetic = .ok ⟨none, true⟩ ∧
      lowerMatch boxEnv (piece boxEnv (unlocated (.ident "x")))
          (clausePieces boxEnv (boxClauses (.ident "f"))) .effect .synthetic
          (subjectState boxEnv (.own "Boxed")) =
          .ok boxCode.stmts { subjectState boxEnv (.own "Boxed") with names := ⟨"_tmp", 1, 1⟩ } ∧
      (∃ c ∈ boxClauses (.ident "f"), c.guard = none ∧
        Match.Passes boxes boxEnv c.pattern (.own "Boxed") offBox) ∧
      ∀ otherwise : State Match.data → Run Match.data,
        (execAll 0 boxCode.stmts offState).leave 1 = (boxCode.runFirst 0 otherwise offState).leave 1 := by
  have hcover : Match.checkCoverage boxEnv (boxClauses (.ident "f")) (.own "Boxed") .synthetic =
      .ok ⟨none, true⟩ := by
    with_unfolding_all rfl
  have hlower : lowerMatch boxEnv (piece boxEnv (unlocated (.ident "x")))
      (clausePieces boxEnv (boxClauses (.ident "f"))) .effect .synthetic (subjectState boxEnv (.own "Boxed")) =
        .ok boxCode.stmts { subjectState boxEnv (.own "Boxed") with names := ⟨"_tmp", 1, 1⟩ } := by
    with_unfolding_all rfl
  have hcode : matchCode boxEnv (piece boxEnv (unlocated (.ident "x")))
      (clausePieces boxEnv (boxClauses (.ident "f"))) .effect .synthetic (subjectState boxEnv (.own "Boxed")) =
        .ok boxCode { subjectState boxEnv (.own "Boxed") with names := ⟨"_tmp", 1, 1⟩ } := by
    with_unfolding_all rfl
  have hhas : offBox.Has (.own "Boxed") := .wrap .off
  obtain ⟨hpasses, hruns⟩ := coverage_neverPanics Match.boxes_lawful hcover rfl boxClauses_plain rfl hhas
    (boxes_built hhas)
  obtain ⟨code, hcode', -, hrun⟩ := hruns hlower ⟨boxClauses_apart, by decide⟩ boxClauses_older
  cases hcode.symm.trans hcode'
  exact ⟨hcover, hlower, hpasses, hrun rfl 0 offState trivial offBox_faces⟩

/-- `Wrap(On)` counts as covering `Wrap`, but on a box of a flag that is off no clause passes. -/
theorem nestedCompanion_panics :
    Match.checkCoverage boxEnv (boxClauses (.ident "On")) (.own "Boxed") .synthetic = .ok ⟨none, true⟩ ∧
      boxes.Has offBox (.own "Boxed") ∧ boxes.IsBuilt boxEnv (.own "Boxed") offBox ∧
      ∃ stmts, lowerMatch boxEnv (piece boxEnv (unlocated (.ident "x")))
          (clausePieces boxEnv (boxClauses (.ident "On"))) .effect .synthetic
          (subjectState boxEnv (.own "Boxed")) =
            .ok stmts { subjectState boxEnv (.own "Boxed") with names := ⟨"_tmp", 1, 1⟩ } ∧
        execAll 0 stmts offState = some (.panicked ()) :=
  ⟨by with_unfolding_all rfl, .wrap .off, boxes_built (.wrap .off), _, by with_unfolding_all rfl,
    by with_unfolding_all rfl⟩

end Lowering.Lower
