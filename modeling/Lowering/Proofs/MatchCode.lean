/-
  MatchCode — a lowered match, taken apart.

  A lowered match is the definition of its subject, its flag, the code of its clauses up to the first that always
  matches, and the panic at its end (`lowerMatch_eq`).
-/

import Lowering.Proofs.Chain
import Lowering.Proofs.Frame

namespace Lowering.Lower

open Target (Expr Stmt)

/-! ## Clauses -/

def clauseCode (env : Env) (clause : ClausePiece) (subject : Expr) (ty : Ty) (position : Position) :
    Lower ClauseCode := do
  let compiled ← compilePattern env clause.source.pattern subject ty
  withScope do
    bindAll compiled.bindings
    let compiled ← withGuard compiled clause.guard
    let body ← clauseBody clause.body position
    pure ⟨compiled, clause.source.references, body⟩

/-- The clauses up to the first that always matches. -/
def clauseCodes (env : Env) (subject : Expr) (ty : Ty) (position : Position) :
    List ClausePiece → Lower (List ClauseCode)
  | [] => pure []
  | clause :: clauses => do
    let code ← clauseCode env clause subject ty position
    if code.always then pure [code]
    else
      let codes ← clauseCodes env subject ty position clauses
      pure (code :: codes)

variable {clause : ClausePiece}

theorem withScope_map {α β : Type} (act : Lower α) (f : α → β) : withScope (do
      let a ← act
      pure (f a)) = (do
      let a ← withScope act
      pure (f a)) := by
  funext s
  simp only [withScope, bracket, Bind.bind, EStateM.bind]
  cases act { s with scope := s.scope.enter } <;> rfl

theorem lowerClause_eq : lowerClause env clause subject ty position flag = (do
      let code ← clauseCode env clause subject ty position
      pure (code.stmts flag, code.always)) := by
  unfold lowerClause clauseCode
  simp only [bind_assoc, ← withScope_map, pure_bind]
  rfl

theorem lowerClauses_eq : lowerClauses env subject ty position flag clauses = (do
      let codes ← clauseCodes env subject ty position clauses
      pure (chain flag codes, codes.any ClauseCode.always)) := by
  induction clauses with
  | nil =>
    rfl
  | cons clause clauses ih =>
    simp only [lowerClauses, clauseCodes, lowerClause_eq, bind_assoc, pure_bind]
    congr 1
    funext code
    cases hc : code.always with
    | true => simp [hc, chain]
    | false => simp [hc, ih, chain_cons]

/-! ## Matches -/

/-- The parts of a lowered match on a subject of type `ty`. -/
structure MatchCode where
  /-- Defines the subject when it cannot be evaluated repeatedly. -/
  start : List Stmt
  value : Expr
  flag : Option String
  clauses : List ClauseCode
  ty : Ty
  panics : Bool

namespace MatchCode

def flagStart (code : MatchCode) : List Stmt :=
  match code.flag with
  | some flag => [.define1 flag (.bool false)]
  | none => []

def stmts (code : MatchCode) : List Stmt :=
  code.start ++ code.flagStart ++ chain code.flag code.clauses ++
    (if code.panics then [unreachable code.ty code.flag] else [])

def covered (code : MatchCode) : Bool := code.clauses.any ClauseCode.always

end MatchCode

/-- The type of the subject and the coverage of the clauses. -/
def checkMatch (env : Env) (subject : Piece) (clauses : List ClausePiece) (position : Position)
    (span : Span) : Lower (Ty × Match.Coverage) := do
  let ty ← typeOf env subject.source
  if ty.isNil || ty.isVoid then fail .subjectType subject.source.span
  let coverage ← ofChecked (Match.checkCoverage env (clauses.map (·.source)) ty span)
  match position with
  | .tail result => checkAgreement env clauses ty result span
  | .effect => pure ()
  pure (ty, coverage)

def matchCode (env : Env) (subject : Piece) (clauses : List ClausePiece) (position : Position) (span : Span) :
    Lower MatchCode := do
  let (ty, coverage) ← checkMatch env subject clauses position span
  let (start, value) ← matchSubject subject
  let flag ← matchFlag position clauses.length
  let codes ← clauseCodes env value ty position clauses
  pure ⟨start, value, flag, codes, ty, !codes.any ClauseCode.always && coverage.needsPanic⟩

theorem lowerMatch_eq (subject : Piece) (span : Span) : lowerMatch env subject clauses position span = (do
      let code ← matchCode env subject clauses position span
      pure code.stmts) := by
  unfold lowerMatch matchCode checkMatch
  simp only [bind_assoc, lowerClauses_eq, pure_bind]
  congr 1
  funext ty
  split
  · rfl
  · simp only [bind_assoc]
    cases position with
    | effect =>
      rfl
    | tail result =>
      simp only [bind_assoc, pure_bind]
      rfl

/-! ## What a match is made from -/

variable {s s' : LowerState} {clauses : List ClausePiece} {env : Env} {span : Span} {coverage : Match.Coverage}
  {position : Position} {subject : Piece} {ty : Ty} {code : MatchCode}

theorem ofChecked_ok {α : Type} {c : Checked α} {a : α} (h : ofChecked c s = .ok a s') : c = .ok a ∧ s' = s := by
  cases c with
  | error d => cases h
  | ok b =>
    cases h
    exact ⟨rfl, rfl⟩

theorem checkAgreement_ok {subject result : Ty} (h : checkAgreement env clauses subject result span s = .ok () s') :
    s' = s := by
  obtain ⟨inf, s1, hinf, h1⟩ := bind_ok h
  cases hinf
  obtain ⟨types, s2, hask, h2⟩ := bind_ok h1
  rw [askClauses_run] at hask
  cases hask
  obtain ⟨_, s3, hchecked, h3⟩ := bind_ok h2
  exact (pure_ok h3).2.trans (ofChecked_ok hchecked).2

theorem checkMatch_ok (h : checkMatch env subject clauses position span s = .ok (ty, coverage) s') :
    Match.checkCoverage env (clauses.map (·.source)) ty span = .ok coverage ∧ s' = s := by
  obtain ⟨ty1, s1, hty, h1⟩ := bind_ok h
  have hs1 : s1 = s := by
    rw [typeOf_run] at hty
    cases hty
    rfl
  dsimp only at h1
  split at h1
  · obtain ⟨_, _, hfail, -⟩ := bind_ok h1
    cases hfail
  · obtain ⟨coverage1, s2, hcoverage, h2⟩ := bind_ok h1
    obtain ⟨hcoverage1, hs2⟩ := ofChecked_ok hcoverage
    obtain ⟨heq, hs'⟩ : (ty, coverage) = (ty1, coverage1) ∧ s' = s2 := by
      cases position with
      | effect => exact pure_ok h2
      | tail result =>
        obtain ⟨_, s3, hagree, h3⟩ := bind_ok h2
        exact ⟨(pure_ok h3).1, (pure_ok h3).2.trans (checkAgreement_ok hagree)⟩
    cases heq
    exact ⟨hcoverage1, hs'.trans (hs2.trans hs1)⟩

/-- The parts of the code, in the order they are lowered. -/
structure MatchCode.From (env : Env) (subject : Piece) (clauses : List ClausePiece)
    (position : Position) (span : Span) (s s' : LowerState) (code : MatchCode) : Prop where
  parts : ∃ s1 s2, matchSubject subject s = .ok (code.start, code.value) s1 ∧
    matchFlag position clauses.length s1 = .ok code.flag s2 ∧
    clauseCodes env code.value code.ty position clauses s2 = .ok code.clauses s'
  panics : ∃ coverage, Match.checkCoverage env (clauses.map (·.source)) code.ty span = .ok coverage ∧
    code.panics = (!code.covered && coverage.needsPanic)

theorem matchCode_from (h : matchCode env subject clauses position span s = .ok code s') :
    code.From env subject clauses position span s s' := by
  obtain ⟨⟨ty, coverage⟩, s1, hcheck, h1⟩ := bind_ok h
  obtain ⟨hcoverage, rfl⟩ := checkMatch_ok hcheck
  obtain ⟨⟨start, value⟩, s2, hsubject, h2⟩ := bind_ok h1
  obtain ⟨flag, s3, hflag, h3⟩ := bind_ok h2
  obtain ⟨codes, hcodes, rfl⟩ := map_ok h3
  exact ⟨⟨s2, s3, hsubject, hflag, hcodes⟩, ⟨coverage, hcoverage, rfl⟩⟩

/-! ## Default clauses -/

theorem mem_defaultClause {position : Nat} {clauses : List Source.Clause} {i : Nat}
    (h : Match.defaultClause env found position clauses = .ok (some i)) :
    found.isSome ∨ ∃ c ∈ clauses, Match.isDefault env c = true := by
  fun_induction Match.defaultClause env found position clauses with
  | case1 found position => exact .inl (by cases h; rfl)
  | case2 position c clauses hc ih => exact (ih h).imp_right fun ⟨c', hmem, hd⟩ => ⟨c', .tail _ hmem, hd⟩
  | case3 position c clauses hc ih => exact .inr ⟨c, .head _, hc⟩
  | case4 | case5 => cases h

theorem exists_default {clauses : List Source.Clause} {subject : Ty}
    (h : Match.checkCoverage env clauses subject span = .ok coverage) (hp : coverage.needsPanic = false) :
    ∃ c ∈ clauses, Match.isDefault env c = true := by
  simp only [Match.checkCoverage, Bind.bind, Except.bind] at h
  split at h
  · cases h
  · rename_i found hfound
    cases found with
    | some i => exact (mem_defaultClause hfound).resolve_left nofun
    | none =>
      simp only [Option.isNone_none, if_true] at h
      split at h
      · cases h
        cases hp
      · cases h
      · cases h

theorem clauseCode_pattern {subject : Expr} (hg : clause.guard = none) {code : ClauseCode}
    (h : clauseCode env clause subject ty position s = .ok code s') :
    ∃ names', Match.compile env clause.source.pattern subject ty s.names = (.ok code.pattern, names') := by
  obtain ⟨compiled, s1, hcompiled, h1⟩ := bind_ok h
  obtain ⟨s2, h2⟩ := withScope_ok h1
  obtain ⟨_, s3, -, h3⟩ := bind_ok h2
  rw [hg] at h3
  obtain ⟨guarded, s4, hguarded, h4⟩ := bind_ok h3
  obtain ⟨body, -, rfl⟩ := map_ok h4
  rw [(pure_ok hguarded).1]
  exact ⟨_, Prod.ext (ofChecked_ok hcompiled).1 rfl⟩

theorem clauseCode_default {subject : Expr} {code : ClauseCode}
    (hd : Match.isDefault env clause.source = true) (hg : clause.guard = none)
    (h : clauseCode env clause subject ty position s = .ok code s') : code.always = true := by
  obtain ⟨names', hcompiled⟩ := clauseCode_pattern hg h
  simp only [Match.isDefault, Bool.and_eq_true, Option.isNone_iff_eq_none] at hd
  obtain ⟨⟨-, hirrefutable⟩, hcall⟩ := hd
  rcases hp : clause.source.pattern with ⟨p, span⟩
  rw [hp] at hirrefutable hcall
  simp only [Match.compile, hp] at hcompiled
  unfold ClauseCode.always
  generalize code.pattern = compiled at hcompiled ⊢
  cases p with
  | wildcard =>
    simp only [Match.compileInto] at hcompiled
    cases hcompiled
    rfl
  | ident name =>
    have hname : Match.namesCompanion env name = false := by
      simpa [Match.extractorCall?] using hcall
    simp only [Match.compileInto, hname, Bool.false_eq_true, if_false] at hcompiled
    cases hcompiled
    rfl
  | _ => cases hirrefutable

theorem clauseCodes_mem {subject : Expr} {codes : List ClauseCode} {P : LowerState → Prop}
    (hkeeps : ∀ c ∈ clauses, ∀ s code s', P s → clauseCode env c subject ty position s = .ok code s' → P s')
    (hs : P s) (hclause : clause ∈ clauses)
    (h : clauseCodes env subject ty position clauses s = .ok codes s') :
    codes.any ClauseCode.always = true ∨ ∃ code ∈ codes, ∃ s1 s2, P s1 ∧
      clauseCode env clause subject ty position s1 = .ok code s2 := by
  induction clauses generalizing s codes with
  | nil => cases hclause
  | cons first clauses ih =>
    obtain ⟨code, s1, hcode, h1⟩ := bind_ok h
    split at h1
    · rename_i halways
      rw [(pure_ok h1).1]
      exact .inl (by simpa using halways)
    · obtain ⟨rest, hrest, rfl⟩ := map_ok h1
      rcases List.mem_cons.mp hclause with rfl | hclause
      · exact .inr ⟨code, .head _, s, s1, hs, hcode⟩
      · have hs1 : P s1 := hkeeps first (.head _) s code s1 hs hcode
        rcases ih (fun c hc => hkeeps c (.tail _ hc)) hs1 hclause hrest with halways | ⟨code', hcode', hlowered⟩
        · exact .inl (by simp [halways])
        · exact .inr ⟨code', .tail _ hcode', hlowered⟩

theorem matchCode_panics (hg : ∀ c ∈ clauses, c.source.guard = none → c.guard = none)
    (h : matchCode env subject clauses position span s = .ok code s') : code.panics = !code.covered := by
  have hfrom := matchCode_from h
  obtain ⟨coverage, hcoverage, hpanics⟩ := hfrom.panics
  obtain ⟨s1, s2, -, -, hcodes⟩ := hfrom.parts
  rw [hpanics]
  cases hneeds : coverage.needsPanic with
  | true => rw [Bool.and_true]
  | false =>
    obtain ⟨c, hmem, hdefault⟩ := exists_default hcoverage hneeds
    obtain ⟨clause, hclause, rfl⟩ := List.mem_map.mp hmem
    have hguard : clause.source.guard = none := by
      simp only [Match.isDefault, Bool.and_eq_true, Option.isNone_iff_eq_none] at hdefault
      exact hdefault.1.1
    have hcovered : code.covered = true := by
      rcases clauseCodes_mem (fun _ _ _ _ _ _ _ => trivial) trivial hclause hcodes with halways | ⟨c, hc, _, _, -, hrun⟩
      · exact halways
      · exact List.any_eq_true.mpr ⟨c, hc, clauseCode_default hdefault (hg clause hclause hguard) hrun⟩
    rw [hcovered]
    rfl

theorem clausePieces_guard {cs : List Source.Clause} :
    ∀ c ∈ clausePieces env cs, c.source.guard = none → c.guard = none := by
  induction cs with
  | nil => simp [clausePieces]
  | cons c cs ih =>
    simp only [clausePieces, List.forall_mem_cons]
    refine ⟨?_, ih⟩
    obtain ⟨pattern, guard, body⟩ := c
    cases guard with
    | none | some guard => simp [clausePiece]

end Lowering.Lower
