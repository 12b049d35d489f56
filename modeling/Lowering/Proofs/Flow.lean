/-
  Flow — how lowered code comes about.

  `Flow` has one constructor for each shape of the source: which parts are lowered, from which states, and how
  their code is put together. What holds of all lowered code follows by induction on it.
-/

import Lowering.Proofs.ValueCode

namespace Lowering

open Source (Clause ValDecl LambdaParam)
open Target (Expr Stmt)
open Lower (ClauseCode MatchCode piece clausePiece clausePieces stmtPiece stmtPieces)

/-! ## States -/

def LowerState.Inside (s : LowerState) (result : Ty) : Prop := ∃ synthetic outer, s.functions = ⟨result, synthetic⟩ :: outer

/-- In the same scope and in the same function, but deeper, though not beyond the limit. -/
structure LowerState.Below (env : Env) (s s' : LowerState) : Prop extends s.Alike s' where
  functions : s'.functions = s.functions
  names : s.names.Grows s'.names
  depth : s.depth < s'.depth
  limit : s'.depth ≤ env.settings.maxDepth

section

variable {env : Env} {s s1 s2 : LowerState} {result : Ty}

theorem Framed.inside (h : Framed s s1) (hs : s.Inside result) : s1.Inside result := by
  rw [LowerState.Inside, h.functions]
  exact hs

theorem Framed.enter (h : Framed s s1) : Framed { s with scope := s.scope.enter } { s1 with scope := s1.scope.enter } := by
  have hscope : s1.scope.enter = s.scope.enter := congrArg Scope.enter h.scope
  refine ⟨⟨h.functions, h.typeParams, h.depth, h.names, h.dotUsed, ?_⟩, hscope⟩
  rw [hscope]
  exact .refl _

namespace LowerState

theorem Below.trans (h : s.Below env s1) (h' : s1.Below env s2) : s.Below env s2 :=
  ⟨h.toAlike.trans h'.toAlike, h'.functions.trans h.functions, h.names.trans h'.names, Nat.lt_trans h.depth h'.depth,
    h'.limit⟩

theorem Below.inside (h : s.Below env s1) (hs : s.Inside result) : s1.Inside result := by
  rw [Inside, h.functions]
  exact hs

theorem Inside.unique {result' : Ty} (h : s.Inside result) (h' : s.Inside result') : result = result' := by
  obtain ⟨_, _, h⟩ := h
  obtain ⟨_, _, h'⟩ := h'
  cases h.symm.trans h'
  rfl

end LowerState

theorem Lower.nested_below {α : Type} {span : Span} {act : Lower α} {a : α} (h : Lower.nested env span act s = .ok a s2) :
    s.Below env { s with depth := s.depth + 1 } ∧
      ∃ s1, act { s with depth := s.depth + 1 } = .ok a s1 ∧ s1.names = s2.names := by
  refine ⟨⟨⟨rfl, rfl⟩, rfl, Std.Refl.refl s.names, Nat.lt_succ_self _, ?_⟩, ?_⟩
  · unfold Lower.nested at h
    split at h
    · cases h
    · rename_i hdepth
      exact Nat.lt_of_not_le hdepth
  · obtain ⟨s1, hact, rfl⟩ := nested_bracket h
    exact ⟨s1, hact, rfl⟩

end

/-! ## Clauses -/

namespace Lower

variable {env : Env}

variable {compiled : Match.CompiledPattern} {s s' : LowerState} {subject : Expr} {ty : Ty} {c : Clause}
    {code : ClauseCode}

theorem compilePattern_ok {p : Located Source.Pattern} (h : compilePattern env p subject ty s = .ok compiled s') : ∃ st,
      Match.compileInto env p subject ty ⟨s.names, [], []⟩ = .ok () st ∧ compiled = ⟨st.steps, st.bindings⟩ ∧
        s' = { s with names := st.names } := by
  simp only [compilePattern, Match.compile] at h
  cases hr : Match.compileInto env p subject ty ⟨s.names, [], []⟩ with
  | error d st =>
    rw [hr] at h
    cases h
  | ok u st =>
    rw [hr] at h
    cases h
    exact ⟨st, rfl, rfl, rfl⟩

def clauseState (s : LowerState) (st : Match.CompileState) : LowerState :=
  { s with scope := s.scope.enter.bindAll st.bindings, names := st.names }

/-- How a clause is lowered: its pattern, then its guard and its body where the pattern's names are bound. -/
structure ClauseFrom (env : Env) (c : Clause) (subject : Expr) (ty : Ty) (s : LowerState) (code : ClauseCode)
    (st : Match.CompileState) (cond : Option Expr) : Prop where
  compiled : Match.compileInto env c.pattern subject ty ⟨s.names, [], []⟩ = .ok () st
  used : code.used = c.references
  steps : code.pattern.steps = st.steps ++ cond.toList.map .check
  guard : ∀ v ∈ cond, ∃ g ∈ c.guard, ∃ s', (piece env g).value (some .bool) (clauseState s st) = .ok v s'
  unguarded : cond.isNone = c.guard.isNone

theorem ClauseFrom.emits {subject : Expr} {ty : Ty} {st : Match.CompileState}
    {cond : Option Expr} (h : ClauseFrom env c subject ty s code st cond) :
    Match.CompileState.Emits (fun x => c.pattern.val.binds x = true) ⟨s.names, [], []⟩ st :=
  (Match.compileInto_emits env c.pattern subject ty fun _ hx => hx).ok h.compiled

theorem withGuard_ok {guarded : Match.CompiledPattern} {guard : Option Piece}
    (h : withGuard compiled guard s = .ok guarded s') :
    ∃ cond : Option Expr, guarded.steps = compiled.steps ++ cond.toList.map .check ∧ (cond.isNone = guard.isNone) ∧
        ∀ c ∈ cond, ∃ g ∈ guard, ∃ s1, g.value (some .bool) s = .ok c s1 := by
  cases guard with
  | none =>
    rw [(pure_ok h).1]
    exact ⟨none, (List.append_nil _).symm, rfl, by simp⟩
  | some g =>
    obtain ⟨cond, hcond, rfl⟩ := map_ok h
    refine ⟨some cond, rfl, rfl, ?_⟩
    rintro c ⟨rfl⟩
    exact ⟨g, rfl, s', hcond⟩

theorem clausePiece_eq : clausePiece env c = ⟨c, c.guard.map (piece env), piece env c.body⟩ := by
  obtain ⟨pattern, guard, body⟩ := c
  cases guard <;> simp only [clausePiece, Option.map_none, Option.map_some]

theorem clauseCode_ok {position : Position}
    (h : clauseCode env (clausePiece env c) subject ty position s = .ok code s') :
    ∃ st cond s1 s2, ClauseFrom env c subject ty s code st cond ∧ Framed (clauseState s st) s1 ∧
      clauseBody (piece env c.body) position s1 = .ok code.body s2 ∧ s2.names = s'.names := by
  have htidy := clausePiece_tidy env c
  rw [clausePiece_eq] at h htidy
  obtain ⟨compiled, s1, hcompiled, h⟩ := bind_ok h
  obtain ⟨st, hst, rfl, rfl⟩ := compilePattern_ok hcompiled
  obtain ⟨s2, hrun, rfl⟩ := bracket_ok h
  obtain ⟨u, s3, hbound, hrun⟩ := bind_ok hrun
  cases hbound
  obtain ⟨guarded, s4, hguarded, hrun⟩ := bind_ok hrun
  obtain ⟨body, hbody, rfl⟩ := map_ok hrun
  obtain ⟨cond, hsteps, hnone, hcond⟩ := withGuard_ok hguarded
  refine ⟨st, cond, s4, _, ⟨hst, rfl, hsteps, fun v hv => ?_, ?_⟩,
    (framed.withGuard htidy.guard).ok hguarded, hbody, rfl⟩
  · obtain ⟨g, hg, s', hv⟩ := hcond v hv
    obtain ⟨guard, hguard, rfl⟩ := Option.map_eq_some_iff.mp hg
    exact ⟨guard, hguard, s', hv⟩
  · rw [hnone, Option.isNone_map]

end Lower

/-! ## Flow -/

inductive Task where
  | value (e : Located Source.Expr) (v : Expr)
  | expr (e : Located Source.Expr)
  /-- The expression is the whole body of a function. -/
  | body (e : Located Source.Expr)
  | matchOn (subject : Located Source.Expr) (clauses : List Clause)
  /-- Clauses of a match on a value, and the code that each is lowered to. -/
  | clauses (subject : Expr) (ty : Ty) (flag : Option String) (clauses : List Clause) (codes : List ClauseCode)
  | stmts (stmts : List (Located Source.Stmt))
  /-- A statement and those after it in its block. -/
  | stmt (later : List Source.Stmt) (stmt : Located Source.Stmt)

/-- From a state, in effect position or (`tail`) in tail position, the task is lowered to the statements, and
    then the supply of names is left. A value leaves any supply. -/
inductive Flow (env : Env) : LowerState → Bool → Task → List Stmt → NameSupply → Prop
  | reached {s : LowerState} {s1 tail task out names} (hs : Framed s s1)
      (h : Flow env s1 tail task out names) : Flow env s tail task out names
  | operand {s : LowerState} {s1 s'} {e : Located Source.Expr} {v names} (hs : s.Below env s1)
      (hcode : Lower.ValueCode env s1 s' e.val v)
      (h : ∀ p ∈ e.val.operands, ∀ v, (piece env p).Gives s1 v → Flow env s1 false (.value p v) [] names) :
      Flow env s false (.value e v) [] names
  | lambda {s s1 : LowerState} {params : List LambdaParam} {body : Located Source.Expr} {span}
      {fields : List Target.Field} {result : Ty} {out inner names} (hs : s.Below env s1)
      (hgives : (piece env ⟨.lambda params body, span⟩).Gives s (.funcLit fields result.results out))
      (h : Flow env { s1.inLambda (fields.map fun f => (f.name, f.ty)) with functions := ⟨result, false⟩ :: s1.functions }
        (!result.isVoid) (.body body) out inner) :
      Flow env s false (.value ⟨.lambda params body, span⟩ (.funcLit fields result.results out)) [] names
  | caseFunction {s s1 : LowerState} {clauses : List Clause} {span} {param : Ty} {results : List Ty} {out inner names}
      (hs : s.Below env s1)
      (hgives : (piece env ⟨.caseFunction clauses, span⟩).Gives s (.funcLit [⟨s1.names.fresh.1, param⟩] results out))
      (h : Flow env (Lower.caseState s1 param (results.headD .void)) (!(results.headD .void).isVoid)
        (.matchOn ⟨.ident s1.names.fresh.1, span⟩ clauses) out inner) :
      Flow env s false (.value ⟨.caseFunction clauses, span⟩ (.funcLit [⟨s1.names.fresh.1, param⟩] results out)) [] names
  /-- Statements that return a value, called in its place. -/
  | inPlace {s s1 : LowerState} {e : Located Source.Expr} {ty : Ty} {out inner names}
      (hs : s.Below env s1) (hvoid : ty.isVoid = false)
      (h : Flow env { s1 with functions := ⟨ty, true⟩ :: s1.functions } true (.expr e) out inner) :
      Flow env s false (.value e (.invoked ty.results out)) [] names
  | single {s : LowerState} {s1} {e : Located Source.Expr} {inner outer v names}
      (hs : s.Below env s1) (h : Flow env s1 false (.value e v) [] names) :
      Flow env s false (.value ⟨.block [⟨.expr e, inner⟩], outer⟩ v) [] names
  /-- A value is dropped, unless it is in tail position; a panic is dropped there too. -/
  | dropped {s : LowerState} {s1 tail} {e : Located Source.Expr} {v names}
      (hvalue : e.val.isValue = true) (hpanic : tail = true → Lower.isPanic e.val = true) (hs : s.Below env s1)
      (hgives : (piece env e).Gives s1 v) (hv : Flow env s1 false (.value e v) [] names) (hnames : s.names.Grows names) :
      Flow env s tail (.expr e) [Lower.discard v] names
  | returned {s : LowerState} {s1} {e : Located Source.Expr} {v names} (hvalue : e.val.isValue = true)
      (hs : s.Below env s1) (hv : Flow env s1 false (.value e v) [] names) (hnames : s.names.Grows names) :
      Flow env s true (.expr e) [.ret1 v] names
  | ifElse {s : LowerState} {s1} {s2 : LowerState} {tail cond} {thenBranch elseBranch : Located Source.Expr}
      {span c t} {e : List Stmt} {names} (hs : s.Below env s1) (hc : Flow env s1 false (.value cond c) [] names)
      (ht : Flow env s1 tail (.expr thenBranch) t s2.names) (hs2 : Framed s1 s2)
      (he : Flow env s2 tail (.expr elseBranch) e names) :
      Flow env s tail (.expr ⟨.ifElse cond thenBranch (some elseBranch), span⟩) [.ifElse c t e] names
  | ifOnly {s : LowerState} {s1 cond} {thenBranch : Located Source.Expr} {span c t names}
      (hs : s.Below env s1) (hc : Flow env s1 false (.value cond c) [] names)
      (ht : Flow env s1 false (.expr thenBranch) t names) :
      Flow env s false (.expr ⟨.ifElse cond thenBranch none, span⟩) [.ifElse c t []] names
  | matched {s : LowerState} {s1 tail subject} {clauses : List Clause} {span out names} (hs : s.Below env s1)
      (h : Flow env s1 tail (.matchOn subject clauses) out names) :
      Flow env s tail (.expr ⟨.matchOn subject clauses, span⟩) out names
  | braces {s : LowerState} {s1 tail} {stmts : List (Located Source.Stmt)} {span out names}
      (hs : s.Below env s1) (h : Flow env s1 tail (.body ⟨.block stmts, span⟩) out names) :
      Flow env s tail (.expr ⟨.block stmts, span⟩) [.block out] names
  | bodyExpr {s : LowerState} {tail} {e : Located Source.Expr} {out names}
      (hblock : ∀ stmts, e.val ≠ .block stmts) (h : Flow env s tail (.expr e) out names) : Flow env s tail (.body e) out names
  | bodyBlock {s : LowerState} {tail} {stmts : List (Located Source.Stmt)} {span out names}
      (h : Flow env { s with scope := s.scope.enter } tail (.stmts stmts) out names)
      (hends : tail = true → Stmt.terminates out = true) : Flow env s tail (.body ⟨.block stmts, span⟩) out names
  | match {s : LowerState} {s1 s2 s' subject} {clauses : List Clause} {result : Ty} {span} {code : MatchCode} {names}
      (hcode : Lower.matchCode env (piece env subject) (clausePieces env clauses) (.ofResult result) span s = .ok code s')
      (hsubject : ∀ v, (piece env subject).Gives s v → Flow env s false (.value subject v) [] names)
      (hstart : Lower.matchSubject (piece env subject) s = .ok (code.start, code.value) s1)
      (hflag : Lower.matchFlag (.ofResult result) clauses.length s1 = .ok code.flag s2) (hs2 : Framed s s2)
      (h : Flow env s2 (!result.isVoid) (.clauses code.value code.ty code.flag clauses code.clauses)
        (Lower.chain code.flag code.clauses) names) :
      Flow env s (!result.isVoid) (.matchOn subject clauses) code.stmts names
  | noClause {s : LowerState} {tail subject ty flag names}
      (hnames : s.names.Grows names) : Flow env s tail (.clauses subject ty flag [] []) [] names
  | clause {s s1 : LowerState} {tail subject ty flag} {c : Clause} {cs} {code : ClauseCode} {st cond codes names}
      (hcode : Lower.ClauseFrom env c subject ty s code st cond)
      (hguard : ∀ g ∈ c.guard, ∀ v, (piece env g).Gives (Lower.clauseState s st) v →
        Flow env (Lower.clauseState s st) false (.value g v) [] names)
      (hbody : Flow env (Lower.clauseState s st) tail (.expr c.body) code.body s1.names) (hs1 : Framed s s1)
      (hnames : s1.names.Grows names) (hlast : code.always = true → codes = [])
      (hrest : code.always = false → Flow env s1 tail (.clauses subject ty flag cs codes) (Lower.chain flag codes) names) :
      Flow env s tail (.clauses subject ty flag (c :: cs) (code :: codes)) (Lower.chain flag (code :: codes)) names
  | done {s : LowerState} {tail names} (hnames : s.names.Grows names) :
      Flow env s tail (.stmts []) [] names
  | result {s : LowerState} {e : Located Source.Expr} {span out names}
      (h : Flow env s true (.expr e) out names) : Flow env s true (.stmts [⟨.expr e, span⟩]) out names
  | cons {s s' : LowerState} {tail} {stmt : Located Source.Stmt} {later : List (Located Source.Stmt)} {a b names}
      (hlast : tail = true → later = [] → ∀ e, stmt.val ≠ .expr e)
      (hstmt : Flow env s false (.stmt (later.map (·.val)) stmt) a s'.names)
      (hs : (stmtPiece env stmt).run (later.map (·.val)) s = .ok a s')
      (hlater : Flow env s' tail (.stmts later) b names) :
      Flow env s tail (.stmts (stmt :: later)) (a ++ b) names
  /-- A local that nothing later mentions is touched. -/
  | val {s s' : LowerState} {later : List Source.Stmt} {decl : ValDecl} {span out}
      (hcode : Lower.lowerLocal env decl (piece env decl.value) s = .ok out s')
      (h : ∀ v, (piece env decl.value).Gives s v → Flow env s false (.value decl.value v) [] s'.names) :
      Flow env s false (.stmt later ⟨.val decl, span⟩)
        (if later.any (·.references decl.name.val) then out else out ++ [.discard (.ident decl.name.val)]) s'.names
  | assign {s : LowerState} {s1 later} {target value : Located Source.Expr} {op span place v names}
      (hplace : Lower.assignTarget env (piece env target) span s = .ok place s1)
      (h : ∀ p ∈ target.val.parts, ∀ v, (piece env p).Gives s v → Flow env s false (.value p v) [] names)
      (hv : Flow env s false (.value value v) [] names) (hnames : s.names.Grows names) :
      Flow env s false (.stmt later ⟨.assign target op value, span⟩) [.assign [place.1] op [v]] names
  | expr {s : LowerState} {later} {e : Located Source.Expr} {span out names}
      (h : Flow env s false (.expr e) out names) : Flow env s false (.stmt later ⟨.expr e, span⟩) out names
  | ret {s : LowerState} {later span} {result : Ty} (hresult : s.Inside result)
      (hvoid : result.isVoid = true) : Flow env s false (.stmt later ⟨.ret none, span⟩) [.ret []] s.names
  | retEffect {s : LowerState} {later} {e : Located Source.Expr} {span out} {result : Ty} {names}
      (hresult : s.Inside result) (hvoid : result.isVoid = true)
      (h : Flow env s false (.expr e) out names) : Flow env s false (.stmt later ⟨.ret (some e), span⟩) (out ++ [.ret []]) names
  | retValue {s : LowerState} {later} {e : Located Source.Expr} {span out} {result : Ty} {names}
      (hresult : s.Inside result) (hvoid : result.isVoid = false)
      (h : Flow env s true (.expr e) out names) : Flow env s false (.stmt later ⟨.ret (some e), span⟩) out names
  | loop {s : LowerState} {later cond} {body : List (Located Source.Stmt)} {span c out names}
      (hc : Flow env s false (.value cond c) [] names)
      (h : Flow env { s with scope := s.scope.enter } false (.stmts body) out names) :
      Flow env s false (.stmt later ⟨.loop cond body, span⟩) [.loop (some c) out] names

def FlowsAs (env : Env) (result : Ty) (task : Task) (act : Lower (List Stmt)) : Prop :=
  ∀ s out s', act s = .ok out s' → Flow env s (!result.isVoid) task out s'.names

def FlowsBelow (env : Env) (result : Ty) (task : Task) (act : Lower (List Stmt)) : Prop :=
  ∀ s s1 out s', s.Below env s1 → act s1 = .ok out s' → Flow env s (!result.isVoid) task out s'.names

/-- What a piece is lowered to in each position. -/
structure Piece.Follows (env : Env) (e : Located Source.Expr) (p : Piece) : Prop where
  value : ∀ expected s v s' names, p.value expected s = .ok v s' → Flow env s false (.value e v) [] names
  tail : ∀ result, FlowsAs env result (.expr e) (p.tail result)
  effect : FlowsAs env .void (.expr e) p.effect
  body : ∀ result, FlowsAs env result (.body e) (p.body result)

structure StmtPiece.Follows (env : Env) (stmt : Located Source.Stmt) (p : StmtPiece) : Prop where
  run : ∀ later, FlowsAs env .void (.stmt later stmt) (p.run later)
  expr : ∀ e ∈ p.expr, ∃ e', stmt.val = .expr e' ∧ e.Follows env e'

theorem Piece.Follows.gives {env : Env} {e : Located Source.Expr} {p : Piece} (h : p.Follows env e) {s : LowerState}
    {v : Expr} (hv : p.Gives s v) (names : NameSupply) : Flow env s false (.value e v) [] names := by
  obtain ⟨expected, s1, s2, hs, hv⟩ := hv
  exact .reached hs (h.value _ _ _ _ _ hv)

section

variable {env : Env} {result : Ty} {task : Task} {act effect : Lower (List Stmt)}

theorem FlowsAs.nested {span : Span} (h : FlowsBelow env result task act) :
    FlowsAs env result task (Lower.nested env span act) := by
  intro s out s' hrun
  obtain ⟨hbelow, s1, hrun, hnames⟩ := Lower.nested_below hrun
  exact hnames ▸ h _ _ _ _ hbelow hrun

theorem FlowsAs.orEffect (he : FlowsAs env .void task effect) (h : result.isVoid = false → FlowsAs env result task act) :
    FlowsAs env result task (if result.isVoid then effect else act) := by
  intro s out s' hrun
  split at hrun
  · rename_i hvoid
    rw [hvoid]
    exact he _ _ _ hrun
  · rename_i hvoid
    exact h (Bool.eq_false_iff.mpr hvoid) _ _ _ hrun

end

namespace Lower

variable {env : Env}

abbrev Follows (env : Env) (e : Located Source.Expr) : Prop := (piece env e).Follows env e

abbrev AllFollow (env : Env) (stmts : List (Located Source.Stmt)) : Prop :=
  ∀ st ∈ stmts, (stmtPiece env st).Follows env st

/-! ## Values -/

variable {e cond subject : Located Source.Expr} {span : Span} {clauses : List Clause} {result : Ty}
  {s s' : LowerState} {out : List Stmt} {stmts : List (Located Source.Stmt)}

theorem value_follows (hvalue : e.val.isValue = true)
    (hgives : ∀ expected s v s' names, (piece env e).value expected s = .ok v s' → Flow env s false (.value e v) [] names) :
    Follows env e := by
  have htidy := piece_tidy env e
  obtain ⟨value, parts, hpiece⟩ := piece_isValue hvalue
  have heffect : ∀ s out s', (piece env e).effect s = .ok out s' → ∃ s1 v, s.Below env s1 ∧ out = [discard v] ∧
      (piece env e).Gives s1 v ∧ (∀ names, Flow env s1 false (.value e v) [] names) ∧ s.names.Grows s'.names := by
    intro s out s' h
    have hnames := (htidy.effect.ok h).names
    have hrun : (piece env e).effect = nested env e.span (do
        let v ← (piece env e).value none
        pure [discard v]) := by
      rw [hpiece]
      rfl
    rw [hrun] at h
    obtain ⟨hs, s1, h, -⟩ := nested_below h
    obtain ⟨v, s2, hv, h⟩ := bind_ok h
    exact ⟨_, v, hs, (pure_ok h).1, .intro hv, fun _ => hgives _ _ _ _ _ hv, hnames⟩
  have hdropped : FlowsAs env .void (.expr e) (piece env e).effect := by
    intro s out s' h
    obtain ⟨s1, v, hs, rfl, hv, hflow, hnames⟩ := heffect _ _ _ h
    exact .dropped hvalue nofun hs hv (hflow _) hnames
  have htail : ∀ result, FlowsAs env result (.expr e) ((piece env e).tail result) := by
    intro result
    have hrun : (piece env e).tail result = if result.isVoid then (piece env e).effect else nested env e.span (do
        if isPanic e.val then (piece env e).effect
        else
          let v ← (piece env e).value (some result)
          pure [.ret1 v]) := by
      rw [hpiece]
      rfl
    rw [hrun]
    refine .orEffect hdropped fun hvoid => .nested fun s s1 out s' hs h => ?_
    rw [hvoid]
    split at h
    · rename_i hpanic
      obtain ⟨s2, v, hs', rfl, hv, hflow, hnames⟩ := heffect _ _ _ h
      exact .dropped hvalue (fun _ => hpanic) (hs.trans hs') hv (hflow _) (hs.names.trans hnames)
    · obtain ⟨v, hv, rfl⟩ := map_ok h
      exact .returned hvalue hs (hgives _ _ _ _ _ hv) (hs.names.trans ((htidy.value _).ok hv).names)
  have hbody : (piece env e).body = (piece env e).tail := by
    rw [hpiece]
    rfl
  refine ⟨hgives, htail, hdropped, fun result => ?_⟩
  rw [hbody]
  refine fun _ _ _ h => .bodyExpr (fun stmts heq => ?_) (htail result _ _ _ h)
  rw [heq] at hvalue
  cases hvalue

theorem operand_follows (hvalue : e.val.isValue = true) {value : Option Ty → Lower Expr} {parts : List Piece}
    (hpiece : piece env e = .ofValue env e value parts)
    (hcode : ∀ expected s v s', value expected s = .ok v s' → ValueCode env s s' e.val v)
    (h : ∀ p ∈ e.val.operands, Follows env p) : Follows env e := by
  refine value_follows hvalue fun expected s v s' names hrun => ?_
  rw [hpiece] at hrun
  obtain ⟨hs, s1, hrun, -⟩ := nested_below hrun
  exact .operand hs (hcode _ _ _ _ hrun) fun p hp v hv => (h p hp).gives hv names

theorem lambda_follows {params : List LambdaParam} {body : Located Source.Expr} (hbody : Follows env body) :
    Follows env ⟨.lambda params body, span⟩ := by
  refine value_follows rfl fun expected s v s' names h => ?_
  have hgives := Piece.Gives.intro h
  obtain ⟨hs, s1, h, -⟩ := nested_below h
  obtain ⟨fields, result, stmts, s2, -, -, hrun, rfl⟩ := lowerLambda_ok h
  exact .lambda hs hgives (hbody.body result _ _ _ hrun)

/-! ## Statements in the place of a value -/

section

variable {e : Located Source.Expr} {tail : Ty → Lower (List Stmt)} {effect : Lower (List Stmt)}

theorem ofStmts_tail (ht : ∀ result, result.isVoid = false → FlowsBelow env result (.expr e) (tail result))
    (he : FlowsBelow env .void (.expr e) effect) (result : Ty) :
    FlowsAs env result (.expr e) ((Piece.ofStmts env e tail effect).tail result) :=
  .orEffect (.nested he) fun hvoid => .nested (ht result hvoid)

theorem ofStmts_value (h : ∀ result, FlowsAs env result (.expr e) ((Piece.ofStmts env e tail effect).tail result))
    {expected : Option Ty} {s s' : LowerState} {v : Expr} {names : NameSupply}
    (hrun : (Piece.ofStmts env e tail effect).value expected s = .ok v s') : Flow env s false (.value e v) [] names := by
  obtain ⟨hs, s1, hinvoked, -⟩ := nested_below hrun
  obtain ⟨ty, body, s2, -, hvoid, hbody, rfl⟩ := invokeInPlace_ok hinvoked
  have hvoid : ty.orAny.isVoid = false := by
    unfold Ty.orAny
    split
    · rfl
    · exact hvoid
  have hflow := h ty.orAny _ _ _ hbody
  rw [hvoid] at hflow
  exact .inPlace hs hvoid hflow

theorem ofStmts_follows (hblock : ∀ stmts, e.val ≠ .block stmts)
    (ht : ∀ result, result.isVoid = false → FlowsBelow env result (.expr e) (tail result))
    (he : FlowsBelow env .void (.expr e) effect) : (Piece.ofStmts env e tail effect).Follows env e :=
  ⟨fun _ _ _ _ names h => ofStmts_value (ofStmts_tail ht he) h, ofStmts_tail ht he, .nested he,
    fun result _ _ _ h => .bodyExpr hblock (ofStmts_tail ht he result _ _ _ h)⟩

end

theorem ifPiece_follows {thenBranch : Located Source.Expr} {elseBranch : Option (Located Source.Expr)}
    (hc : Follows env cond) (ht : Follows env thenBranch)
    (he : ∀ e ∈ elseBranch, Follows env e) :
    (ifPiece env ⟨.ifElse cond thenBranch elseBranch, span⟩ (piece env cond) (piece env thenBranch)
      (elseBranch.map (piece env))).Follows env ⟨.ifElse cond thenBranch elseBranch, span⟩ := by
  have hctidy := piece_tidy env cond
  have htidy := piece_tidy env thenBranch
  refine ofStmts_follows nofun (fun result hvoid s s0 out s' hs h => ?_) fun s s0 out s' hs h => ?_
  · cases elseBranch with
    | none => cases h
    | some elseBranch =>
      obtain ⟨c, s1, hcond, h⟩ := bind_ok h
      obtain ⟨t, s2, ht', h⟩ := bind_ok h
      obtain ⟨e, he', rfl⟩ := map_ok h
      have hs1 : Framed s0 s1 := (hctidy.value _).ok hcond
      have hs2 : Framed s0 s2 := hs1.trans ((htidy.tail _).ok ht')
      exact .ifElse hs (hc.value _ _ _ _ _ hcond) (.reached hs1 (ht.tail _ _ _ _ ht')) hs2 ((he _ rfl).tail _ _ _ _ he')
  · obtain ⟨c, s1, hcond, h⟩ := bind_ok h
    obtain ⟨t, s2, ht', h⟩ := bind_ok h
    have hs1 : Framed s0 s1 := (hctidy.value _).ok hcond
    cases elseBranch with
    | none =>
      obtain ⟨rfl, rfl⟩ := pure_ok h
      exact .ifOnly hs (hc.value _ _ _ _ _ hcond) (.reached hs1 (ht.effect _ _ _ ht'))
    | some elseBranch =>
      have hs2 : Framed s0 s2 := hs1.trans (htidy.effect.ok ht')
      obtain ⟨e, he', rfl⟩ := map_ok h
      exact .ifElse hs (hc.value _ _ _ _ _ hcond) (.reached hs1 (ht.effect _ _ _ ht')) hs2 ((he _ rfl).effect _ _ _ he')

/-! ## Matches -/

abbrev FollowsClause (env : Env) (c : Clause) : Prop :=
  (∀ g ∈ c.guard, Follows env g) ∧ Follows env c.body

theorem clauseBody_flow (he : Follows env e) :
    FlowsAs env result (.expr e) (clauseBody (piece env e) (.ofResult result)) := by
  intro s out s' h
  unfold Position.ofResult at h
  split at h
  · rename_i hvoid
    rw [hvoid]
    exact he.effect _ _ _ h
  · exact he.tail result _ _ _ h

theorem clauses_flow (hcs : ∀ c ∈ clauses, FollowsClause env c) {subject : Expr} {ty : Ty} {flag : Option String}
    {codes : List ClauseCode}
    (h : clauseCodes env subject ty (.ofResult result) (clausePieces env clauses) s = .ok codes s') :
    Flow env s (!result.isVoid) (.clauses subject ty flag clauses codes) (chain flag codes) s'.names := by
  induction clauses generalizing s s' codes with
  | nil =>
    obtain ⟨rfl, rfl⟩ := pure_ok h
    exact .noClause (Std.Refl.refl _)
  | cons c clauses ih =>
    obtain ⟨⟨hguard, hbody⟩, hcs⟩ := List.forall_mem_cons.mp hcs
    obtain ⟨code, s1, hcode, h⟩ := bind_ok h
    have hs1 : Framed s s1 := (framed.clauseCode (clausePiece_tidy env c)).ok hcode
    obtain ⟨st, cond, s2, s3, hfrom, hs2, hrun, hnames⟩ := clauseCode_ok hcode
    have hflow := Flow.reached hs2 (hnames ▸ clauseBody_flow hbody _ _ _ hrun)
    have hguard := fun g hg v hv => (hguard g hg).gives (s := clauseState s st) (v := v) hv s'.names
    split at h
    · rename_i halways
      obtain ⟨rfl, rfl⟩ := pure_ok h
      exact .clause hfrom hguard hflow hs1 (Std.Refl.refl _) (fun _ => rfl) fun hnot => by cases halways.symm.trans hnot
    · rename_i halways
      obtain ⟨rest, hrest, rfl⟩ := map_ok h
      have hs4 := (framed.clauseCodes clausePieces_tidy).ok hrest
      exact .clause hfrom hguard hflow hs1 hs4.names (fun hyes => absurd hyes halways) fun _ => ih hcs hrest

theorem length_clausePieces (cs : List Clause) : (clausePieces env cs).length = cs.length := by
  induction cs with
  | nil => simp [clausePieces]
  | cons c cs ih => simp [clausePieces, ih]

theorem match_flow (hsubject : Follows env subject) (hcs : ∀ c ∈ clauses, FollowsClause env c)
    (result : Ty) (span : Span) :
    FlowsAs env result (.matchOn subject clauses)
      (lowerMatch env (piece env subject) (clausePieces env clauses) (.ofResult result) span) := by
  intro s out s' h
  rw [lowerMatch_eq] at h
  obtain ⟨code, hcode, rfl⟩ := map_ok h
  obtain ⟨⟨s2, s3, hstart, hflag, hcodes⟩, -⟩ := matchCode_from hcode
  have hs3 : Framed s s3 := ((framed.matchSubject (piece_tidy env subject)).ok hstart).trans
    (framed.matchFlag.ok hflag)
  rw [length_clausePieces] at hflag
  exact .match hcode (fun v hv => hsubject.gives hv _) hstart hflag hs3 (clauses_flow hcs hcodes)

theorem matchPiece_follows (hsubject : Follows env subject) (hcs : ∀ c ∈ clauses, FollowsClause env c) :
    (matchPiece env ⟨.matchOn subject clauses, span⟩ (piece env subject) (clausePieces env clauses)).Follows env
      ⟨.matchOn subject clauses, span⟩ := by
  have hmatch := fun result => match_flow hsubject hcs result span
  refine ofStmts_follows nofun (fun result hvoid s s1 out s' hs h => ?_) fun s s1 out s' hs h =>
    .matched hs (hmatch .void _ _ _ h)
  refine .matched hs (hmatch result s1 out s' ?_)
  rw [Position.ofResult, hvoid]
  exact h

theorem ident_follows (env : Env) (name : String) (span : Span) :
    Follows env ⟨.ident name, span⟩ := by
  refine operand_follows rfl (by simp only [piece, identPiece]; rfl) (fun expected s v s' h => ?_) nofun
  exact .name (lowerIdent_code h)

theorem caseFunction_follows (hcs : ∀ c ∈ clauses, FollowsClause env c) :
    Follows env ⟨.caseFunction clauses, span⟩ := by
  refine value_follows rfl fun expected s v s' names h => ?_
  have hgives := Piece.Gives.intro h
  obtain ⟨hs, s1, h, -⟩ := nested_below h
  obtain ⟨param, results, body, s2, -, hrun, rfl⟩ := lowerCaseFunction_ok h
  have hmatch := match_flow (ident_follows env s.names.fresh.1 span) hcs (results.headD .void) span
  exact .caseFunction hs hgives (hmatch _ _ _ hrun)

/-! ## Statements -/

theorem valStmt_follows {decl : ValDecl} (hvalue : Follows env decl.value) :
    (valStmt env decl (piece env decl.value)).Follows env ⟨.val decl, span⟩ := by
  refine ⟨fun later s out s' h => ?_, nofun⟩
  obtain ⟨stmts, hlocal, rfl⟩ := map_ok h
  exact .val hlocal fun v hv => hvalue.gives hv _

theorem assignStmt_follows {target value : Located Source.Expr} (op : Option BinaryOp)
    (hparts : ∀ p ∈ target.val.parts, Follows env p) (hvalue : Follows env value) :
    (assignStmt env (piece env target) op (piece env value) span).Follows env ⟨.assign target op value, span⟩ := by
  refine ⟨fun later s out s' h => ?_, nofun⟩
  obtain ⟨place, s1, hplace, h⟩ := bind_ok h
  obtain ⟨v, hv, rfl⟩ := map_ok h
  have hs1 : Framed s s1 := (framed.assignTarget (piece_tidy env target)).ok hplace
  exact .assign hplace (fun p hp v hv => (hparts p hp).gives hv _) (.reached hs1 (hvalue.value _ _ _ _ _ hv))
    (hs1.names.trans (((piece_tidy env value).value _).ok hv).names)

theorem returnStmt_follows {value : Option (Located Source.Expr)} (hvalue : ∀ v ∈ value, Follows env v)
    (span : Span) : (returnStmt (value.map (piece env)) span).Follows env ⟨.ret value, span⟩ := by
  refine ⟨fun later s out s' h => ?_, nofun⟩
  obtain ⟨s0, s1, hget, h⟩ := bind_ok h
  cases hget
  cases hfunctions : s.functions with
  | nil =>
    rw [hfunctions] at h
    cases h
  | cons function outer =>
    rw [hfunctions] at h
    have hinside : s.Inside function.result := ⟨function.synthetic, outer, hfunctions⟩
    obtain ⟨-, h⟩ := check_ok h
    cases value with
    | none =>
      dsimp only [Option.map_none] at h
      split at h
      · rename_i hvoid
        obtain ⟨rfl, rfl⟩ := pure_ok h
        exact .ret hinside hvoid
      · cases h
    | some value =>
      simp only [Option.map_some] at h
      split at h
      · rename_i hvoid
        obtain ⟨stmts, hstmts, rfl⟩ := map_ok h
        exact .retEffect hinside hvoid ((hvalue value rfl).effect _ _ _ hstmts)
      · rename_i hvoid
        have hvoid := Bool.eq_false_iff.mpr hvoid
        have hflow := (hvalue value rfl).tail _ _ _ _ h
        rw [hvoid] at hflow
        exact .retValue hinside hvoid hflow

/-! ## Blocks -/

theorem stmtPiece_source (stmt : Located Source.Stmt) : (stmtPiece env stmt).source = stmt.val := by
  obtain ⟨stmt, span⟩ := stmt
  cases stmt with
  | val decl =>
    obtain ⟨name, mutable, ty, value⟩ := decl
    simp only [stmtPiece, valStmt]
  | assign target op value => simp only [stmtPiece, assignStmt, piece_source]
  | expr e => simp only [stmtPiece, exprStmt, piece_source]
  | ret value => cases value <;> simp only [stmtPiece, returnStmt, Option.map_none, Option.map_some, piece_source]
  | loop cond body => simp only [stmtPiece, loopStmt]

theorem stmtPieces_source : (stmtPieces env stmts).map (·.source) = stmts.map (·.val) := by
  induction stmts with
  | nil => simp [stmtPieces]
  | cons stmt stmts ih => simp [stmtPieces, stmtPiece_source, ih]

theorem run_declares {stmt : Located Source.Stmt} {later : List Source.Stmt}
    (h : (stmtPiece env stmt).run later s = .ok out s') : Declares stmt.val s s' := by
  have hdeclares := (stmtPiece_tidy.run later).ok h
  rwa [stmtPiece_source] at hdeclares

theorem stmts_flow (hstmts : AllFollow env stmts) :
    FlowsAs env result (.stmts stmts) (lowerStmts result (stmtPieces env stmts)) := by
  intro s out s' h
  induction stmts generalizing s out s' with
  | nil =>
    obtain ⟨rfl, rfl⟩ := pure_ok h
    exact .done (Std.Refl.refl _)
  | cons stmt later ih =>
    obtain ⟨hstmt, hlater⟩ := List.forall_mem_cons.mp hstmts
    cases later with
    | nil =>
      have hrun : ((!result.isVoid) = true → ∀ e, stmt.val ≠ .expr e) → (stmtPiece env stmt).run [] s = .ok out s' →
          Flow env s (!result.isVoid) (.stmts [stmt]) out s'.names := by
        intro hlast h
        have hflow : Flow env s (!result.isVoid) (.stmts [stmt]) (out ++ []) s'.names :=
          .cons (fun htail _ => hlast htail) (hstmt.run [] _ _ _ h) h (.done (Std.Refl.refl _))
        rwa [List.append_nil] at hflow
      obtain ⟨stmt, span⟩ := stmt
      simp only [stmtPieces, lowerStmts] at h
      cases hexpr : (stmtPiece env ⟨stmt, span⟩).expr with
      | none =>
        refine hrun ?_ (by simpa only [hexpr] using h)
        rintro - e rfl
        cases hexpr
      | some e =>
        simp only [hexpr] at h
        split at h
        · rename_i hvoid
          exact hrun (by simp [hvoid]) h
        · rename_i hvoid
          obtain ⟨e', heq, hflows⟩ := hstmt.expr e hexpr
          have hflow := hflows.tail result _ _ _ h
          obtain rfl : stmt = .expr e' := heq
          rw [Bool.eq_false_iff.mpr hvoid] at hflow ⊢
          exact .result hflow
    | cons next later =>
      simp only [stmtPieces] at h ih
      obtain ⟨a, s1, ha, h⟩ := bind_ok h
      obtain ⟨b, hb, rfl⟩ := map_ok h
      have hflow := hstmt.run _ _ _ _ ha
      rw [← stmtPieces, stmtPieces_source] at ha hflow
      exact .cons (fun _ h => by cases h) hflow ha (ih hlater _ _ _ hb)

theorem block_flow (hstmts : AllFollow env stmts) (h : lowerBlock (stmtPieces env stmts) result span s = .ok out s') :
    Flow env { s with scope := s.scope.enter } (!result.isVoid) (.stmts stmts) out s'.names ∧
      ((!result.isVoid) = true → Stmt.terminates out = true) := by
  rw [lowerBlock, withScope] at h
  obtain ⟨s1, hrun, rfl⟩ := bracket_ok h
  obtain ⟨lowered, s2, hlowered, hrun⟩ := bind_ok hrun
  obtain ⟨hends, hdone⟩ := check_ok hrun
  obtain ⟨rfl, rfl⟩ := pure_ok hdone
  have hflow := stmts_flow hstmts _ _ _ hlowered
  refine ⟨hflow, fun hvoid => ?_⟩
  simpa [hvoid] using hends

theorem blockPiece_follows (hstmts : AllFollow env stmts) :
    (blockPiece env ⟨.block stmts, span⟩ (stmtPieces env stmts)).Follows env ⟨.block stmts, span⟩ := by
  have hbody : ∀ result, FlowsAs env result (.body ⟨.block stmts, span⟩) (lowerBlock (stmtPieces env stmts) result span) :=
    fun result _ _ _ h => .bodyBlock (block_flow hstmts h).1 (block_flow hstmts h).2
  have hbraces : ∀ result, FlowsBelow env result (.expr ⟨.block stmts, span⟩) (do
      let body ← lowerBlock (stmtPieces env stmts) result span
      pure [.block body]) := by
    intro result s s1 out s' hs h
    obtain ⟨body, hrun, rfl⟩ := map_ok h
    exact .braces hs (hbody result _ _ _ hrun)
  have htail := ofStmts_tail (fun result _ => hbraces result) (hbraces .void)
  refine ⟨fun expected s v s' names h => ?_, htail, .nested (hbraces .void), hbody⟩
  rcases blockPiece_value with ⟨p, q, hp, hq, hvalue⟩ | hvalue
  · rw [hvalue] at h
    obtain ⟨hs, s1, hrun, -⟩ := nested_below h
    obtain ⟨e, inner, rfl, rfl⟩ := stmtPieces_single hp hq
    obtain ⟨e', heq, he⟩ := (hstmts _ (.head _)).expr (piece env e) (by rw [stmtPiece]; rfl)
    cases heq
    exact .single hs (he.value _ _ _ _ _ hrun)
  · rw [hvalue] at h
    exact ofStmts_value htail h

theorem loopStmt_follows (hcond : Follows env cond) {body : List (Located Source.Stmt)} (hbody : AllFollow env body) :
    (loopStmt (piece env cond) (stmtPieces env body) ⟨.loop cond body, span⟩).Follows env ⟨.loop cond body, span⟩ := by
  refine ⟨fun later s out s' h => ?_, nofun⟩
  obtain ⟨c, s1, hc, h⟩ := bind_ok h
  obtain ⟨stmts, hstmts, rfl⟩ := map_ok h
  have hs1 : Framed s s1 := ((piece_tidy env cond).value _).ok hc
  exact .loop (hcond.value _ _ _ _ _ hc) (.reached hs1.enter (block_flow hbody hstmts).1)

/-! ## The source -/

/-- An expression and the operands of a selection or an index. -/
structure Traced (env : Env) (e : Located Source.Expr) : Prop where
  piece : (piece env e).Follows env e
  parts : ∀ p ∈ e.val.parts, (Lower.piece env p).Follows env p

variable (env)

mutual

theorem piece_traced : ∀ e : Located Source.Expr, Traced env e
  | ⟨.lit value, span⟩ => by
    refine ⟨operand_follows rfl (by simp only [piece]; rfl) (fun _ s v s' h => ?_) nofun, nofun⟩
    rw [(pure_ok h).1]
    exact .lit value
  | ⟨.nil, span⟩ => by
    refine ⟨operand_follows rfl (by simp only [piece]; rfl) (fun _ s v s' h => ?_) nofun, nofun⟩
    rw [(pure_ok h).1]
    exact .nil
  | ⟨.ident name, span⟩ => ⟨ident_follows env name span, nofun⟩
  | ⟨.call callee typeArgs args, span⟩ => by
    refine ⟨operand_follows rfl (by simp only [piece]; rfl) (fun _ s v s' h => ?_) fun p hp => ?_, nofun⟩
    · exact .call (lowerCall_code (piece_tidy env callee) argPieces_tidy h)
    · have hcallee := piece_traced callee
      rcases List.mem_append.mp hp with hp | hp
      · rcases List.mem_cons.mp hp with rfl | hp
        · exact hcallee.piece
        · exact hcallee.parts p hp
      · obtain ⟨arg, harg, rfl⟩ := List.mem_map.mp hp
        exact args_follow args arg harg
  | ⟨.select target member, span⟩ => by
    have htarget : ∀ p ∈ [target], Follows env p :=
      List.forall_mem_singleton.mpr (piece_traced target).piece
    refine ⟨operand_follows rfl (by simp only [piece]; rfl) (fun _ s v s' h => ?_) htarget, htarget⟩
    exact .select (lowerSelect_code h)
  | ⟨.index target index, span⟩ => by
    have hparts : ∀ p ∈ [target, index], Follows env p :=
      List.forall_mem_cons.mpr ⟨(piece_traced target).piece, List.forall_mem_singleton.mpr (piece_traced index).piece⟩
    refine ⟨operand_follows rfl (by simp only [piece]; rfl) (fun _ s v s' h => ?_) hparts, hparts⟩
    exact lowerIndex_code h
  | ⟨.binary left op right, span⟩ => by
    refine ⟨operand_follows rfl (by simp only [piece]; rfl) (fun _ s v s' h => lowerBinary_code h) ?_, nofun⟩
    exact List.forall_mem_cons.mpr ⟨(piece_traced left).piece, List.forall_mem_singleton.mpr (piece_traced right).piece⟩
  | ⟨.unary op operand, span⟩ => by
    refine ⟨operand_follows rfl (by simp only [piece]; rfl) (fun _ s v s' h => lowerUnary_code h) ?_, nofun⟩
    exact List.forall_mem_singleton.mpr (piece_traced operand).piece
  | ⟨.lambda params body, span⟩ => ⟨lambda_follows (piece_traced body).piece, nofun⟩
  | ⟨.tuple elems, span⟩ => by
    refine ⟨operand_follows rfl (by simp only [piece]; rfl) (fun _ s v s' h => lowerTuple_code h) ?_, nofun⟩
    exact exprs_follow elems
  | ⟨.caseFunction clauses, span⟩ => ⟨caseFunction_follows (clauses_follow clauses), nofun⟩
  | ⟨.ifElse cond thenBranch none, span⟩ => by
    refine ⟨?_, nofun⟩
    rw [piece]
    exact ifPiece_follows (piece_traced cond).piece (piece_traced thenBranch).piece nofun
  | ⟨.ifElse cond thenBranch (some elseBranch), span⟩ => by
    refine ⟨?_, nofun⟩
    have helse : ∀ e ∈ some elseBranch, Follows env e := fun _ he => Option.some.inj he ▸ (piece_traced elseBranch).piece
    rw [piece]
    exact ifPiece_follows (piece_traced cond).piece (piece_traced thenBranch).piece helse
  | ⟨.matchOn subject clauses, span⟩ => by
    refine ⟨?_, nofun⟩
    rw [piece]
    exact matchPiece_follows (piece_traced subject).piece (clauses_follow clauses)
  | ⟨.block stmts, span⟩ => by
    refine ⟨?_, nofun⟩
    rw [piece]
    exact blockPiece_follows (stmts_follow stmts)

theorem exprs_follow : ∀ es : List (Located Source.Expr), ∀ e ∈ es, Follows env e
  | [] => nofun
  | e :: es => List.forall_mem_cons.mpr ⟨(piece_traced e).piece, exprs_follow es⟩

theorem args_follow : ∀ args : List Source.Arg, ∀ a ∈ args, Follows env a.value
  | [] => nofun
  | ⟨_, value⟩ :: args => List.forall_mem_cons.mpr ⟨(piece_traced value).piece, args_follow args⟩

theorem clause_follows : ∀ c : Clause, FollowsClause env c
  | ⟨_, none, body⟩ => ⟨nofun, (piece_traced body).piece⟩
  | ⟨_, some guard, body⟩ => ⟨fun _ hg => Option.some.inj hg ▸ (piece_traced guard).piece, (piece_traced body).piece⟩

theorem clauses_follow : ∀ cs : List Clause, ∀ c ∈ cs, FollowsClause env c
  | [] => nofun
  | c :: cs => List.forall_mem_cons.mpr ⟨clause_follows c, clauses_follow cs⟩

theorem stmt_follows : ∀ stmt : Located Source.Stmt, (stmtPiece env stmt).Follows env stmt
  | ⟨.val ⟨name, mutable, ty, value⟩, span⟩ => by
    have hvalue : (piece env (ValDecl.mk name mutable ty value).value).Follows env value := (piece_traced value).piece
    rw [stmtPiece]
    exact valStmt_follows hvalue
  | ⟨.assign target op value, span⟩ => by
    rw [stmtPiece]
    exact assignStmt_follows op (piece_traced target).parts (piece_traced value).piece
  | ⟨.expr e, span⟩ => by
    rw [stmtPiece]
    have he := (piece_traced e).piece
    exact ⟨fun later _ _ _ h => .expr (he.effect _ _ _ h), fun _ hp => ⟨e, rfl, Option.some.inj hp ▸ he⟩⟩
  | ⟨.ret none, span⟩ => by
    have hstmt : (returnStmt ((none : Option (Located Source.Expr)).map (piece env)) span).Follows env ⟨.ret none, span⟩ :=
      returnStmt_follows (by simp) span
    rw [stmtPiece]
    exact hstmt
  | ⟨.ret (some value), span⟩ => by
    have hvalue : ∀ v ∈ some value, Follows env v := fun _ hv => Option.some.inj hv ▸ (piece_traced value).piece
    have hstmt := returnStmt_follows hvalue span
    rw [stmtPiece]
    exact hstmt
  | ⟨.loop cond body, span⟩ => by
    rw [stmtPiece]
    exact loopStmt_follows (piece_traced cond).piece (stmts_follow body)

theorem stmts_follow : ∀ stmts : List (Located Source.Stmt), AllFollow env stmts
  | [] => nofun
  | st :: stmts => List.forall_mem_cons.mpr ⟨stmt_follows st, stmts_follow stmts⟩

end

theorem piece_flow : Follows env e := (piece_traced env e).piece

end Lower

end Lowering
