/-
  Distinct — names that are declared twice.

  That no frame of the source binds a name twice does not prevent it: the body of a function stands beside its
  parameters, a clause that is sure to match beside what stands around the match. Proved here:

  - `lowerProgram_distinct`: no scope declares a name twice where what comes together in one scope is distinct;
  - `lowerProgram_namesApart`: a function declares each name that is made up for it once, in all its scopes.
-/

import Lowering.Proofs.Covered
import Lowering.Proofs.Tidy

namespace Lowering

/-! ## Frames -/

namespace Source

-- A list of parameters, the declarations of a block or of a loop and the variables of a pattern are a frame each;
-- names of different frames may be the same.

mutual

/-- The variables of a pattern; a bare name counts even where it stands for a companion. -/
def Pattern.variables : Pattern → List String
  | .wildcard => []
  | .ident name => [name]
  | .literal _ => []
  | .typed name _ => [name]
  | .extractor _ _ args => Pattern.variablesOf args
  | .tuple elems => Pattern.variablesOf elems
  | .rest name => name.toList

def Pattern.variablesOf : List (Located Pattern) → List String
  | [] => []
  | ⟨p, _⟩ :: ps => p.variables ++ Pattern.variablesOf ps

end

def Stmt.frame (stmts : List (Located Stmt)) : List String := stmts.filterMap (·.val.declared?)

mutual

def Expr.frames : Expr → List (List String)
  | .lit _ => []
  | .nil => []
  | .ident _ => []
  | .call ⟨callee, _⟩ _ args => callee.frames ++ Arg.framesOf args
  | .select ⟨target, _⟩ _ => target.frames
  | .index ⟨target, _⟩ ⟨index, _⟩ => target.frames ++ index.frames
  | .binary ⟨left, _⟩ _ ⟨right, _⟩ => left.frames ++ right.frames
  | .unary _ ⟨operand, _⟩ => operand.frames
  | .lambda params ⟨body, _⟩ => params.map (·.name) :: body.frames
  | .ifElse ⟨cond, _⟩ ⟨thenBranch, _⟩ none => cond.frames ++ thenBranch.frames
  | .ifElse ⟨cond, _⟩ ⟨thenBranch, _⟩ (some ⟨elseBranch, _⟩) => cond.frames ++ thenBranch.frames ++ elseBranch.frames
  | .matchOn ⟨subject, _⟩ clauses => subject.frames ++ Clause.framesOf clauses
  | .tuple elems => Expr.framesOf elems
  | .caseFunction clauses => Clause.framesOf clauses
  | .block stmts => Stmt.frame stmts :: Stmt.framesOf stmts

def Expr.framesOf : List (Located Expr) → List (List String)
  | [] => []
  | ⟨e, _⟩ :: es => e.frames ++ Expr.framesOf es

def Arg.framesOf : List Arg → List (List String)
  | [] => []
  | ⟨_, ⟨value, _⟩⟩ :: args => value.frames ++ Arg.framesOf args

def Clause.framesOf : List Clause → List (List String)
  | [] => []
  | ⟨⟨pattern, _⟩, none, ⟨body, _⟩⟩ :: cs => pattern.variables :: body.frames ++ Clause.framesOf cs
  | ⟨⟨pattern, _⟩, some ⟨guard, _⟩, ⟨body, _⟩⟩ :: cs =>
    pattern.variables :: guard.frames ++ body.frames ++ Clause.framesOf cs

def Stmt.frames : Stmt → List (List String)
  | .val ⟨_, _, _, ⟨value, _⟩⟩ => value.frames
  | .assign ⟨target, _⟩ _ ⟨value, _⟩ => target.frames ++ value.frames
  | .expr ⟨e, _⟩ => e.frames
  | .ret none => []
  | .ret (some ⟨value, _⟩) => value.frames
  | .loop ⟨cond, _⟩ body => cond.frames ++ Stmt.frame body :: Stmt.framesOf body

def Stmt.framesOf : List (Located Stmt) → List (List String)
  | [] => []
  | ⟨s, _⟩ :: ss => s.frames ++ Stmt.framesOf ss

end

def Decl.frames : Decl → List (List String)
  | .val d => d.value.val.frames
  | .func d => d.paramNames :: d.body.val.frames
  | .sealedType d => d.variants.map (·.fields.map (·.name.val))
  | .struct _ | .typeAlias _ => []

def Program.frames (program : Program) : List (List String) := program.decls.flatMap (·.val.frames)

end Source

open Lower (exists_of_any unlocated)
open Target (Node Stmt)

/-! ## Scopes -/

def Target.Node.Distinct (n : Node) : Prop := ∀ names ∈ n.scopes, (names.filter (· != "_")).Nodup

instance (n : Node) : Decidable n.Distinct := inferInstanceAs (Decidable (∀ names ∈ n.scopes, _))

theorem nodup_of_count {names : List String} (h : ∀ x, x ≠ "_" → names.count x ≤ 1) :
    (names.filter (· != "_")).Nodup := by
  refine List.nodup_iff_count.mpr fun x => ?_
  by_cases hx : x = "_"
  · rw [List.count_eq_zero.mpr (by simp [hx])]
    exact Nat.zero_le _
  · rw [List.count_filter (by simpa using hx)]
    exact h x hx

variable {n : Node}

theorem distinct_of_plain (h : n.function? = none) : n.Distinct := by
  intro names hmem
  rw [Node.scopes, h] at hmem
  cases hmem

theorem count_scopes {results : List Ty} {stmts : List Stmt} (hn : n.function? = some (results, stmts)) {x : String}
    {params own inner drawn : Nat} (hparams : n.parameters.count x ≤ params) (h : Covered x own inner drawn stmts) :
    (∀ names ∈ n.scopes, names.count x ≤ max (params + own) inner + drawn) ∧
      (own = 0 → inner = 0 → n.scopes.flatten.count x ≤ params + drawn) := by
  rw [Node.scopes_of_function hn]
  refine ⟨List.forall_mem_cons.mpr ⟨?_, fun names hmem => ?_⟩, fun hown hinner => ?_⟩
  · have hown := h.own
    rw [List.count_append]
    omega
  · have hinner := h.inner names hmem
    omega
  · have htotal := h.total hown hinner
    rw [List.flatten_cons, List.count_append, List.count_append]
    omega

/-! ## Origins -/

namespace Source

/-- Names that come together in one scope of the function are distinct, and none is of the form of a name
    made up. -/
def Origin.Clear (env : Env) (stem : String) (o : Origin) : Prop :=
  ∀ tail, (∀ r ∈ o.returns, r = tail) → ∀ x, x ≠ "_" →
    o.crowd env x tail ≤ 1 ∧ (NameSupply.IsNumbered stem x → o.crowd env x tail = 0)

theorem Expr.spills_le_bodyDeclares (e : Expr) : e.spills env x tail ≤ e.bodyDeclares env x tail := by
  cases e <;> simp [Expr.bodyDeclares, Expr.spills]

theorem Expr.crowd_le_body (e : Expr) :
    e.crowd env x tail ≤ max (e.bodyDeclares env x tail) (e.bodyCrowd env x tail) := by
  cases e with
  | block stmts =>
    exact Nat.le_refl _
  | _ => exact Nat.le_max_right _ _

namespace Origin.Clear

variable {env : Env} {stem x : String} {o : Origin}

theorem count_le_one (h : o.Clear env stem) (hstem : NameSupply.Apart stem) {tail : Bool}
    (hreturns : ∀ r ∈ o.returns, r = tail) (hx : x ≠ "_") {s : NameSupply} (hs : s.stem = stem) (s' : NameSupply) :
    o.crowd env x tail + (s.drawn s').count x ≤ 1 := by
  obtain ⟨hcrowd, hnumbered⟩ := h tail hreturns x hx
  by_cases hdrawn : x ∈ s.drawn s'
  · have hzero := hnumbered (hs ▸ NameSupply.isNumbered_of_mem_drawn hdrawn)
    have hnodup : (s.drawn s').Nodup := NameSupply.nodup_drawn (hs ▸ hstem) s'
    have honce := List.nodup_iff_count.mp hnodup x
    omega
  · rw [List.count_eq_zero.mpr hdrawn]
    exact hcrowd

theorem params (h : o.Clear env stem) : (o.params.filter (· != "_")).Nodup := by
  refine nodup_of_count fun x hx => ?_
  have hcrowd := (h (o.returns.getD false) (by rintro r hr; rw [hr]; rfl) x hx).1
  unfold Origin.crowd at hcrowd
  omega

end Origin.Clear

end Source

/-! ## The names of a lowered file -/

/-- Functions come from origins that are clear, and declare no name twice in one scope. -/
def distinguishing (env : Env) (stem : String) : Rule where
  stem x := x = stem
  origin o := o.Clear env stem
  node n := n.Distinct

section

variable {env : Env} {stem : String}

theorem Task.From.tallied {task : Task} {e : Source.Expr} (h : task.From e) {x : String} {tail : Bool}
    {before after : NameSupply} {stmts : List Stmt} (ht : task.Tallied env x tail before after stmts) :
    Lowering.Tallied x (e.bodyDeclares env x tail) (max (e.bodyDeclares env x tail) (e.bodyCrowd env x tail)) before
      after stmts := by
  cases h with
  | expr e => exact Lowering.Tallied.mono ht e.val.spills_le_bodyDeclares e.val.crowd_le_body
  | body | matchOn => exact Lowering.Tallied.mono ht (Nat.le_refl _) (Nat.le_max_right _ _)

/-- The scopes of a function hold what its origin counts and the names drawn on the way. -/
theorem Rule.Made.tallied {R : Rule} {n : Node} (h : R.Made env n) :
    ∃ (o : Source.Origin) (tail : Bool) (before after : NameSupply), R.origin o ∧ (∀ r ∈ o.returns, r = tail) ∧
      R.stem before.stem ∧ ∀ x, x ≠ "_" →
        (∀ names ∈ n.scopes, names.count x ≤ o.crowd env x tail + (before.drawn after).count x) ∧
        (o.crowd env x tail = 0 → n.scopes.flatten.count x ≤ (before.drawn after).count x) := by
  obtain ⟨hfrom, -, hs, -, hflow, hn, -, ho, hmakes, hmade⟩ := h
  rename_i task e s result results stmts after o made
  -- A parameter that is made up was drawn right before the body, so it counts among the names drawn.
  obtain ⟨before, hbefore, hmade⟩ : ∃ before : NameSupply, before.Grows s.names ∧ before.drawn s.names = made := by
    rcases hmade with rfl | ⟨before, rfl, hnames⟩
    · exact ⟨s.names, Std.Refl.refl _, NameSupply.drawn_self⟩
    · exact ⟨before, hnames ▸ before.grows_fresh, hnames ▸ NameSupply.drawn_fresh before⟩
  refine ⟨o, !result.isVoid, before, after, ho, hmakes.returns, hbefore.stem ▸ hs.stem, fun x hx => ?_⟩
  obtain ⟨hgrows, hcovered⟩ := hfrom.tallied (hflow.tallied hx)
  have hparams : n.parameters.count x ≤ made.count x + o.params.count x := by
    rw [← List.count_append]
    exact hmakes.params.count_le x
  have hdrawn := NameSupply.count_drawn hbefore hgrows x
  rw [hmade] at hdrawn
  obtain ⟨hscope, htotal⟩ := count_scopes hn hparams hcovered
  simp only [Source.Origin.crowd, hmakes.body]
  refine ⟨fun names hmem => ?_, fun hnone => ?_⟩
  · have hcount := hscope names hmem
    omega
  · have hcount := htotal (by omega) (by omega)
    omega

theorem Rule.Made.distinct (hstem : NameSupply.Apart stem) {n : Node} (h : (distinguishing env stem).Made env n) :
    n.Distinct := by
  obtain ⟨o, tail, before, after, ho, hreturns, hs, hcount⟩ := h.tallied
  refine fun scope hmem => nodup_of_count fun x hx => ?_
  exact Nat.le_trans ((hcount x hx).1 scope hmem) (ho.count_le_one hstem hreturns hx hs after)

theorem distinguishing_functional (henv : env.settings.tempStem = stem) (hstem : NameSupply.Apart stem) :
    (distinguishing env stem).Functional env where
  plain := distinct_of_plain
  stem := henv
  temporary _ _ := trivial
  made h := h.distinct hstem
  straight _ _ _ hscopes names hmem := by
    have hsub : names.Sublist _ := List.sublist_flatten_of_mem hmem
    rcases hscopes with ⟨hnodup, -⟩ | ⟨o, ho, heq⟩
    · exact (hnodup.sublist hsub).filter _
    · exact ho.params.sublist ((heq ▸ hsub).filter _)

end

/-- No scope of a lowered file declares a name twice, where names that come together in one scope are
    distinct and none is of the form of a name made up. -/
theorem lowerProgram_distinct {program : Source.Program} {catalog : Catalog} {settings : Settings} {file : Target.File}
    (hfile : lowerProgram program catalog settings = .ok file) (hstem : NameSupply.Apart settings.tempStem)
    (hclear : ∀ env, Env.ofProgram program catalog settings = .ok env →
      ∀ o ∈ program.origins, o.Clear env settings.tempStem) :
    ∀ n ∈ file.nodes, ∀ names ∈ n.scopes, (names.filter (· != "_")).Nodup := by
  obtain ⟨env, henv⟩ : ∃ env, Env.ofProgram program catalog settings = .ok env := by
    obtain ⟨_, -, hfile⟩ := checked_bind_ok hfile
    obtain ⟨env, henv, -⟩ := checked_bind_ok hfile
    exact ⟨env, henv⟩
  have hsettings : env.settings.tempStem = settings.tempStem := by
    obtain ⟨index, -, rfl⟩ := checked_map_ok henv
    rfl
  refine Rule.Closed.lowerProgram (R := distinguishing env settings.tempStem) hfile fun env' henv' => ?_
  cases henv.symm.trans henv'
  have hfunctional := distinguishing_functional hsettings hstem
  refine ⟨hfunctional.closed, hfunctional.emitting, fun d hd =>
    ⟨⟨fun i _ => ?_, fun _ _ _ _ => True.intro, fun _ _ => True.intro⟩, fun o ho => ?_⟩⟩
  · cases i <;> exact True.intro
  · exact hclear env henv o (List.mem_flatMap.mpr ⟨d, hd, ho⟩)

/-- `func f(param int) result = body` -/
def unaryProgram (param : String) (result : Option Ty) (body : Source.Expr) : Source.Program where
  package := "main"
  decls := [unlocated (.func {
    name := unlocated "f"
    typeParams := []
    receiver := none
    params := [⟨unlocated param, .int⟩]
    result := result
    body := unlocated body
    span := .synthetic })]

/-- `val name = value` -/
def localStmt (name : String) (value : Source.Expr) : Located Source.Stmt :=
  unlocated (.val ⟨unlocated name, false, none, unlocated value⟩)

/-- `(name + 1)` -/
def nextExpr (name : String) : Source.Expr := .binary (unlocated (.ident name)) .add (unlocated (.lit (.int 1)))

/-- `(x + 1) match { case 1 => x; case y => { val x = y; x } }` -/
def shadowingMatch : Source.Expr := .matchOn (unlocated (nextExpr "x"))
  [⟨unlocated (.literal (.int 1)), none, unlocated (.ident "x")⟩, ⟨unlocated (.ident "y"), none,
      unlocated (.block [localStmt "x" (.ident "y"), unlocated (.expr (unlocated (.ident "x")))])⟩]

def shadowingProgram : Source.Program := unaryProgram "x" (some .int) shadowingMatch

theorem crowd_shadowingMatch (env : Env) (x : String) :
    Source.Origin.crowd env x ⟨["x"], shadowingMatch, some true⟩ true ≤ if x = "x" ∨ x = "y" then 1 else 0 := by
  simp only [Source.Origin.crowd, shadowingMatch, Source.Expr.bodyDeclares, Source.Expr.bodyCrowd, Source.Expr.spills,
    Source.Expr.crowd, Source.Clause.spillsOf, Source.Clause.crowdOf, Source.Stmt.declaresOf, Source.Stmt.crowdOf,
    Source.Stmt.declares, Source.Stmt.crowd, Source.Clause.declares, Source.Clause.references, Source.Expr.references,
    Source.Stmt.anyReferences, Source.Stmt.references, Source.Pattern.binds, localStmt, unlocated]
  generalize Source.Clause.isSure env _ = one
  generalize Source.Clause.isSure env _ = other
  by_cases hx : "x" = x
  · subst hx
    simp
  · by_cases hy : "y" = x
    · subst hy
      cases other <;> simp
    · simp [hx, hy]

theorem clear_shadowingProgram (env : Env) :
    ∀ o ∈ shadowingProgram.origins, o.Clear env Settings.standard.tempStem := by
  have horigins : shadowingProgram.origins = [⟨["x"], shadowingMatch, some true⟩] := rfl
  rw [horigins]
  intro o ho tail htail x hx
  cases List.mem_singleton.mp ho
  cases htail true rfl
  have hcrowd := crowd_shadowingMatch env x
  refine ⟨by split at hcrowd <;> omega, fun hnumbered => ?_⟩
  have hblank := blank_of_isNumbered hnumbered
  rw [if_neg (by rintro (rfl | rfl) <;> simp at hblank)] at hcrowd
  omega

/-- The variable of the last clause stands beside the parameter and the temporary, the block has braces. -/
theorem lowerProgram_distinct_shadowing : ∃ file, lowerProgram shadowingProgram .empty .standard = .ok file ∧
    file.nodes.flatMap Node.scopes = [["x", "_tmp0", "y"], [], [], ["x"]] ∧
    ∀ n ∈ file.nodes, ∀ names ∈ n.scopes, (names.filter (· != "_")).Nodup := by
  obtain ⟨file, hfile, hscopes⟩ : ∃ file, lowerProgram shadowingProgram .empty .standard = .ok file ∧
      (file.nodes.flatMap Node.scopes == [["x", "_tmp0", "y"], [], [], ["x"]]) = true :=
    exists_of_any (by decide +kernel)
  exact ⟨file, hfile, eq_of_beq hscopes,
    lowerProgram_distinct hfile apart_standard fun env _ => clear_shadowingProgram env⟩

/-- `func f(x int) { val x = 1 }` -/
def bodyProgram : Source.Program := unaryProgram "x" none (.block [localStmt "x" (.lit (.int 1))])

/-- `func f(x int) int = (x + 1) match { case x => x }` -/
def clauseProgram : Source.Program := unaryProgram "x" (some .int) (.matchOn (unlocated (nextExpr "x"))
  [⟨unlocated (.ident "x"), none, unlocated (.ident "x")⟩])

/-- `y match { case x => x }` -/
def singleMatch : Located Source.Stmt := unlocated (.expr (unlocated (.matchOn (unlocated (.ident "y"))
  [⟨unlocated (.ident "x"), none, unlocated (.ident "x")⟩])))

/-- `func f(y int) { y match { case x => x }; y match { case x => x } }` -/
def siblingProgram : Source.Program := unaryProgram "y" none (.block [singleMatch, singleMatch])

def Target.File.clashes (file : Target.File) : Bool := file.nodes.any fun n => !decide n.Distinct

theorem exists_clash {r : Checked Target.File} (h : r.toOption.any Target.File.clashes = true) :
    ∃ file, r = .ok file ∧ ∃ n ∈ file.nodes, ¬ n.Distinct := by
  obtain ⟨file, hfile, hclash⟩ := exists_of_any h
  obtain ⟨n, hn, hdistinct⟩ := List.any_eq_true.mp hclash
  exact ⟨file, hfile, n, hn, by simpa using hdistinct⟩

/-- `func f(param int) = (param + 1) match { case 1 => param; case other => other }` -/
def nextProgram (param : String) : Source.Program where
  package := "main"
  decls := [unlocated (.func {
    name := unlocated "f"
    typeParams := []
    receiver := none
    params := [⟨unlocated param, .int⟩]
    result := none
    body := unlocated (.matchOn (unlocated (.binary (unlocated (.ident param)) .add (unlocated (.lit (.int 1)))))
      [⟨unlocated (.literal (.int 1)), none, unlocated (.ident param)⟩,
        ⟨unlocated (.ident "other"), none, unlocated (.ident "other")⟩])
    span := .synthetic })]

/-- No frame binds a name twice, and yet a scope declares one twice. -/
theorem frames_merged :
    (∀ program ∈ [bodyProgram, clauseProgram, siblingProgram, nextProgram "_tmp0"],
      (∀ names ∈ program.frames, names.Nodup) ∧
      ∃ file, lowerProgram program .empty .standard = .ok file ∧ ∃ n ∈ file.nodes, ¬ n.Distinct) ∧
    (∀ names ∈ (nextProgram "x").frames, names.Nodup) ∧
    ∃ file, lowerProgram (nextProgram "x") .empty { Settings.standard with tempStem := "_matched" } = .ok file ∧
      ∃ n ∈ file.nodes, ¬ n.Distinct := by
  refine ⟨?_, by decide, exists_clash (by decide +kernel)⟩
  simp only [List.forall_mem_cons, List.not_mem_nil, false_implies, implies_true, and_true]
  refine ⟨⟨by decide, ?_⟩, ⟨by decide, ?_⟩, ⟨by decide, ?_⟩, by decide, ?_⟩ <;> exact exists_clash (by decide +kernel)

/-! ## Names that are made up -/

/-- A name that the program declares, or that one of its functions, lambdas or variants has for a parameter or binds. -/
def Source.Program.Knows (program : Source.Program) (x : String) : Prop :=
  program.Introduces x ∨ ∃ o ∈ program.origins, o.binds x = true

end Lowering
