/-
  Covered — declarations of lowered statements, counted.

  What lowered statements declare is what `Crowding` counts in the source and the names made up on the way:
  temporaries and flags, each declared once.
-/

import Lowering.Proofs.Crowding
import Lowering.Proofs.Supply

namespace Lowering

open Target (Expr Stmt)

/-! ## Statements -/

/-- The name is declared at most `own` times around the statements and at most `inner` times in one
    scope inside them, apart from `drawn` declarations of names that are made up. -/
structure Covered (x : String) (own inner drawn : Nat) (stmts : List Stmt) : Prop where
  /-- All scopes together hold no more declarations of a name that is only made up. -/
  total : own = 0 → inner = 0 → (Stmt.declaredOf stmts).count x + (Stmt.scopesOf stmts).flatten.count x ≤ drawn
  own : (Stmt.declaredOf stmts).count x ≤ own + drawn
  inner : ∀ names ∈ Stmt.scopesOf stmts, names.count x ≤ inner + drawn

namespace Covered

variable {x : String} {own inner drawn own' inner' drawn' : Nat} {a b : List Stmt}

theorem mono (h : Covered x own inner drawn a) (ho : own ≤ own') (hi : inner ≤ inner')
    (hd : drawn ≤ drawn' := by omega) : Covered x own' inner' drawn' a where
  own := Nat.le_trans h.own (Nat.add_le_add ho hd)
  inner names hmem := Nat.le_trans (h.inner names hmem) (Nat.add_le_add hi hd)
  total hown hinner := Nat.le_trans (h.total (by omega) (by omega)) hd

theorem nil (x : String) : Covered x 0 0 0 [] := ⟨fun _ _ => Nat.le_refl _, Nat.le_refl _, fun _ hmem => nomatch hmem⟩

theorem append (ha : Covered x own inner drawn a) (hb : Covered x own' inner' drawn' b) :
    Covered x (own + own') (max inner inner') (drawn + drawn') (a ++ b) := by
  constructor
  · intro hown hinner
    have htotal := ha.total (by omega) (by omega)
    have htotal' := hb.total (by omega) (by omega)
    rw [Stmt.declaredOf_append, Stmt.scopesOf_append, List.flatten_append, List.count_append, List.count_append]
    omega
  · rw [Stmt.declaredOf_append, List.count_append]
    have hown := ha.own
    have hown' := hb.own
    omega
  · intro names hmem
    rw [Stmt.scopesOf_append] at hmem
    rcases List.mem_append.mp hmem with hmem | hmem
    · have hinner := ha.inner names hmem
      omega
    · have hinner := hb.inner names hmem
      omega

variable {s : Stmt}

theorem quiet (hdeclared : s.declared = []) (hscopes : s.scopes = []) : Covered x 0 0 0 [s] := by
  constructor <;> simp [Stmt.declaredOf, hdeclared, Stmt.scopesOf, hscopes]

theorem declaring {names : List String} (hdeclared : s.declared = names) (hscopes : s.scopes = [])
    (hnames : names.count x ≤ own + drawn) : Covered x own inner drawn [s] := by
  constructor
  · rintro rfl -
    simpa [Stmt.declaredOf, hdeclared, Stmt.scopesOf, hscopes] using hnames
  · simpa [Stmt.declaredOf, hdeclared] using hnames
  · simp [Stmt.scopesOf, hscopes]

theorem block (h : Covered x own inner drawn a) : Covered x 0 (max own inner) drawn [.block a] := by
  constructor
  · intro _ hinner
    simpa [Stmt.declaredOf, Stmt.declared, Stmt.scopesOf, Stmt.scopes] using h.total (by omega) (by omega)
  · simp [Stmt.declaredOf, Stmt.declared]
  · intro names hmem
    simp only [Stmt.scopesOf, Stmt.scopes, List.append_nil] at hmem
    rcases List.mem_cons.mp hmem with rfl | hmem
    · have hown := h.own
      omega
    · have hinner := h.inner names hmem
      omega

theorem loop (cond : Option Expr) (h : Covered x own inner drawn a) :
    Covered x 0 (max own inner) drawn [.loop cond a] := ⟨h.block.total, h.block.own, h.block.inner⟩

theorem ifElse (cond : Expr) (ha : Covered x own inner drawn a) (hb : Covered x own' inner' drawn' b) :
    Covered x 0 (max (max own inner) (max own' inner')) (drawn + drawn') [.ifElse cond a b] := by
  -- The branches count like two blocks.
  have hboth := ha.block.append hb.block
  have hscopes : Stmt.scopesOf [.ifElse cond a b] = Stmt.scopesOf ([.block a] ++ [.block b]) := by
    simp [Stmt.scopesOf, Stmt.scopes]
  exact ⟨hscopes ▸ hboth.total, hboth.own, hscopes ▸ hboth.inner⟩

theorem guarded (cond : Expr) (h : Covered x own inner drawn a) :
    Covered x 0 (max own inner) drawn [.guarded cond a] :=
  (h.ifElse cond (nil x)).mono (by omega) (by omega)

end Covered

/-! ## Steps -/

namespace Match

/-- What a step declares, where names that are not used are left out. -/
def Step.declared (used : String → Bool) : Step → List String
  | .define names _ => names
  | .bind name _ => if used name then [name] else []
  | .assert name user ok _ _ => [(name.filter fun name => !user || used name).getD "_", ok]
  | .check _ => []
  | .touch _ => []

variable {x : String} {own inner drawn bound made : Nat}

theorem Step.count_declared (hne : x ≠ "_") (used : String → Bool) (step : Step) :
    (step.declared used).count x ≤ (if used x then step.binds.count x else 0) + step.temps.count x := by
  have hblank : ¬ "_" = x := fun heq => hne heq.symm
  cases step with
  | define names value => exact Nat.le_add_left _ _
  | check cond | touch value => exact Nat.zero_le _
  | bind name value =>
    simp only [Step.declared, Step.binds, Step.temps]
    by_cases hx : name = x
    · subst hx
      split <;> simp
    · split <;> simp [hx]
  | assert name user ok value ty =>
    rcases name with _ | name
    · cases user <;> simp [Step.declared, Step.temps, List.count_cons, hblank]
    · cases user with
      | false => simp [Step.declared, Step.temps, List.count_cons, Option.filter_some]
      | true =>
        by_cases hx : name = x
        · subst hx
          cases hused : used name <;>
            simp [Step.declared, Step.binds, Step.temps, List.count_cons, Option.filter_some, hused, hblank,
              Nat.add_comm]
        · cases hused : used name <;>
            simp [Step.declared, Step.temps, List.count_cons, Option.filter_some, hused, hblank, hx]

theorem Step.wrap_covered (step : Step) (hstep : (step.declared used).count x ≤ bound + made)
    {rest : List Stmt × Bool} (h : Covered x own inner drawn rest.1) :
    Covered x (bound + own) (max (bound + own) inner) (made + drawn) (step.wrap used rest).1 := by
  cases step with
  | define names value =>
    have hfirst : Covered x bound 0 made [.define names [value]] := .declaring rfl rfl hstep
    exact (hfirst.append h).mono (Nat.le_refl _) (by omega)
  | bind name value =>
    simp only [Step.wrap, Step.declared] at hstep ⊢
    split
    · rename_i hused
      rw [if_pos hused] at hstep
      have hfirst : Covered x bound 0 made [.define1 name value] := .declaring rfl rfl hstep
      exact (hfirst.append h).mono (Nat.le_refl _) (by omega)
    · exact h.mono (by omega) (by omega)
  | touch value =>
    have hfirst : Covered x 0 0 0 [.discard value] := .quiet rfl rfl
    exact (hfirst.append h).mono (by omega) (by omega)
  | check cond =>
    simp only [Step.wrap]
    split
    · -- The condition joins that of the conditional which stands there.
      have hmono := h.mono (Nat.le_add_left own bound) (Nat.le_max_right (bound + own) inner) (Nat.le_add_left drawn made)
      exact ⟨hmono.total, hmono.own, hmono.inner⟩
    · exact (h.guarded cond).mono (by omega) (by omega)
  | assert name isUser ok value ty =>
    have hfirst : Covered x bound 0 made [.define [(name.filter fun name => !isUser || used name).getD "_", ok]
        [.typeAssert (.apply (.ident "any") [value]) ty]] := .declaring rfl rfl hstep
    have hwrap : (Step.wrap used (.assert name isUser ok value ty) rest).1 =
        [.define [(name.filter fun name => !isUser || used name).getD "_", ok]
          [.typeAssert (.apply (.ident "any") [value]) ty]] ++ [.guarded (.ident ok) rest.1] := by
      cases name with
      | none => rfl
      | some name => cases hused : (!isUser || used name) <;> simp [Step.wrap, Option.filter, hused]
    rw [hwrap]
    exact (hfirst.append (h.guarded (.ident ok))).mono (by omega) (by omega)

theorem CompiledPattern.assemble_covered (hne : x ≠ "_") (p : CompiledPattern) {body : List Stmt}
    (h : Covered x own inner drawn body) :
    Covered x ((if used x then (p.steps.flatMap Step.binds).count x else 0) + own)
      (max ((if used x then (p.steps.flatMap Step.binds).count x else 0) + own) inner)
      ((p.steps.flatMap Step.temps).count x + drawn) (p.assemble used body) := by
  unfold assemble
  generalize p.steps = steps
  induction steps with
  | nil => exact h.mono (by simp) (by omega)
  | cons step steps ih =>
    rw [List.foldr_cons, List.flatMap_cons, List.count_append, List.flatMap_cons, List.count_append]
    have hboth := step.wrap_covered (step.count_declared hne used) ih
    cases hused : used x <;>
      · simp only [hused, Bool.false_eq_true, if_true, if_false, Nat.add_assoc] at hboth ⊢
        exact hboth.mono (by omega) (by omega)

end Match

/-! ## Names drawn on the way -/

namespace NameSupply

theorem count_drawn {s s1 s2 : NameSupply} (h : Grows s s1) (h' : Grows s1 s2) (x : String) :
    (drawn s s2).count x = (drawn s s1).count x + (drawn s1 s2).count x := by
  rw [(drawn_perm h h').count_eq, List.count_append]

theorem Taken.mem_drawn {s s' : NameSupply} {x : String} (h : Taken s s' x) : x ∈ drawn s s' := by
  obtain ⟨n, hle, hlt, rfl⟩ := h
  refine List.mem_append_left _ (List.mem_map.mpr ⟨n, ?_, rfl⟩)
  exact List.mem_range'_1.mpr ⟨hle, by omega⟩

end NameSupply

/-- The statements are lowered between two states of the supply, so that names drawn there count too. -/
structure Tallied (x : String) (own inner : Nat) (before after : NameSupply) (out : List Stmt) : Prop where
  grows : before.Grows after
  covered : Covered x own inner ((before.drawn after).count x) out

namespace Tallied

variable {x : String} {own inner own' inner' : Nat} {before between after : NameSupply} {a b : List Stmt}

theorem mono (h : Tallied x own inner before after a) (ho : own ≤ own') (hi : inner ≤ inner') :
    Tallied x own' inner' before after a := ⟨h.grows, h.covered.mono (by omega) (by omega)⟩

theorem since (h : Tallied x own inner between after a) (hgrows : before.Grows between) :
    Tallied x own inner before after a := by
  refine ⟨hgrows.trans h.grows, h.covered.mono (Nat.le_refl _) (Nat.le_refl _) ?_⟩
  rw [NameSupply.count_drawn hgrows h.grows]
  exact Nat.le_add_left _ _

theorem of_covered (h : Covered x own inner 0 a) (hgrows : before.Grows after) : Tallied x own inner before after a :=
  ⟨hgrows, h.mono (by omega) (by omega)⟩

theorem append (ha : Tallied x own inner before between a) (hb : Tallied x own' inner' between after b) :
    Tallied x (own + own') (max inner inner') before after (a ++ b) :=
  ⟨ha.grows.trans hb.grows, NameSupply.count_drawn ha.grows hb.grows x ▸ ha.covered.append hb.covered⟩

theorem ifElse (cond : Expr) (ha : Tallied x own inner before between a) (hb : Tallied x own' inner' between after b) :
    Tallied x 0 (max (max own inner) (max own' inner')) before after [.ifElse cond a b] :=
  ⟨ha.grows.trans hb.grows, NameSupply.count_drawn ha.grows hb.grows x ▸ ha.covered.ifElse cond hb.covered⟩

end Tallied

/-! ## Clauses -/

namespace Lower

section

variable {x : String} {env : Env} {c : Source.Clause} {subject : Expr} {ty : Ty} {s : LowerState} {code : ClauseCode}
  {st : Match.CompileState} {cond : Option Expr}

theorem ClauseFrom.untested (h : ClauseFrom env c subject ty s code st cond) (ha : code.always = true) :
    c.guard.isNone = true ∧ st.steps.any Match.Step.isTest = false := by
  have htests : code.pattern.steps.any Match.Step.isTest = false := by
    simpa only [ClauseCode.always, Match.CompiledPattern.isUnconditional, Bool.not_eq_true'] using ha
  rw [h.steps, List.any_append, Bool.or_eq_false_iff] at htests
  refine ⟨?_, htests.1⟩
  cases cond with
  | some cond => cases htests.2
  | none => exact h.unguarded.symm

theorem ClauseFrom.isSure (h : ClauseFrom env c subject ty s code st cond) (ha : code.always = true) :
    c.isSure env = true := by
  obtain ⟨hguard, htests⟩ := h.untested ha
  have hpattern : c.pattern.val.isSure env = true :=
    Match.compileInto_sure c.pattern subject ty h.compiled fun htested => by
      rw [show st.steps.any Match.Step.isTest = true from htested] at htests
      cases htests
  rw [Source.Clause.isSure, hguard, hpattern]
  rfl

theorem ClauseFrom.tally (h : ClauseFrom env c subject ty s code st cond) : s.names.Grows st.names ∧
    (if c.references x then (code.pattern.steps.flatMap Match.Step.binds).count x else 0) ≤ c.declares x ∧
    (code.pattern.steps.flatMap Match.Step.temps).count x ≤ (s.names.drawn st.names).count x := by
  have hemits := h.emits
  have hlisted : st.Listed := hemits.listed ⟨rfl, List.nodup_nil⟩
  have hnumbered : st.Numbered := hemits.numbered ⟨List.nodup_nil, fun _ h => nomatch h⟩
  obtain ⟨new, hnew, hnames⟩ := hemits.steps
  have hnew : st.steps = new := hnew
  -- A guard is a test, and declares nothing.
  have hbinds : code.pattern.steps.flatMap Match.Step.binds = st.steps.flatMap Match.Step.binds := by
    cases cond <;> simp [h.steps, Match.Step.binds]
  have htemps : code.pattern.steps.flatMap Match.Step.temps = st.steps.flatMap Match.Step.temps := by
    cases cond <;> simp [h.steps, Match.Step.temps]
  rw [hbinds, htemps]
  refine ⟨hemits.names, ?_, ?_⟩
  · -- A name is bound once, and only where the pattern binds it.
    unfold Source.Clause.declares
    cases hused : c.references x with
    | false => simp
    | true =>
      cases hbinds : c.pattern.val.binds x with
      | true =>
        have hnodup : (st.steps.flatMap Match.Step.binds).Nodup := hlisted.1 ▸ hlisted.2
        simpa using List.nodup_iff_count.mp hnodup x
      | false =>
        have hfree : x ∉ st.steps.flatMap Match.Step.binds := by
          intro hmem
          obtain ⟨step, hstep, hx⟩ := List.mem_flatMap.mp hmem
          have hbound := (hnames step (hnew ▸ hstep)).1 x hx
          rw [hbinds] at hbound
          cases hbound
        simp [List.count_eq_zero.mpr hfree]
  · -- A temporary is declared once, and it was drawn.
    by_cases hmem : x ∈ st.steps.flatMap Match.Step.temps
    · obtain ⟨step, hstep, hx⟩ := List.mem_flatMap.mp hmem
      have hdrawn : x ∈ NameSupply.drawn s.names st.names := ((hnames step (hnew ▸ hstep)).2 x hx).mem_drawn
      exact Nat.le_trans (List.nodup_iff_count.mp hnumbered.1 x) (List.one_le_count_iff.mpr hdrawn)
    · rw [List.count_eq_zero.mpr hmem]
      exact Nat.zero_le _

end

variable {x : String} {env : Env} {own inner own' inner' : Nat} {s' : LowerState}

def ChainCovered (x : String) (own inner drawn : Nat) (codes : List ClauseCode) : Prop :=
  ∀ flag : Option String, Covered x (if flag.isNone then own else 0) inner drawn (chain flag codes)

theorem setFlag_covered (flag : Option String) : Covered x 0 0 0 (setFlag flag) := by
  cases flag with
  | none => exact .nil x
  | some flag => exact .quiet rfl rfl

variable {code : ClauseCode} {s : LowerState} {flag : Option String} {n : Nat}

theorem ClauseFrom.stmts_tallied {c : Source.Clause} {subject : Expr} {ty : Ty} {st : Match.CompileState}
    {cond : Option Expr} (h : ClauseFrom env c subject ty s code st cond) (hne : x ≠ "_") {after : NameSupply}
    (hbody : Tallied x own inner st.names after code.body) (flag : Option String) :
    Tallied x (c.declares x + own) (max (c.declares x + own) inner) s.names after (code.stmts flag) := by
  obtain ⟨hgrows, hbinds, htemps⟩ := h.tally (x := x)
  refine ⟨hgrows.trans hbody.grows, ?_⟩
  rw [NameSupply.count_drawn hgrows hbody.grows, ClauseCode.stmts, h.used]
  exact (code.pattern.assemble_covered hne ((setFlag_covered (x := x) flag).append hbody.covered)).mono
    (by omega) (by omega)

theorem ClauseCode.placed (hstmts : Covered x own (max own inner) n (code.stmts flag)) :
    Covered x (if flag.isNone && code.always then own else 0) (max own inner) n
      (placeClause flag (code.stmts flag) code.always) := by
  cases flag with
  | some flag => exact (hstmts.guarded _).mono (by simp) (by omega)
  | none =>
    cases halways : code.always with
    | true => exact hstmts.mono (by simp) (Nat.le_refl _)
    | false =>
      simp only [placeClause, Bool.not_false, Bool.true_and, Bool.and_false, Bool.false_eq_true, if_false]
      by_cases hlength : 1 < (code.stmts none).length
      · rw [if_pos (by simpa using hlength)]
        exact hstmts.block.mono (Nat.le_refl _) (by omega)
      · rw [if_neg (by simpa using hlength)]
        -- One statement that holds a test is a conditional, and its branch is a scope of its own.
        rcases Match.CompiledPattern.assemble_isTest halways with
          ⟨cond, body, hguarded⟩ | hlong
        · refine ⟨fun _ hinner => hstmts.total (by omega) hinner, ?_, hstmts.inner⟩
          rw [show code.stmts none = _ from hguarded]
          exact Nat.zero_le _
        · exact absurd hlong hlength

theorem chainCovered_cons {sure : Bool} {m : Nat} {codes : List ClauseCode}
    (hcode : ∀ flag, Covered x own (max own inner) m (code.stmts flag)) (hsure : code.always = true → sure = true)
    (hlast : code.always = true → codes = []) (hcodes : code.always = false → ChainCovered x own' inner' n codes) :
    ChainCovered x (max (if sure then own else 0) own') (max (max own inner) inner') (m + n) (code :: codes) := by
  intro flag
  have hplaced := ClauseCode.placed (hcode flag)
  rw [chain_cons]
  cases halways : code.always with
  | true =>
    -- What the clause declares may stand in the open, but no clause comes after it.
    rw [hlast halways, hsure halways]
    rw [halways] at hplaced
    refine (hplaced.append (.nil x)).mono ?_ (by omega)
    cases flag.isNone with
    | true =>
      simp only [Bool.and_self, if_true]
      omega
    | false => simp
  | false =>
    rw [halways] at hplaced
    refine (hplaced.append (hcodes halways flag)).mono ?_ (by omega)
    cases flag.isNone with
    | true =>
      simp only [Bool.and_false, Bool.false_eq_true, if_true, if_false]
      omega
    | false => simp

/-! ## Matches -/

theorem matchSubject_tallied {subject : Piece} (ht : subject.Tidy) {start : List Stmt} {value : Expr}
    (h : matchSubject subject s = .ok (start, value) s') : Tallied x 0 0 s.names s'.names start := by
  obtain ⟨lowered, s1, hlowered, h⟩ := bind_ok h
  have hs1 := ((ht.value none).ok hlowered).names
  split at h
  · cases h
    exact .of_covered (.nil x) hs1
  · obtain ⟨tmp, s2, htmp, h⟩ := bind_ok h
    cases htmp
    cases h
    refine Tallied.since ⟨NameSupply.grows_fresh _, .declaring (rfl : _ = [s1.names.fresh.1]) rfl ?_⟩ hs1
    rw [NameSupply.drawn_fresh]
    omega

theorem matchFlag_tallied {result : Ty} {clauses : Nat}
    (h : matchFlag (.ofResult result) clauses s = .ok flag s') :
    s.names.Grows s'.names ∧ flag.toList.count x ≤ (s.names.drawn s'.names).count x ∧
        (flag.isNone = true → (!result.isVoid || decide (clauses ≤ 1)) = true) := by
  have hgrows := (framed.matchFlag.ok h).names
  refine ⟨hgrows, ?_⟩
  unfold Position.ofResult matchFlag at h
  cases hvoid : result.isVoid with
  | false =>
    simp only [hvoid, Bool.false_eq_true, if_false] at h
    cases h
    exact ⟨Nat.zero_le _, fun _ => rfl⟩
  | true =>
    simp only [hvoid, if_true] at h
    split at h
    · cases h
      refine ⟨?_, nofun⟩
      rw [NameSupply.drawn_freshFlag]
      exact Nat.le_refl _
    · cases h
      refine ⟨Nat.zero_le _, fun _ => ?_⟩
      simp only [Bool.not_true, Bool.false_or, decide_eq_true_eq]
      omega

theorem discard_covered (v : Expr) : Covered x 0 0 0 [discard v] := by
  unfold discard
  split <;> exact .quiet rfl rfl

theorem flagStart_covered {code : MatchCode} (h : code.flag.toList.count x ≤ n) : Covered x 0 0 n code.flagStart := by
  unfold MatchCode.flagStart
  split
  · rename_i flag hflag
    rw [hflag] at h
    exact .declaring (rfl : _ = [flag]) rfl (by simpa using h)
  · exact (Covered.nil x).mono (by omega) (by omega)

theorem unreachable_covered (ty : Ty) : Covered x 0 0 0 [unreachable ty flag] := by
  cases flag with
  | none => exact .quiet rfl rfl
  | some flag => exact (Covered.guarded _ (.quiet rfl rfl)).mono (Nat.le_refl _) (Nat.le_refl _)

theorem matchCode_covered {code : MatchCode} {k l : Nat} (hstart : Covered x 0 0 k code.start)
    (hflag : code.flag.toList.count x ≤ l) (hchain : Covered x own inner n (chain code.flag code.clauses)) :
    Covered x own inner (k + l + n) code.stmts := by
  have hend : Covered x 0 0 0 (if code.panics then [unreachable code.ty code.flag] else []) := by
    split
    · exact unreachable_covered _
    · exact .nil x
  exact (((hstart.append (flagStart_covered hflag)).append hchain).append hend).mono (by omega) (by omega)

end Lower

/-! ## The source -/

namespace Source

theorem Stmt.declares_of_ne_expr {s : Stmt} (h : ∀ e, s ≠ .expr e) :
    s.declares env x false = s.declares env x tail ∧ s.crowd env x false = s.crowd env x tail := by
  cases s with
  | expr e => exact absurd rfl (h e)
  | ret value => cases value <;> simp [Stmt.declares, Stmt.crowd]
  | _ => simp [Stmt.declares, Stmt.crowd]

theorem Expr.body_of_ne_block {e : Expr} (h : ∀ stmts, e ≠ .block stmts) :
    e.bodyDeclares env x tail = e.spills env x tail ∧ e.bodyCrowd env x tail = e.crowd env x tail := by
  cases e with
  | block stmts => exact absurd rfl (h stmts)
  | _ => exact ⟨rfl, rfl⟩

end Source

/-- What a task declares, as it is counted in the source. -/
def Task.Tallied (env : Env) (x : String) (tail : Bool) (before after : NameSupply) (out : List Stmt) : Task → Prop
  | .value _ _ => True
  | .expr e => Lowering.Tallied x (e.val.spills env x tail) (e.val.crowd env x tail) before after out
  | .body e => Lowering.Tallied x (e.val.bodyDeclares env x tail) (e.val.bodyCrowd env x tail) before after out
  | .matchOn _ cs => Lowering.Tallied x (if tail || cs.length ≤ 1 then Source.Clause.spillsOf env x tail cs else 0)
      (Source.Clause.crowdOf env x tail cs) before after out
  | .clauses _ _ _ cs codes => before.Grows after ∧ Lower.ChainCovered x (Source.Clause.spillsOf env x tail cs)
      (Source.Clause.crowdOf env x tail cs) ((before.drawn after).count x) codes
  | .stmts ss =>
    Lowering.Tallied x (Source.Stmt.declaresOf env x tail ss) (Source.Stmt.crowdOf env x tail ss) before after out
  | .stmt _ s => Lowering.Tallied x (s.val.declares env x false) (s.val.crowd env x false) before after out

variable {env : Env} {out : List Stmt} {tail : Bool} {task : Task} {x : String}

theorem Task.Tallied.since {before between after : NameSupply} (h : task.Tallied env x tail between after out)
    (hgrows : before.Grows between) : task.Tallied env x tail before after out := by
  cases task with
  | value => trivial
  | clauses =>
    refine ⟨hgrows.trans h.1, fun flag => (h.2 flag).mono (Nat.le_refl _) (Nat.le_refl _) ?_⟩
    rw [NameSupply.count_drawn hgrows h.1]
    exact Nat.le_add_left _ _
  | _ => exact Lowering.Tallied.since h hgrows

theorem Flow.tallied (hne : x ≠ "_") {s : LowerState} {names : NameSupply} (h : Flow env s tail task out names) :
    task.Tallied env x tail s.names names out := by
  induction h with
  | reached hs _ ih => exact ih.since hs.names
  | operand | lambda | caseFunction | inPlace | single => trivial
  | dropped _ _ _ _ _ hnames =>
    exact (Tallied.of_covered (Lower.discard_covered _) hnames).mono (Nat.zero_le _) (Nat.zero_le _)
  | returned _ _ _ hnames | assign _ _ _ hnames =>
    exact (Tallied.of_covered (.quiet rfl rfl) hnames).mono (Nat.zero_le _) (Nat.zero_le _)
  | ifElse hs _ _ _ _ _ iht ihe =>
    refine Tallied.mono ((Tallied.ifElse _ iht ihe).since hs.names) (Nat.zero_le _) ?_
    exact Nat.le_of_eq (by rw [Source.Expr.crowd])
  | ifOnly hs _ _ _ iht =>
    have hnone : ∀ n, Tallied x 0 0 n n [] := fun n => .of_covered (.nil x) (Std.Refl.refl n)
    refine Tallied.mono ((Tallied.ifElse _ iht (hnone _)).since hs.names) (Nat.zero_le _) ?_
    rw [Source.Expr.crowd]
    omega
  | matched hs _ ih =>
    refine Tallied.mono (Tallied.since ih hs.names) ?_ ?_
    · exact Nat.le_of_eq (by rw [Source.Expr.spills])
    · exact Nat.le_of_eq (by rw [Source.Expr.crowd])
  | braces hs _ ih =>
    have hblock : Tallied x 0 _ _ _ [.block _] := ⟨ih.grows, ih.covered.block⟩
    refine Tallied.mono (hblock.since hs.names) (Nat.zero_le _) ?_
    exact Nat.le_refl _
  | bodyExpr hblock _ ih =>
    obtain ⟨hdeclares, hcrowd⟩ := Source.Expr.body_of_ne_block hblock
    exact Tallied.mono ih (Nat.le_of_eq hdeclares.symm) (Nat.le_of_eq hcrowd.symm)
  | bodyBlock _ _ ih => exact ih
  | @«match» _ _ _ _ subject clauses result _ code _ _ _ hstart hflag _ _ _ ih =>
    have hstart : Tallied x 0 0 _ _ code.start := Lower.matchSubject_tallied (Lower.piece_tidy env subject) hstart
    obtain ⟨hgrows, hcount, hnone⟩ := Lower.matchFlag_tallied (x := x) hflag
    have hgrows' := hgrows.trans ih.1
    refine ⟨hstart.grows.trans hgrows', ?_⟩
    rw [NameSupply.count_drawn hstart.grows hgrows', NameSupply.count_drawn hgrows ih.1]
    refine (Lower.matchCode_covered hstart.covered hcount (ih.2 code.flag)).mono ?_ (by omega)
    cases hflag : code.flag.isNone with
    | false =>
      simp only [Bool.false_eq_true, if_false]
      omega
    | true => rw [hnone hflag]
  | noClause hnames => exact ⟨hnames, fun flag => (Covered.nil x).mono (by omega) (by omega)⟩
  | @clause _ _ _ _ _ _ c _ code _ _ codes _ hcode _ _ _ hnames hlast _ _ ihbody ihrest =>
    obtain ⟨pattern, guard, body⟩ := c
    have hstmts := hcode.stmts_tallied hne ihbody
    refine ⟨(hstmts none).grows.trans hnames, ?_⟩
    rw [NameSupply.count_drawn (hstmts none).grows hnames, Source.Clause.spillsOf, Source.Clause.crowdOf]
    exact Lower.chainCovered_cons (fun flag => (hstmts flag).covered) hcode.isSure hlast fun halways => (ihrest halways).2
  | done hnames => exact (Tallied.of_covered (.nil x) hnames).mono (Nat.zero_le _) (Nat.zero_le _)
  | result _ ih =>
    refine Tallied.mono ih ?_ ?_
    · exact Nat.le_of_eq (by rw [Source.Stmt.declaresOf, Source.Stmt.declares])
    · exact Nat.le_of_eq (by rw [Source.Stmt.crowdOf, Source.Stmt.crowd])
  | @cons _ _ tail stmt later _ _ _ hlast _ _ _ ihstmt ihlater =>
    have hboth := Tallied.append ihstmt ihlater
    cases later with
    | nil =>
      have hsame : stmt.val.declares env x false = stmt.val.declares env x tail ∧
          stmt.val.crowd env x false = stmt.val.crowd env x tail := by
        cases tail with
        | false => exact ⟨rfl, rfl⟩
        | true => exact Source.Stmt.declares_of_ne_expr (hlast rfl rfl)
      rw [hsame.1, hsame.2] at hboth
      refine hboth.mono ?_ ?_
      · simp [Source.Stmt.declaresOf]
      · simp [Source.Stmt.crowdOf]
    | cons next later => exact hboth
  | @val s s' _ decl _ stmts hcode _ _ =>
    have hgrows := ((Lower.framed.lowerLocal Lower.mentionsAny (Lower.piece_tidy env decl.value)).ok hcode).names
    have hcount : [decl.name.val].count x ≤ (if decl.name.val = x then 1 else 0) + 0 := by
      split <;> simp_all
    have hlocal : Covered x (if decl.name.val = x then 1 else 0) 0 0 stmts := by
      cases Lower.lowerLocal_code hcode with
      | var _ | val _ => exact .declaring rfl rfl hcount
    have hdiscard : Covered x 0 0 0 [.discard (.ident decl.name.val)] := .quiet rfl rfl
    have hout : ∀ out, out = stmts ∨ out = stmts ++ [.discard (.ident decl.name.val)] →
        Covered x (if decl.name.val = x then 1 else 0) 0 0 out := by
      rintro _ (rfl | rfl)
      · exact hlocal
      · exact hlocal.append hdiscard
    exact (Tallied.of_covered (hout _ (ite_eq_or_eq ..)) hgrows).mono (Nat.le_refl _) (Nat.zero_le _)
  | expr _ ih =>
    refine Tallied.mono ih (Nat.le_refl _) ?_
    exact Nat.le_of_eq (by rw [Source.Stmt.crowd])
  | ret => exact (Tallied.of_covered (.quiet rfl rfl) (Std.Refl.refl _)).mono (Nat.zero_le _) (Nat.zero_le _)
  | retEffect _ _ _ ih =>
    have hret : ∀ n, Tallied x 0 0 n n [.ret []] := fun n => .of_covered (.quiet rfl rfl) (Std.Refl.refl n)
    refine (Tallied.append ih (hret _)).mono (Nat.le_max_left _ _) ?_
    rw [Source.Stmt.crowd]
    omega
  | retValue _ _ _ ih =>
    refine Tallied.mono ih (Nat.le_max_right _ _) ?_
    exact Nat.le_max_right _ _
  | loop _ _ _ ih =>
    refine ⟨ih.grows, (ih.covered.loop _).mono (Nat.zero_le _) ?_ (Nat.le_refl _)⟩
    exact Nat.le_of_eq (by rw [Source.Stmt.crowd])

end Lowering
