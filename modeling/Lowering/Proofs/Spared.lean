/-
  Spared — names that lowering does not write.

  A name is spared from a state on when it is not bound there and the supply will not make it up. Then statements
  lowered from a tree that does not bind the name do not write it.
-/

import Lowering.Proofs.Flow

namespace Lowering

/-! ## Scopes -/

namespace Scope

theorem find?_enter (s : Scope) : s.enter.find? x = s.find? x := rfl

theorem find?_bind (s : Scope) (name : String) (mutability : Mutability) (ty : Ty) :
    (s.bind name mutability ty).find? x = if x = name then some ⟨mutability, ty⟩ else s.find? x := by
  obtain ⟨inner, package⟩ := s
  cases inner with
  | nil => simp [find?, bind]
  | cons frame outer =>
    simp only [find?, bind, List.findSome?_cons, Table.find?_insert]
    by_cases hx : x = name <;> simp [hx]

theorem find?_bindAll {s : Scope} {bindings : List (String × Ty)} {x : String} (h : s.find? x = none)
    (hx : ∀ b ∈ bindings, b.1 ≠ x) : (s.bindAll bindings).find? x = none :=
  List.foldlRecOn (motive := fun s : Scope => s.find? x = none) _ _ h fun s hs b hb => by
    rw [find?_bind, if_neg (hx b hb).symm, hs]

end Scope

/-! ## Spared names -/

/-- The name is not bound, and the supply will not make it up. -/
structure Spared (x : String) (s : LowerState) : Prop where
  unbound : s.scope.find? x = none
  temporary : ∀ n, s.names.next ≤ n → x ≠ s.names.stem ++ toString n
  flag : ∀ n, s.names.matched ≤ n → x ≠ "_matched" ++ toString n

namespace Spared

variable {x : String} {s s' : LowerState}

theorem grows (h : Spared x s) (hs : s.names.Grows s'.names) (hx : s'.scope.find? x = none) : Spared x s' where
  unbound := hx
  temporary n hn := by
    rw [hs.stem]
    exact h.temporary n (Nat.le_trans hs.next hn)
  flag n hn := h.flag n (Nat.le_trans hs.matched hn)

theorem framed (h : Spared x s) (hf : Framed s s') : Spared x s' :=
  h.grows hf.names (by rw [hf.scope]; exact h.unbound)

theorem declares {stmt : Source.Stmt} (h : Spared x s) (hd : Declares stmt s s')
    (hx : stmt.declared? ≠ some x) : Spared x s' := by
  refine h.grows hd.names ?_
  rcases hd.scope with hscope | ⟨name, mutability, ty, hname, hscope⟩
  · rw [hscope]
    exact h.unbound
  · have hne : x ≠ name := fun heq => hx (heq ▸ hname)
    rw [hscope, Scope.find?_bind, if_neg hne, h.unbound]

theorem enter (h : Spared x s) : Spared x { s with scope := s.scope.enter } :=
  h.grows (Std.Refl.refl s.names) ((s.scope.find?_enter).trans h.unbound)

theorem below {env : Env} (h : Spared x s) (hs : s.Below env s') : Spared x s' :=
  h.grows hs.names (by rw [hs.scope]; exact h.unbound)

end Spared

open Target (Stmt)

/-! ## Statements -/

def Silent (x : String) (stmts : List Stmt) : Prop := Stmt.anyWrites x stmts = false

namespace Lower

variable {x : String} {ty : Ty} {s' : LowerState}

theorem silent_append {a b : List Stmt} (ha : Silent x a) (hb : Silent x b) : Silent x (a ++ b) := by
  rw [Silent, Stmt.anyWrites_append, ha, hb]
  rfl

theorem silent_ifElse {cond : Target.Expr} {t e : List Stmt} (ht : Silent x t) (he : Silent x e) :
    Silent x [.ifElse cond t e] := by
  simp only [Silent] at ht he
  simp [Silent, Stmt.anyWrites, Stmt.writes, ht, he]

theorem silent_discard (hne : x ≠ "_") (v : Target.Expr) : Silent x [discard v] := by
  unfold discard
  split <;> simp [Silent, Stmt.anyWrites, Stmt.writes, Stmt.discard, Stmt.assign1, Target.Expr.isIdent, hne.symm]

theorem silent_ret {values : List Target.Expr} : Silent x [.ret values] := by
  simp [Silent, Stmt.anyWrites, Stmt.writes]

variable {env : Env} {s : LowerState} {stmts : List Stmt} {flag : Option String}

theorem LocalCode.silent {decl : Source.ValDecl} {value : Piece} (h : LocalCode env s decl value stmts)
    (hx : decl.name.val ≠ x) : Silent x stmts := by
  cases h with
  | var _ => simpa [Silent, Stmt.anyWrites, Stmt.writes] using hx
  | val _ => simpa [Silent, Stmt.anyWrites, Stmt.writes, Stmt.define1] using hx.symm

theorem TargetRun.silent {target : Piece} {place : Target.Expr}
    (h : TargetRun env target s place ty s') (hx : Spared x s) : place.isIdent x = false := by
  cases h with
  | name _ hchecked =>
    refine beq_false_of_ne ?_
    rintro rfl
    obtain ⟨b, hfind, -⟩ := checkAssignBinding_ok hchecked
    simp [hx.unbound] at hfind
  | _ => rfl

/-! ## Matches -/

theorem ClauseFrom.spares {c : Source.Clause} {subject : Target.Expr} {code : ClauseCode}
    {st : Match.CompileState} {cond : Option Target.Expr} (h : ClauseFrom env c subject ty s code st cond)
    (hne : x ≠ "_") (hx : Spared x s) (hc : c.pattern.val.binds x = false) :
    Match.SparesSteps x code.pattern.steps ∧ Spared x (clauseState s st) := by
  have hemits := h.emits
  have hother : ∀ y, c.pattern.val.binds y = true → y ≠ x := by
    rintro y hy rfl
    rw [hc] at hy
    cases hy
  obtain ⟨new, hnew, hnames⟩ := hemits.steps
  obtain ⟨bound, hbound, hallowed⟩ := hemits.bindings
  refine ⟨fun step hstep hmem => ?_, hx.grows hemits.names (Scope.find?_bindAll hx.enter.unbound fun b hb => ?_)⟩
  · rw [h.steps, show st.steps = new from hnew] at hstep
    rcases List.mem_append.mp hstep with hstep | hstep
    · rcases Match.mem_names hmem with heq | hbind | htemp
      · exact hne heq
      · exact hother x ((hnames step hstep).1 x hbind) rfl
      · obtain ⟨n, hn, -, heq⟩ := (hnames step hstep).2 x htemp
        exact hx.temporary n hn heq
    · obtain ⟨cond, -, rfl⟩ := List.mem_map.mp hstep
      simp [Match.Step.names] at hmem
  · rw [show st.bindings = bound from hbound] at hb
    exact hother b.1 (hallowed b hb)

theorem silent_start {subject : Piece} (ht : subject.Tidy) {start : List Stmt} {value : Target.Expr}
    (h : matchSubject subject s = .ok (start, value) s') (hx : Spared x s) : Silent x start := by
  obtain ⟨lowered, s1, hlowered, h⟩ := bind_ok h
  split at h
  · cases (pure_ok h).1
    rfl
  · obtain ⟨tmp, s2, htmp, h⟩ := bind_ok h
    cases htmp
    cases (pure_ok h).1
    simpa [Silent, Stmt.anyWrites, Stmt.writes, Stmt.define1, NameSupply.fresh] using
      (hx.framed ((ht.value none).ok hlowered)).temporary s1.names.next (Nat.le_refl _)

theorem ne_flag {position : Position} {clauses : Nat} (h : matchFlag position clauses s = .ok flag s')
    (hx : Spared x s) : ∀ f ∈ flag, x ≠ f := by
  unfold matchFlag at h
  split at h
  · split at h
    · cases h
      rintro f ⟨⟩
      exact hx.flag s.names.matched (Nat.le_refl _)
    · cases h
      exact nofun
  · cases h
    exact nofun

theorem silent_setFlag (h : ∀ f ∈ flag, x ≠ f) : Silent x (setFlag flag) := by
  cases flag with
  | none => rfl
  | some f => simpa [setFlag, Silent, Stmt.anyWrites, Stmt.writes, Stmt.assign1,
      Target.Expr.isIdent] using (h f rfl).symm

/-- No part of the code writes the name. -/
structure MatchCode.Spares (x : String) (code : MatchCode) : Prop where
  start : Silent x code.start
  flag : ∀ f ∈ code.flag, x ≠ f
  clauses : ∀ c ∈ code.clauses, c.Spares x

theorem silent_placeClause (h : Silent x stmts) (always : Bool) : Silent x (placeClause flag stmts always) := by
  unfold placeClause
  split
  · exact silent_ifElse h rfl
  · split
    · simpa [Silent, Stmt.anyWrites, Stmt.writes] using h
    · exact h

theorem silent_chain (hne : x ≠ "_") (hflag : ∀ f ∈ flag, x ≠ f) {codes : List ClauseCode}
    (h : ∀ c ∈ codes, c.Spares x) : Silent x (chain flag codes) := by
  induction codes with
  | nil => rfl
  | cons c codes ih =>
    have hc := h c (.head _)
    have hstmts : Silent x (c.stmts flag) :=
      Match.anyWrites_assemble hne hc.steps (silent_append (silent_setFlag hflag) hc.body)
    exact silent_append (silent_placeClause hstmts _) (ih fun c hmem => h c (.tail _ hmem))

theorem silent_unreachable : Silent x [unreachable ty flag] := by
  cases flag <;> simp [Silent, unreachable, unlessSet, Stmt.guarded, Stmt.anyWrites, Stmt.writes]

theorem silent_matchCode (hne : x ≠ "_") {code : MatchCode} (h : code.Spares x) : Silent x code.stmts := by
  have hflag : Silent x code.flagStart := by
    unfold MatchCode.flagStart
    split
    · rename_i f hf
      simpa [Silent, Stmt.anyWrites, Stmt.writes, Stmt.define1] using h.flag f hf
    · rfl
  refine silent_append (silent_append (silent_append h.start hflag) (silent_chain hne h.flag h.clauses)) ?_
  split
  · exact silent_unreachable
  · rfl

end Lower

/-! ## The source -/

theorem Source.Stmt.binds_val (x : String) (decl : ValDecl) :
    (Stmt.val decl).binds x = (decl.name.val == x || decl.value.val.binds x) := by
  obtain ⟨name, mutable, ty, value⟩ := decl
  rw [binds]

/-- Whether what is lowered to statements binds the name. -/
def Task.binds (x : String) : Task → Bool
  | .value _ _ => false
  | .expr e | .body e => e.val.binds x
  | .matchOn _ cs | .clauses _ _ _ cs _ => Source.Clause.anyBinds x cs
  | .stmts ss => Source.Stmt.anyBinds x ss
  | .stmt _ s => s.val.binds x

/-- The statements that a task is lowered to do not write the name, nor do the clauses. -/
def Task.Spares (x : String) (out : List Stmt) : Task → Prop
  | .clauses _ _ _ _ codes => ∀ c ∈ codes, c.Spares x
  | _ => Silent x out

theorem Flow.spares {env : Env} {s : LowerState} {tail : Bool} {task : Task} {out : List Stmt} {names : NameSupply}
    (h : Flow env s tail task out names) {x : String} (hne : x ≠ "_") (hx : Spared x s) (hb : task.binds x = false) :
    task.Spares x out := by
  induction h with
  | reached hs _ ih => exact ih (hx.framed hs) hb
  | operand | lambda | caseFunction | inPlace | single | done => rfl
  | dropped => exact Lower.silent_discard hne _
  | returned => exact Lower.silent_ret
  | ifElse hs _ _ hs2 _ _ iht ihe =>
    simp only [Task.binds, Source.Expr.binds, Bool.or_eq_false_iff] at hb
    exact Lower.silent_ifElse (iht (hx.below hs) hb.1.2) (ihe ((hx.below hs).framed hs2) hb.2)
  | ifOnly hs _ _ _ ih =>
    simp only [Task.binds, Source.Expr.binds, Bool.or_eq_false_iff] at hb
    exact Lower.silent_ifElse (ih (hx.below hs) hb.2) rfl
  | matched hs _ ih =>
    simp only [Task.binds, Source.Expr.binds, Bool.or_eq_false_iff] at hb
    exact ih (hx.below hs) hb.2
  | braces hs _ ih => simpa [Task.Spares, Silent, Stmt.anyWrites, Stmt.writes] using ih (hx.below hs) hb
  | bodyExpr _ _ ih => exact ih hx hb
  | bodyBlock _ _ ih => exact ih hx.enter hb
  | @«match» _ _ _ _ subject _ _ _ _ _ _ _ hstart hflag hs2 _ _ ih =>
    have htidy := Lower.piece_tidy env subject
    exact Lower.silent_matchCode hne ⟨Lower.silent_start htidy hstart hx,
      Lower.ne_flag hflag (hx.framed ((Lower.framed.matchSubject htidy).ok hstart)), ih (hx.framed hs2) hb⟩
  | noClause => exact List.forall_mem_nil _
  | @clause _ _ _ _ _ _ _ _ code _ _ _ _ hcode _ _ hs1 _ hlast _ _ ihbody ihrest =>
    simp only [Task.binds, Source.Clause.anyBinds, Bool.or_eq_false_iff] at hb
    obtain ⟨hpattern, hbody⟩ := Source.Clause.binds_false hb.1
    obtain ⟨hsteps, hstate⟩ := hcode.spares hne hx hpattern
    refine List.forall_mem_cons.mpr ⟨⟨hsteps, ihbody hstate hbody⟩, ?_⟩
    cases halways : code.always with
    | true => simp [hlast halways]
    | false => exact ihrest halways (hx.framed hs1) hb.2
  | result _ ih =>
    simp only [Task.binds, Source.Stmt.anyBinds, Source.Stmt.binds, Bool.or_false] at hb
    exact ih hx hb
  | @cons _ _ _ stmt _ _ _ _ _ _ hs _ ihstmt ihlater =>
    simp only [Task.binds, Source.Stmt.anyBinds, Bool.or_eq_false_iff] at hb
    refine Lower.silent_append (ihstmt hx hb.1) (ihlater (hx.declares (Lower.run_declares hs) fun hdeclared => ?_) hb.2)
    obtain ⟨stmt, span⟩ := stmt
    cases stmt with
    | val decl => simp [Source.Stmt.binds_val, Option.some.inj hdeclared] at hb
    | _ => cases hdeclared
  | @val _ _ _ decl _ _ hcode _ _ =>
    simp only [Task.binds, Source.Stmt.binds_val, Bool.or_eq_false_iff, beq_eq_false_iff_ne] at hb
    have hlocal := (Lower.lowerLocal_code hcode).silent hb.1
    unfold Task.Spares
    dsimp only
    split
    · exact hlocal
    · exact Lower.silent_append hlocal
        (by simp [Silent, Stmt.anyWrites, Stmt.writes, Stmt.discard, Stmt.assign1, Target.Expr.isIdent, hne.symm])
  | @assign _ _ _ target _ _ _ place _ _ hplace _ _ _ _ _ =>
    have hother := (Lower.assignTarget_run hplace).silent hx
    simp [Task.Spares, Silent, Stmt.anyWrites, Stmt.writes, hother]
  | expr _ ih => exact ih hx hb
  | ret => exact Lower.silent_ret
  | retEffect _ _ _ ih => exact Lower.silent_append (ih hx hb) Lower.silent_ret
  | retValue _ _ _ ih => exact ih hx hb
  | loop _ _ _ ih =>
    simp only [Task.binds, Source.Stmt.binds, Bool.or_eq_false_iff] at hb
    simpa [Task.Spares, Silent, Stmt.anyWrites, Stmt.writes] using ih hx.enter hb.2

end Lowering
