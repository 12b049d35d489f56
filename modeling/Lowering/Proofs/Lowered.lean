/-
  Lowered — everything lowered from a program stays within a sound rule.

  What is lowered from a source tree and in a state that the rule permits obeys the rule at every place inside.
-/

import Lowering.Proofs.Lawful

namespace Lowering

open Source (Decl ValDecl FuncDecl Program Gap TypeParam Variant Arg Clause)
open Target (Expr Stmt Node)

variable {R : Rule} {env : Env}

/-- The names that the companions of a sealed type are written with: tags and fields of the variants. -/
def Source.Decl.variantNames : Decl → List String
  | .sealedType d => d.variants.flatMap fun v => variantTag d.name.val v.name.val :: v.fields.map (·.name.val)
  | _ => []

/-! ## Declarations leave the state as it was -/

namespace Lower

theorem lowerGlobal_framed (decl : ValDecl) : Keeps Framed (lowerGlobal env decl) :=
  .bind (framed.bindingType mentionsAny) fun _ => .bind ((piece_tidy env _).value _) fun _ => .ite (.pure)
    (.bind ofChecked_framed fun _ => .map (framed.storeValue mentionsAny))

theorem withTypeParams_framed {α : Type} {act : Lower α} (params : List String) (hact : Keeps Framed act) :
    Keeps Framed (withTypeParams params act) := by
  intro s
  refine bracket_keeps (S := fun s' s'' => s' = s → Framed s' s'') hact (fun s1 s2 hs heq => ?_) s rfl
  subst heq
  exact ⟨⟨hs.functions, rfl, hs.depth, hs.names, hs.dotUsed, hs.outer⟩, hs.scope⟩

theorem lowerBody_framed {typeParams : List String} : Keeps Framed (lowerBody env d typeParams) :=
  withTypeParams_framed _ (withScope_framed (.bind (bindAll_steady _) fun _ =>
    steady_of_framed (withFunction_framed ((piece_tidy env _).body _))))

theorem lowerFunc_framed : Keeps Framed (lowerFunc env d) := by
  unfold lowerFunc
  split
  · exact .map lowerBody_framed
  · split
    · exact .map lowerBody_framed
    · exact .map lowerBody_framed

theorem lowerDecl_framed (env : Env) (d : Located Decl) : Keeps Framed (lowerDecl env d) := by
  unfold lowerDecl
  split
  · exact .map (lowerGlobal_framed _)
  · exact .map lowerFunc_framed
  · exact .map ofChecked_framed
  · exact ofChecked_framed
  · exact .pure

theorem lowerProgram_runs {program : Program} {catalog : Catalog} {settings : Settings} {file : Target.File}
    (hfile : lowerProgram program catalog settings = .ok file) : ∃ env s lowered s',
      Env.ofProgram program catalog settings = .ok env ∧ bindGlobals env program.decls (.start env) = .ok () s ∧
        program.decls.mapM (lowerDecl env) s = .ok lowered s' ∧ file.decls = lowered.flatten ∧
        file.imports = collectImports env file.decls s'.dotUsed := by
  obtain ⟨_, -, hfile⟩ := checked_bind_ok hfile
  obtain ⟨env, henv, hfile⟩ := checked_bind_ok hfile
  split at hfile
  · rename_i decls s' hrun
    cases hfile
    obtain ⟨_, s, hbound, hrun⟩ := bind_ok hrun
    obtain ⟨lowered, hlowered, rfl⟩ := map_ok hrun
    exact ⟨env, s, lowered, _, henv, hbound, hlowered, rfl, rfl⟩
  · cases hfile

end Lower

/-! ## Actions that bind names -/

theorem Rule.Runs.bindName {name : String} {mutability : Mutability} {ty : Ty} (h : R.Binding name ⟨mutability, ty⟩) :
    R.Runs (fun _ => True) (Lower.bind name mutability ty) := by
  intro s a s' hs hrun
  cases hrun
  exact ⟨trivial, hs.scope.bind h, hs.functions, hs.stem⟩

/-- The statement obeys the rule, and so does the state after it. -/
structure StmtPiece.Obeys (R : Rule) (p : StmtPiece) : Prop where
  tidy : p.Tidy
  run : ∀ later, R.Runs R.Stmts (p.run later)
  expr : ∀ e ∈ p.expr, e.Flows R

namespace Rule.Sound

open Lower

variable {G : Gap → Prop} (h : R.Sound G env)
include h

/-! ## Case functions -/

variable {name tag : String} {clauses : List ClausePiece} {decl : ValDecl} {ty result companion self t w : Ty}
    {value target cond : Piece} {span : Span} {scope : Lowering.Scope} {stmts : List StmtPiece}
    {source e : Located Source.Expr} {params : List TypeParam} {d : FuncDecl} {fields : List Target.Field}
    {v : Variant} {types : List Ty} {subject : Expr} {decls : List Target.Decl}

theorem identPiece (hn : R.mention name) : (Lower.identPiece env name span).Obeys R := by
  refine h.ofValue (framed.identPiece trivial) ?_ (fun expected he => h.lowerIdent he)
    (List.forall_mem_nil _)
  exact List.forall_mem_singleton.mpr hn

theorem identPiece_typed (hn : R.mention name) : (Lower.identPiece env name span).Typed R env := by
  have htyped := h.typed (e := ⟨.ident name, span⟩) (List.forall_mem_singleton.mpr hn) (List.forall_mem_nil _)
  simpa only [Lower.piece] using htyped

theorem lowerCaseFunction (hc : ∀ c ∈ clauses, c.Obeys R) {expected : Option Ty} (he : ∀ t ∈ expected, R.ty t)
    (hframe : Keeps Framed (Lower.lowerCaseFunction env clauses expected span))
    (hf : ∀ s param results body s1, R.State (caseState s param (results.headD .void)) →
      Lower.lowerMatch env (Lower.identPiece env s.names.fresh.1 span) clauses (.ofResult (results.headD .void)) span
        (caseState s param (results.headD .void)) = .ok body s1 →
      (∀ t ∈ param :: results, R.emitted t) → R.node (.expr (.funcLit [⟨s.names.fresh.1, param⟩] results body))) :
    R.Yields (Lower.lowerCaseFunction env clauses expected span) := by
  refine .of_framed hframe fun s v s' hs hrun => ?_
  obtain ⟨param, results, body, s1, rfl, hmatch, rfl⟩ := lowerCaseFunction_ok hrun
  obtain ⟨hparams, hresults⟩ := h.func.mp (he _ rfl)
  have hparam : R.ty param := hparams _ (.head _)
  have hresult : R.Result (results.headD .void) := by
    cases results with
    | nil => exact .inl rfl
    | cons result results => exact .inr (hresults result (.head _))
  have hposition : Stands R (.ofResult (results.headD .void)) := by
    unfold Position.ofResult
    split
    · trivial
    · exact hresult
  obtain ⟨⟨⟨hname, hmention⟩, -⟩, hs⟩ := h.fresh s s.names.fresh.1 _ hs rfl
  have hstate : R.State (caseState s param (results.headD .void)) :=
    ⟨hs.scope.enter.bind (h.binding hname hparam), List.forall_mem_cons.mpr ⟨hresult, hs.functions⟩, hs.stem⟩
  refine Expr.every_funcLit.mpr ⟨hf s param results body s1 hstate hmatch ?_, ?_⟩
  · exact List.forall_mem_cons.mpr ⟨h.emitted hparam, fun t ht => h.emitted (hresults t ht)⟩
  · exact (h.lowerMatch (h.identPiece hmention) (h.identPiece_typed hmention) hc hposition _ _ _ hstate hmatch).1

/-! ## Statements -/

omit h in
theorem bindingType (hty : ∀ t ∈ decl.ty, R.ty t) (hsource : value.source = decl.value)
    (hv : decl.ty = none → value.Typed R env) {s s' : LowerState} (hs : R.State s)
    (hbound : Lower.bindingType env decl s = .ok ty s) {lowered : Expr}
    (hlowered : value.value (some ty) s = .ok lowered s') : R.ty ty := by
  obtain ⟨-, hwritten | ⟨hnone, heq⟩, hnil, hvoid⟩ := bindingType_known hbound
  · exact hty ty hwritten
  · have hfits : ∀ t ∈ some ty, (s.inferred env value.source).Fits t := by
      rw [hsource, heq]
      simpa using s.fits_typeOf
    have hknown := hv hnone s hs.scope s (.value hfits hlowered) (.refl)
    rw [hsource, ← heq] at hknown
    exact hknown.ty hnil hvoid

theorem storeValue {value : Expr} (hv : value.Every R.node) (hty : R.ty ty) :
    R.Yields (Lower.storeValue env source value ty) :=
  .after (framed.isWrapperRead mentionsAny) fun _ => .ite
    (fun _ => .ofChecked fun _ hs => h.rewrap hv hty hs) fun _ => .ofChecked fun _ hs => h.wrap hv hty hs

omit h in
theorem wrapperType_ok (hs : Storage.wrapperType env t span = .ok w) :
    env.wrapperType t = .ok w ∧ w = .generic (.named env.runtime Ty.wrapperName) [t] := by
  unfold Storage.wrapperType at hs
  cases hw : env.wrapperType t with
  | error d =>
    rw [hw] at hs
    cases hs
  | ok w' =>
    rw [hw] at hs
    cases hs
    refine ⟨rfl, ?_⟩
    simp only [Env.wrapperType, Ty.wrapIn, Ty.checkedApply, Bind.bind, Except.bind] at hw
    split at hw
    · cases hw
    · cases hw
      rfl

omit h in
theorem binding_wrapper {x : String} (hx : R.name x) (ht : R.ty t)
    (hs : Storage.wrapperType env t span = .ok w) : R.Binding x ⟨.val, w⟩ := by
  obtain ⟨-, rfl⟩ := wrapperType_ok hs
  exact ⟨hx, .inr ht, nofun⟩

theorem lowerLocal (hname : R.name decl.name.val) (hty : ∀ t ∈ decl.ty, R.ty t)
    (hsource : value.source = decl.value) (hv : value.Obeys R) (htyped : decl.ty = none → value.Typed R env) :
    R.Runs R.Stmts (Lower.lowerLocal env decl value) := by
  intro s stmts s' hs hrun
  obtain ⟨ty, s1, hbound, hvalue⟩ := bind_ok hrun
  obtain rfl := (bindingType_known hbound).1
  obtain ⟨lowered, s2, hlowered, hrest⟩ := bind_ok hvalue
  have hty := bindingType hty hsource htyped hs hbound hlowered
  obtain ⟨hlowered, hs⟩ := hv.value (by simpa using hty) _ _ _ hs hlowered
  refine Runs.ite (fun _ => ?_) (fun _ => ?_) _ _ _ hs hrest
  · exact .bind (.bindName (h.binding hname hty)) fun _ _ =>
      .pure (.one (h.var hty hlowered))
  · refine .bind (h.storeValue hlowered hty) fun stored hstored => ?_
    refine .bind (.ofChecked fun w hw => binding_wrapper hname hty hw) fun w hw => ?_
    exact .bind (.bindName hw) fun _ _ => .pure (.one (h.define hstored))

theorem valStmt (hname : R.name decl.name.val) (hty : ∀ t ∈ decl.ty, R.ty t)
    (hsource : value.source = decl.value) (hv : value.Obeys R) (htyped : decl.ty = none → value.Typed R env) :
    (Lower.valStmt env decl value).Obeys R := by
  refine ⟨framed.valStmt mentionsAny hv.tidy, fun later => ?_, fun _ he => nomatch he⟩
  refine (h.lowerLocal hname hty hsource hv htyped).bind fun stmts hstmts => .pure ?_
  split
  · exact hstmts
  · exact hstmts.append (.one (h.touch (h.written (h.boundName hname))))

omit h in
theorem assigned (hscope : R.Scope scope) (hchecked : Storage.checkAssignBinding scope name span = .ok ()) :
    R.name name ∧ R.ty (scope.typeOf name) := by
  obtain ⟨b, hfind, hvar⟩ := checkAssignBinding_ok hchecked
  exact ⟨(hscope name b hfind).name, by simpa [Scope.typeOf, hfind] using (hscope name b hfind).variable_ty hvar⟩

theorem assignTarget (ht : target.Obeys R) (htyped : ∀ q ∈ target.parts.head?, q.Typed R env) :
    R.Runs (fun place => place.1.Every R.node ∧ (place.2 = .nil ∨ R.ty place.2))
      (Lower.assignTarget env target span) := by
  refine .of_framed (framed.assignTarget ht.tidy) fun s place s' hs hrun => ?_
  obtain ⟨place, ty⟩ := place
  cases assignTarget_run hrun with
  | name _ hchecked =>
    obtain ⟨hname, hty⟩ := assigned hs.scope hchecked
    exact ⟨h.written (h.boundName hname), .inr hty⟩
  | @field t member receiver _ _ hsource hparts _ hv =>
    have hknown := htyped receiver (by simp [hparts]) _ hs.scope _ (.plain hv) (.refl)
    refine ⟨h.selector ((ht.parts receiver (by simp [hparts])).plainValue _ _ _ hs hv).1, ?_⟩
    cases hfield : env.field? (s.typeOf env receiver.source) member.val with
    | none => exact .inl rfl
    | some info => exact .inr (h.field? (hknown.of_field hfield) hfield)
  | @element _ _ sequence index _ _ elem _ _ _ hparts hty hx hy =>
    have hknown := htyped sequence (by simp [hparts]) _ hs.scope _ (.plain hx) (.refl)
    obtain ⟨hx, hstate⟩ := (ht.parts sequence (by simp [hparts])).plainValue _ _ _ hs hx
    have hy := (ht.parts index (by simp [hparts])).plainValue _ _ _ hstate hy
    refine ⟨h.index hx hy.1, .inr ?_⟩
    change R.Known (s.typeOf env sequence.source) at hknown
    rcases hty with hty | ⟨key, hty⟩
    · exact h.array (hty ▸ hknown.ty (by rw [hty]; rfl) (by rw [hty]; rfl))
    · exact (h.map (hty ▸ hknown.ty (by rw [hty]; rfl) (by rw [hty]; rfl))).2

theorem assignStmt (ht : target.Obeys R) (htyped : ∀ q ∈ target.parts.head?, q.Typed R env)
    (hv : value.Obeys R) (op : Option BinaryOp)
    (hplace : ∀ s place s', R.State s → Lower.assignTarget env target span s = .ok place s' →
      ∀ v : Expr, R.node (.stmt (.assign [place.1] op [v]))) : (Lower.assignStmt env target op value span).Obeys R := by
  refine ⟨framed.assignStmt ht.tidy hv.tidy, fun later => ?_, fun _ he => nomatch he⟩
  have htarget := fun s place s' hs hrun => (h.assignTarget ht htyped s place s' hs hrun).imp_left
    fun hobeys => And.intro (hplace s place s' hs hrun) hobeys
  refine Runs.bind htarget fun place ⟨hnode, hevery, hty⟩ => ?_
  have hexpected : ∀ t ∈ (if place.2.isNil then none else some place.2), R.ty t := by
    rcases hty with hnil | hty
    · simp [hnil, Ty.isNil]
    · split
      · simp
      · simpa using hty
  refine .bind (hv.value hexpected) fun lowered hlowered => .pure ?_
  refine .one (Stmt.every_assign.mpr ⟨hnode lowered, ?_, ?_⟩)
  · exact List.forall_mem_singleton.mpr hevery
  · exact List.forall_mem_singleton.mpr hlowered

omit h in
theorem exprStmt {e : Piece} (he : e.Flows R) : (Lower.exprStmt e).Obeys R := by
  refine ⟨framed.exprStmt he.tidy, fun _ => he.effect, fun e' heq => ?_⟩
  cases heq
  exact he

theorem lowerReturn {value : Option Piece} (hv : ∀ v ∈ value, v.Flows R) :
    R.Runs R.Stmts (Lower.lowerReturn value span) := by
  have hret : R.Stmts [.ret []] := .one (h.ret (by simp))
  have hget : R.Runs R.State (get : Lower LowerState) := by
    intro s a s' hs hrun
    cases hrun
    exact ⟨hs, hs⟩
  refine .bind hget fun s hs => ?_
  split
  · exact .fail
  · rename_i function functions hfunctions
    have hresult : R.Result function.result := hs.functions function (hfunctions ▸ .head _)
    cases value with
    | none => exact .check (.ite (fun _ => .pure hret) fun _ => .fail)
    | some v =>
      have hv := hv v rfl
      refine .check (.ite (fun _ => ?_) fun _ => hv.tail hresult)
      exact .bind hv.effect fun stmts hstmts => .pure (hstmts.append hret)

theorem returnStmt {value : Option Piece} (hv : ∀ v ∈ value, v.Flows R) :
    (Lower.returnStmt value span).Obeys R := by
  exact ⟨framed.returnStmt fun v hmem => (hv v hmem).tidy, fun _ => h.lowerReturn hv, fun _ he => nomatch he⟩

/-! ## Blocks -/

omit h in
theorem lowerStmts (hresult : R.Result result) (hs : ∀ p ∈ stmts, p.Obeys R) :
    R.Runs R.Stmts (Lower.lowerStmts result stmts) := by
  fun_induction Lower.lowerStmts result stmts with
  | case1 => exact .pure .nil
  | case2 last e he hvoid => exact (hs last (.head _)).run []
  | case3 last e he hvoid =>
    exact ((hs last (.head _)).expr e he).tail hresult
  | case4 last he => exact (hs last (.head _)).run []
  | case5 stmt later hlater ih =>
    exact ((hs stmt (.head _)).run _).bind fun stmts hstmts =>
      (ih fun p hp => hs p (.tail _ hp)).bind fun rest hrest => .pure (hstmts.append hrest)

omit h in
theorem lowerBlock (hresult : R.Result result) (hs : ∀ p ∈ stmts, p.Obeys R) :
    R.Runs R.Stmts (Lower.lowerBlock stmts result span) := by
  refine .of_framed (framed.lowerBlock fun p hp => (hs p hp).tidy) fun s lowered s' hstate hrun => ?_
  exact Runs.inScope (.bind (lowerStmts hresult hs) fun lowered hlowered => .check (.pure hlowered)) hstate hrun

theorem loopStmt (hc : cond.Obeys R) {body : List StmtPiece} (hb : ∀ p ∈ body, p.Obeys R)
    (source : Located Source.Stmt) : (Lower.loopStmt cond body source).Obeys R := by
  refine ⟨framed.loopStmt hc.tidy fun p hp => (hb p hp).tidy, fun _ => ?_, fun _ he => nomatch he⟩
  refine .bind (hc.value (by simpa using h.bool)) fun cond hcond => ?_
  exact .bind (lowerBlock (.inl rfl) hb) fun stmts hstmts =>
    .pure (.one (h.loop hcond hstmts))

theorem blockPiece_flows (hsource : R.Permits source.val.items) (hs : ∀ p ∈ stmts, p.Obeys R) :
    (Lower.blockPiece env source stmts).Flows R := by
  have htidy : ∀ p ∈ stmts, p.Tidy := fun p hp => (hs p hp).tidy
  have hbraces : ∀ result, R.Result result → R.Runs R.Stmts (do
      let body ← Lower.lowerBlock stmts result source.span
      pure [Stmt.block body]) := fun result hresult =>
    .bind (lowerBlock hresult hs) fun body hbody =>
      .pure (.one (h.block hbody))
  have hpiece : (Piece.ofStmts env source _ _).Flows R := ofStmts_flows (framed.ofStmts mentionsAny
    (fun _ => .map (framed.lowerBlock htidy))
    (.map (framed.lowerBlock htidy))) hsource hbraces (hbraces _ (.inl rfl))
  exact ⟨framed.blockPiece mentionsAny htidy, hsource, hpiece.tail, hpiece.effect, fun hr => lowerBlock hr hs⟩

theorem blockPiece (hflows : (Lower.blockPiece env source stmts).Flows R)
    (htyped : R.TypesTail env source (Lower.blockPiece env source stmts).tail)
    (hvalue : (∃ stmt run e, stmts = [⟨stmt, run, some e⟩] ∧ e.Obeys R) ∨
      (∀ stmt run e, stmts ≠ [⟨stmt, run, some e⟩]) ∧ ∀ result, R.Result result → result.isVoid = false →
        MakesLit R result ((Lower.blockPiece env source stmts).tail result)) :
    (Lower.blockPiece env source stmts).Obeys R := by
  refine ⟨hflows, fun expected he => ?_, fun _ hq => nomatch hq⟩
  rcases hvalue with ⟨stmt, run, e, rfl, hobeys⟩ | ⟨hother, hf⟩
  · exact .nested (hobeys.value he)
  · have hplace := h.invokeInPlace htyped he hflows.tidy.tail (fun _ => hflows.tail) hf
    unfold Lower.blockPiece at hplace ⊢
    split
    · rename_i stmt run e
      exact absurd rfl (hother stmt run e)
    · exact hplace.nested

theorem ifPiece_flows (hsource : R.Permits source.val.items) {thenBranch : Piece}
    {elseBranch : Option Piece} (hc : cond.Obeys R) (ht : thenBranch.Flows R) (he : ∀ e ∈ elseBranch, e.Flows R) :
    (Lower.ifPiece env source cond thenBranch elseBranch).Flows R := by
  have hbool : ∀ t ∈ some Ty.bool, R.ty t := by simpa using h.bool
  refine ofStmts_flows (framed.ifPiece mentionsAny hc.tidy ht.tidy fun e hmem => (he e hmem).tidy) hsource
    (fun result hresult => ?_) ?_
  · cases elseBranch with
    | none => exact .fail
    | some e =>
      exact .bind (hc.value hbool) fun c hc => .bind (ht.tail hresult) fun t ht =>
        .bind ((he e rfl).tail hresult) fun e he => .pure (.one (h.ifElse hc ht he))
  · refine .bind (hc.value hbool) fun c hc => .bind ht.effect fun t ht => ?_
    have hif : ∀ e, R.Stmts e → R.Runs R.Stmts (pure [.ifElse c t e]) := fun e he =>
      .pure (.one (h.ifElse hc ht he))
    cases elseBranch with
    | none => exact .bind (.pure .nil) hif
    | some e => exact .bind (he e rfl).effect hif

theorem matchPiece_flows (hsource : R.Permits source.val.items) {subject : Piece}
    (hs : subject.Obeys R) (hsubject : subject.Typed R env) (hc : ∀ c ∈ clauses, c.Obeys R) :
    (Lower.matchPiece env source subject clauses).Flows R :=
  ofStmts_flows (framed.matchPiece mentionsAny hs.tidy fun c hmem => (hc c hmem).tidy) hsource
    (fun result hresult => h.lowerMatch hs hsubject hc (show Stands R (.tail result) from hresult))
    (h.lowerMatch hs hsubject hc (show Stands R .effect from trivial))

/-! ## The source -/

omit h in
theorem value_gaps {name : Located String} {mutable : Bool} {ty : Option Ty} {value : Located Source.Expr}
    (hgaps : ∀ g ∈ (Source.Stmt.val ⟨name, mutable, ty, value⟩).gaps, G g) : ∀ g ∈ value.val.gaps, G g := by
  cases ty with
  | none => exact (List.forall_mem_append.mp hgaps).2
  | some ty => exact hgaps

theorem inPlace (hitems : R.Permits e.val.items) (horigin : R.origin ⟨[], e.val, some true⟩)
    (result : Ty) (hresult : R.Result result) (hvoid : result.isVoid = false) :
    MakesLit R result ((Lower.piece env e).tail result) := by
  intro s body s' hs hinside hrun
  have htypes : ∀ t ∈ (Node.expr (.funcLit [] result.results body)).types, R.emitted t := fun t ht =>
    h.emitted (hresult.results t (by simpa using ht))
  have hflow := (piece_flow env).tail result s body s' hrun
  refine h.made (.intro (.expr e) hitems hs hinside hflow rfl (.inl rfl) horigin ⟨rfl, .refl _, fun r hr => ?_⟩ (.inl rfl))
    htypes
  rw [hvoid, ← Option.mem_some.mp hr]
  rfl

theorem inPlace_typed (hitems : R.Permits e.val.items) (hfilled : e.val.Filled G) :
    R.TypesTail env e (Lower.piece env e).tail := by
  have htyped := (h.typed hitems hfilled).tail
  rwa [piece_source] at htyped

theorem valuePiece {value : Option Ty → Lower Expr} {parts : List Piece}
    (hpiece : Lower.piece env e = .ofValue env e value parts) (hitems : R.Permits e.val.items)
    (hvalue : ∀ expected, (∀ t ∈ expected, R.ty t) → R.Yields (value expected))
    (hparts : ∀ q ∈ parts, q.Obeys R) : (Lower.piece env e).ObeysFrom R e.val.ownOrigins := by
  have htidy := piece_tidy env e
  rw [hpiece] at htidy ⊢
  exact (h.ofValue htidy hitems hvalue hparts).obeysFrom

theorem stmtsPiece {tail : Ty → Lower (List Stmt)} {effect : Lower (List Stmt)}
    (hpiece : Lower.piece env e = .ofStmts env e tail effect) (hitems : R.Permits e.val.items)
    (hgaps : e.val.Filled G) (hflows : (Lower.piece env e).Flows R)
    (hown : e.val.ownOrigins = [⟨[], e.val, some true⟩]) : (Lower.piece env e).ObeysFrom R e.val.ownOrigins := by
  have hf := h.inPlace hitems
  have htyped := h.inPlace_typed hitems hgaps
  rw [hpiece] at hf htyped hflows ⊢
  refine hflows.obeysFrom fun hflows horigins => h.ofStmts hflows htyped (hf (horigins _ ?_))
  rw [hown]
  exact .head _

omit h

mutual

theorem piece (h : R.Sound G env) : ∀ e : Located Source.Expr, R.Admits G e.val.items e.val.gaps e.val.origins →
    (Lower.piece env e).ObeysFrom R e.val.ownOrigins
  | ⟨.lit value, span⟩, hs => by
    exact h.valuePiece (by rw [Lower.piece]) hs.items (fun _ _ => .pure h.lit) (List.forall_mem_nil _)
  | ⟨.nil, span⟩, hs => by
    exact h.valuePiece (by rw [Lower.piece]) hs.items (fun _ _ => .pure h.toPlain.nil) (List.forall_mem_nil _)
  | ⟨.ident name, span⟩, hs => by
    simp only [Lower.piece]
    exact (h.identPiece (hs.items _ (.head _))).obeysFrom
  | ⟨.call callee typeArgs args, span⟩, hs => by
    obtain ⟨hcallee, hargs⟩ := hs.split
    obtain ⟨htypes, hitems⟩ := permits_append.mp hcallee.items
    have hpiece := Rule.Admits.obeys { hcallee.inside with items := hitems } (piece h callee)
    have hargs := argPieces h args hargs
    refine h.valuePiece (by rw [Lower.piece]) hs.items (fun expected he => ?_) (List.forall_mem_nil _)
    exact h.lowerCall hpiece hitems hcallee.gaps (permits_tys.mp htypes) hargs he
  | ⟨.select target member, span⟩, hs => by
    have htarget := Rule.Admits.obeys { hs.inside with items := (permits_append.mp hs.items).2 } (piece h target)
    exact h.valuePiece (by rw [Lower.piece]) hs.items (fun _ _ => h.lowerSelect htarget)
      (List.forall_mem_singleton.mpr htarget)
  | ⟨.index target index, span⟩, hs => by
    obtain ⟨htarget, hindex⟩ := hs.split
    have htarget := htarget.inside.obeys (piece h target)
    have hindex := hindex.obeys (piece h index)
    refine h.valuePiece (by rw [Lower.piece]) hs.items (fun _ _ => ?_) (by simpa using ⟨htarget, hindex⟩)
    refine .after typeOf_framed fun ty => .bind htarget.plainValue fun x hx => ?_
    refine .bind hindex.plainValue fun i hi => .pure ?_
    split
    · exact h.method hx (List.forall_mem_singleton.mpr hi)
    · exact h.index hx hi
  | ⟨.binary left op right, span⟩, hs => by
    obtain ⟨hleft, hright⟩ := hs.split
    have hleft := hleft.inside.obeys (piece h left)
    have hright := hright.inside.obeys (piece h right)
    refine h.valuePiece (by rw [Lower.piece]) hs.items (fun _ _ => ?_) (List.forall_mem_nil _)
    exact .bind hleft.plainValue fun l hl => .bind hright.plainValue fun r hr => .pure (h.binary hl hr)
  | ⟨.unary op operand, span⟩, hs => by
    have hoperand := hs.inside.obeys (piece h operand)
    refine h.valuePiece (by rw [Lower.piece]) hs.items (fun _ _ => ?_) (List.forall_mem_nil _)
    exact .bind hoperand.plainValue fun x hx => .pure (h.unary hx)
  | ⟨.lambda params body, span⟩, hs => by
    obtain ⟨hparams, hbody⟩ := permits_append.mp hs.items
    obtain ⟨hown, hinner⟩ := List.forall_mem_cons.mp hs.origins
    have hpiece := (piece h body ⟨hbody, hs.inside.gaps, hinner⟩).flows
    have htyped := h.typed hbody hs.gaps
    refine h.valuePiece (by rw [Lower.piece]) hs.items (fun expected he => ?_) (List.forall_mem_nil _)
    refine h.lowerLambda (permits_lambdaParams.mp hparams) hpiece htyped he
      fun result s stmts s' hs hinside hrun n hn htypes hnames => ?_
    have hflow := (piece_flow env).body result s stmts s' hrun
    exact h.made (.intro (.body body) hbody hs hinside hflow hn (.inl rfl) hown
      ⟨rfl, hnames ▸ .refl _, fun _ hr => nomatch hr⟩ (.inl rfl)) htypes
  | ⟨.ifElse cond thenBranch none, span⟩, hs => by
    obtain ⟨hcond, hthen⟩ := hs.split
    have hcond := hcond.obeys (piece h cond)
    have hthen := (piece h thenBranch hthen).flows
    refine h.stmtsPiece (by rw [Lower.piece]; rfl) hs.items hs.gaps ?_ rfl
    rw [Lower.piece]
    exact h.ifPiece_flows hs.items hcond hthen (by simp)
  | ⟨.ifElse cond thenBranch (some elseBranch), span⟩, hs => by
    obtain ⟨hrest, helse⟩ := hs.split
    obtain ⟨hcond, hthen⟩ := hrest.split
    have hcond := hcond.obeys (piece h cond)
    have hthen := (piece h thenBranch hthen.inside).flows
    have helse := (piece h elseBranch helse.inside).flows
    refine h.stmtsPiece (by rw [Lower.piece]; rfl) hs.items hs.gaps ?_ rfl
    rw [Lower.piece]
    exact h.ifPiece_flows hs.items hcond hthen (by simpa using helse)
  | ⟨.matchOn subject clauses, span⟩, hs => by
    obtain ⟨hsubject, hclauses⟩ := hs.split
    have hpiece := hsubject.inside.obeys (piece h subject)
    have hclauses := clausePieces h clauses hclauses
    have hsubject := h.typed hsubject.items hsubject.gaps
    refine h.stmtsPiece (by rw [Lower.piece]; rfl) hs.items hs.gaps ?_ rfl
    rw [Lower.piece]
    exact h.matchPiece_flows hs.items hpiece hsubject hclauses
  | ⟨.tuple elems, span⟩, hs => by
    have helems := exprPieces h elems hs
    exact h.valuePiece (by rw [Lower.piece]) hs.items (fun _ he => h.lowerTuple (fun p hp => (helems p hp).1)
      (fun p hp => (helems p hp).2) he) (List.forall_mem_nil _)
  | ⟨.caseFunction clauses, span⟩, hs => by
    obtain ⟨hown, hinner⟩ := List.forall_mem_cons.mp hs.origins
    have hclauses := clausePieces h clauses { hs with origins := hinner }
    refine h.valuePiece (by rw [Lower.piece]) hs.items (fun _ he => ?_) (List.forall_mem_nil _)
    have hitems := hs.items
    refine h.lowerCaseFunction hclauses he (lowerCaseFunction_has framedFamily _ _ fun _ =>
      clausePieces_has env framedFamily clauses fun _ _ => .inl trivial) fun s param results body s1 hs hrun htypes => ?_
    have hflow := match_flow (ident_follows env s.names.fresh.1 span) (clauses_follow env clauses) (results.headD .void) span
    rw [Lower.piece] at hflow
    exact h.made (.intro (.matchOn s.names.fresh.1 span clauses) hitems hs ⟨_, _, rfl⟩ (hflow _ body s1 hrun) rfl
      (.inr ⟨rfl, rfl⟩) hown ⟨rfl, .refl _, fun _ hr => nomatch hr⟩ (.inr ⟨s.names, rfl, rfl⟩)) (by simpa using htypes)
  | ⟨.block stmts, span⟩, hs => by
    have hf := h.inPlace (e := ⟨.block stmts, span⟩) hs.items
    have htyped := h.inPlace_typed (e := ⟨.block stmts, span⟩) hs.items hs.gaps
    have hstmts := stmtPieces h stmts hs
    have hvalue := blockValue h stmts hs
    simp only [Lower.piece] at hf htyped ⊢
    refine (h.blockPiece_flows hs.items hstmts).obeysFrom fun hflows hown => h.blockPiece hflows htyped ?_
    rcases hvalue hown with hsingle | ⟨hother, horigin⟩
    · exact .inl hsingle
    · exact .inr ⟨hother, hf horigin⟩

theorem exprPieces (h : R.Sound G env) : ∀ es : List (Located Source.Expr),
    R.Admits G (Source.Expr.itemsOf es) (Source.Expr.gapsOf es) (Source.Expr.originsOf es) →
    ∀ p ∈ Lower.exprPieces env es, p.Obeys R ∧ p.Typed R env
  | [], _ => by simp [Lower.exprPieces]
  | e :: es, hs => by
    obtain ⟨he, hes⟩ := hs.split
    have hpiece := he.inside.obeys (piece h e)
    simp only [Lower.exprPieces]
    exact List.forall_mem_cons.mpr ⟨⟨hpiece, h.typed he.items he.gaps⟩, exprPieces h es hes⟩

theorem argPieces (h : R.Sound G env) : ∀ args : List Arg,
    R.Admits G (Arg.itemsOf args) (Arg.gapsOf args) (Arg.originsOf args) →
    Args R (Lower.argPieces env args)
  | [], _ => by simp [Lower.argPieces, Args]
  | ⟨name, value⟩ :: args, hs => by
    obtain ⟨hvalue, hargs⟩ := hs.split
    simp only [Lower.argPieces]
    exact List.forall_mem_cons.mpr ⟨hvalue.obeys (piece h value), argPieces h args hargs⟩

theorem clausePiece (h : R.Sound G env) : ∀ c : Clause, R.Admits G c.items c.gaps c.origins →
    (Lower.clausePiece env c).Obeys R
  | ⟨pattern, none, body⟩, hs => by
    obtain ⟨hpattern, hbody⟩ := permits_append.mp hs.items
    simp only [Lower.clausePiece]
    exact ⟨hpattern, by simp, (piece h body { hs with items := hbody }).flows⟩
  | ⟨pattern, some guard, body⟩, hs => by
    obtain ⟨hguard, hbody⟩ := hs.split
    obtain ⟨hpattern, hitems⟩ := permits_append.mp hguard.items
    have hguard := Rule.Admits.obeys { hguard with items := hitems } (piece h guard)
    simp only [Lower.clausePiece]
    exact ⟨hpattern, by simpa using hguard, (piece h body hbody).flows⟩

theorem clausePieces (h : R.Sound G env) : ∀ cs : List Clause,
    R.Admits G (Clause.itemsOf cs) (Clause.gapsOf cs) (Clause.originsOf cs) →
    ∀ c ∈ Lower.clausePieces env cs, c.Obeys R
  | [], _ => by simp [Lower.clausePieces]
  | c :: cs, hs => by
    obtain ⟨hc, hcs⟩ := hs.split
    simp only [Lower.clausePieces]
    exact List.forall_mem_cons.mpr ⟨clausePiece h c hc, clausePieces h cs hcs⟩

theorem stmtPiece (h : R.Sound G env) : ∀ s : Located Source.Stmt, R.Admits G s.val.items s.val.gaps s.val.origins →
    (Lower.stmtPiece env s).Obeys R
  | ⟨.val ⟨name, mutable, ty, value⟩, span⟩, hs => by
    obtain ⟨hname, hrest⟩ := permits_cons.mp hs.items
    obtain ⟨hty, hvalue⟩ := permits_append.mp hrest
    have hpiece := Rule.Admits.obeys ⟨hvalue, value_gaps hs.gaps, hs.origins⟩ (piece h value)
    simp only [Lower.stmtPiece]
    refine h.valStmt ?_ ?_ (piece_source _ _) hpiece ?_
    · exact hname
    · exact permits_ty?.mp hty
    rintro rfl
    exact h.typed hvalue hs.gaps
  | ⟨.assign target op value, span⟩, hs => by
    obtain ⟨hplace, hitems⟩ := permits_cons.mp hs.items
    obtain ⟨htarget, hvalue⟩ := Admits.split { hs with items := hitems }
    have hpiece := htarget.obeys (piece h target)
    have hvalue := hvalue.obeys (piece h value)
    simp only [Lower.stmtPiece]
    exact h.assignStmt hpiece (h.head_typed htarget.items htarget.gaps) hvalue op
      fun s place s' hs hrun => h.place hplace hs hrun op
  | ⟨.expr e, span⟩, hs => by
    simp only [Lower.stmtPiece]
    exact exprStmt (piece h e hs.inside).flows
  | ⟨.ret none, span⟩, _ => by
    simp only [Lower.stmtPiece]
    exact h.returnStmt (by simp)
  | ⟨.ret (some value), span⟩, hs => by
    have hvalue := (piece h value hs).flows
    simp only [Lower.stmtPiece]
    exact h.returnStmt (by simpa using hvalue)
  | ⟨.loop cond body, span⟩, hs => by
    obtain ⟨hcond, hbody⟩ := hs.split
    have hcond := hcond.obeys (piece h cond)
    simp only [Lower.stmtPiece]
    exact h.loopStmt hcond (stmtPieces h body hbody) _

theorem stmtPieces (h : R.Sound G env) : ∀ ss : List (Located Source.Stmt),
    R.Admits G (Source.Stmt.itemsOf ss) (Source.Stmt.gapsOf ss) (Source.Stmt.originsOf ss) →
    ∀ p ∈ Lower.stmtPieces env ss, p.Obeys R
  | [], _ => by simp [Lower.stmtPieces]
  | s :: ss, hs => by
    obtain ⟨hs, hss⟩ := hs.split
    simp only [Lower.stmtPieces]
    exact List.forall_mem_cons.mpr ⟨stmtPiece h s hs, stmtPieces h ss hss⟩

theorem blockValue (h : R.Sound G env) : ∀ ss : List (Located Source.Stmt),
    R.Admits G (Source.Stmt.itemsOf ss) (Source.Stmt.gapsOf ss) (Source.Stmt.originsOf ss) →
    (∀ o ∈ (Source.Expr.block ss).ownOrigins, R.origin o) →
    (∃ stmt run e, Lower.stmtPieces env ss = [⟨stmt, run, some e⟩] ∧ e.Obeys R) ∨
      (∀ stmt run e, Lower.stmtPieces env ss ≠ [⟨stmt, run, some e⟩]) ∧ R.origin ⟨[], .block ss, some true⟩
  | [⟨.expr e, _⟩], hs, hown => by
    have hpiece := (piece h e hs.split.1.inside).obeys hown
    exact .inl ⟨_, _, _, by simp only [Lower.stmtPieces, Lower.stmtPiece]; rfl, hpiece⟩
  | [], _, hown => .inr ⟨by simp [Lower.stmtPieces], hown _ (.head _)⟩
  | ⟨.val ⟨_, _, _, _⟩, _⟩ :: _, _, hown =>
    .inr ⟨by simp [Lower.stmtPieces, Lower.stmtPiece, Lower.valStmt], hown _ (.head _)⟩
  | ⟨.assign _ _ _, _⟩ :: _, _, hown =>
    .inr ⟨by simp [Lower.stmtPieces, Lower.stmtPiece, Lower.assignStmt], hown _ (.head _)⟩
  | ⟨.ret none, _⟩ :: _, _, hown | ⟨.ret (some _), _⟩ :: _, _, hown =>
    .inr ⟨by simp [Lower.stmtPieces, Lower.stmtPiece, Lower.returnStmt], hown _ (.head _)⟩
  | ⟨.loop _ _, _⟩ :: _, _, hown =>
    .inr ⟨by simp [Lower.stmtPieces, Lower.stmtPiece, Lower.loopStmt], hown _ (.head _)⟩
  | ⟨.expr _, _⟩ :: _ :: _, _, hown => .inr ⟨by simp [Lower.stmtPieces], hown _ (.head _)⟩

end

include h

/-! ## Bindings of the package -/

theorem lowerGlobal (hitems : R.Permits (Decl.val decl).items)
    (hgaps : ∀ g ∈ (Decl.val decl).gaps, G g) (horigins : ∀ o ∈ (Decl.val decl).origins, R.origin o) :
    R.Runs (·.Every R.node) (Lower.lowerGlobal env decl) := by
  obtain ⟨name, mutable, written, value⟩ := decl
  obtain ⟨-, hrest⟩ := permits_cons.mp hitems
  obtain ⟨hty, hvalue⟩ := permits_append.mp hrest
  have hvar : ∀ {ty : Ty} {lowered : Expr}, R.emitted ty → lowered.Every R.node →
      (Target.Decl.var name.val (some ty) (some lowered)).Every R.node := fun hemitted hevery =>
    List.forall_mem_cons.mpr ⟨h.plain _ rfl (by simpa using hemitted) nofun (by simp), hevery⟩
  have hpiece : (Lower.piece env value).Obeys R := by
    cases written with
    | none => exact Rule.Admits.obeys ⟨hvalue, (List.forall_mem_append.mp hgaps).2, horigins⟩ (h.piece value)
    | some ty => exact Rule.Admits.obeys ⟨hvalue, hgaps, horigins⟩ (h.piece value)
  have htyped : written = none → (Lower.piece env value).Typed R env := by
    rintro rfl
    exact h.typed hvalue hgaps
  refine .of_framed (lowerGlobal_framed _) fun s d s' hs hrun => ?_
  obtain ⟨ty, s1, hbound, hlower⟩ := bind_ok hrun
  obtain rfl := (bindingType_known hbound).1
  obtain ⟨lowered, s2, hlowered, hdecl⟩ := bind_ok hlower
  have hty := bindingType (permits_ty?.mp hty) (piece_source env value) htyped hs hbound hlowered
  obtain ⟨hlowered, hs⟩ := hpiece.value (by simpa using hty) _ _ _ hs hlowered
  refine (Runs.ite (fun _ => ?_) (fun _ => ?_) _ _ _ hs hdecl).1
  · exact .pure (hvar (h.emitted hty) hlowered)
  · refine .bind (.ofChecked fun w hw => h.wrapper hty (wrapperType_ok hw).1) fun w hw => ?_
    exact .bind (h.storeValue hlowered hty) fun stored hstored => .pure (hvar hw hstored)

/-! ## Functions and methods -/

structure FuncItems (R : Rule) (d : FuncDecl) : Prop where
  constraints : ∀ p ∈ d.typeParams, ∀ t ∈ p.constraint, R.ty t
  receiver : ∀ r ∈ d.receiver, R.name r.name ∧ R.ty r.ty
  params : ∀ p ∈ d.params, R.name p.name.val ∧ R.ty p.ty
  result : R.Result (d.result.getD .void)
  body : R.Permits d.body.val.items

omit h in
theorem constraints_of_permits (hitems : R.Permits (params.flatMap TypeParam.items)) :
    ∀ p ∈ params, ∀ t ∈ p.constraint, R.ty t :=
  fun p hp => permits_ty?.mp (permits_cons.mp (permits_flatMap.mp hitems p hp)).2

omit h in
theorem funcItems (hitems : R.Permits (Decl.func d).items) : FuncItems R d := by
  obtain ⟨-, hrest⟩ := permits_cons.mp hitems
  obtain ⟨hrest, hbody⟩ := permits_append.mp hrest
  obtain ⟨hrest, hresult⟩ := permits_append.mp hrest
  obtain ⟨hrest, hparams⟩ := permits_append.mp hrest
  obtain ⟨htypeParams, hreceiver⟩ := permits_append.mp hrest
  refine ⟨constraints_of_permits htypeParams, fun r hr => ?_, fun p hp => ?_, ?_, hbody⟩
  · obtain ⟨hname, hrest⟩ := permits_cons.mp (permits_flatMap.mp hreceiver r (Option.mem_toList.mpr hr))
    exact ⟨hname, (permits_cons.mp hrest).1⟩
  · obtain ⟨hname, hrest⟩ := permits_cons.mp (permits_flatMap.mp hparams p hp)
    exact ⟨hname, (permits_cons.mp hrest).1⟩
  · cases hr : d.result with
    | none => exact .inl rfl
    | some result => exact .inr (permits_ty?.mp hresult result hr)

theorem lowerBody (hd : FuncItems R d) (hgaps : ∀ g ∈ d.body.val.gaps, G g) (hown : R.origin d.origin)
    (hinner : ∀ o ∈ d.body.val.origins, R.origin o) {typeParams : List String} :
    R.Runs (fun stmts => (∀ n : Node, n.function? = some ((d.result.getD .void).results, stmts) →
      (∀ t ∈ n.types, R.emitted t) → n.parameters.Sublist d.paramNames → R.node n) ∧ R.Stmts stmts)
      (Lower.lowerBody env d typeParams) := by
  have hbindings : ∀ b ∈ (d.receiver.toList.map fun r => (r.name, r.ty)) ++ d.params.map fun p => (p.name.val, p.ty),
      R.name b.1 ∧ R.Result b.2 := by
    simp only [List.forall_mem_append, List.forall_mem_map, Option.mem_toList]
    exact ⟨fun r hr => ⟨(hd.receiver r hr).1, .inr (hd.receiver r hr).2⟩,
      fun p hp => ⟨(hd.params p hp).1, .inr (hd.params p hp).2⟩⟩
  refine .of_framed lowerBody_framed fun s stmts s' hs hrun => ?_
  unfold Lower.lowerBody withTypeParams at hrun
  obtain ⟨s1, hrun, -⟩ := bracket_ok hrun
  obtain ⟨s2, hrun⟩ := withScope_ok hrun
  obtain ⟨_, s3, hbind, hrun⟩ := bind_ok hrun
  cases hbind
  obtain ⟨s4, hrun⟩ := withFunction_ok hrun
  obtain ⟨s, hs, hinside, hrun⟩ : ∃ s, R.State s ∧ s.Inside (d.result.getD .void) ∧
      (Lower.piece env d.body).body (d.result.getD .void) s = .ok stmts s4 := by
    refine ⟨_, ?_, ⟨_, _, rfl⟩, hrun⟩
    exact ⟨h.scope_bindAll hs.scope.enter hbindings, List.forall_mem_cons.mpr ⟨hd.result, hs.functions⟩, hs.stem⟩
  refine ⟨fun n hn htypes hparams => ?_, ((h.piece d.body ⟨hd.body, hgaps, hinner⟩).flows.body hd.result _ _ _ hs hrun).1⟩
  have hflow := (piece_flow env).body (d.result.getD .void) s stmts s4 hrun
  exact h.made (.intro (.body d.body) hd.body hs hinside hflow hn (.inl rfl) hown
    ⟨rfl, hparams, fun r hr => (Option.mem_some.mp hr).symm⟩ (.inl rfl)) htypes

theorem targetParams (hp : ∀ p ∈ params, ∀ t ∈ p.constraint, R.ty t) :
    ∀ p ∈ Lower.targetParams params, R.emitted p.constraint := by
  refine List.forall_mem_map.mpr fun p hmem => h.emitted ?_
  cases hc : p.constraint with
  | none => exact h.any
  | some t => exact hp p hmem t hc

theorem lowerFunc (hitems : R.Permits (Decl.func d).items)
    (hgaps : ∀ g ∈ (Decl.func d).gaps, G g) (horigins : ∀ o ∈ (Decl.func d).origins, R.origin o) :
    R.Runs (·.Every R.node) (Lower.lowerFunc env d) := by
  have hd := funcItems hitems
  obtain ⟨hown, hinner⟩ := List.forall_mem_cons.mp horigins
  -- All forms of a declaration emit the lowered body under types that are written.
  have hfunc : ∀ {name : String} {typeParams : List Target.TypeParam} {receiver : Option Target.Field}
      {params : List Target.Field} {names : List String}, (∀ p ∈ typeParams, R.emitted p.constraint) →
      (∀ r ∈ receiver, R.ty r.ty) → (∀ p ∈ params, R.ty p.ty) →
      receiver.toList.map (·.name) ++ params.map (·.name) = d.paramNames →
      R.Runs (·.Every R.node) (do
        let body ← Lower.lowerBody env d names
        pure (Target.Decl.func ⟨name, typeParams, receiver, params, (d.result.getD .void).results, body⟩)) := by
    intro name typeParams receiver params names htp hreceiver hparams hnames
    refine .bind (h.lowerBody hd hgaps hown hinner) fun body hbody =>
      .pure (Target.Decl.every_func.mpr ⟨hbody.1 _ rfl ?_ ?_, hbody.2⟩)
    · simp only [Node.types, List.forall_mem_append, List.forall_mem_map, Option.mem_toList]
      exact ⟨⟨⟨htp, fun r hr => h.emitted (hreceiver r hr)⟩, fun p hp => h.emitted (hparams p hp)⟩,
        fun t ht => h.emitted (hd.result.results t ht)⟩
    · rw [← hnames]
      exact List.filter_sublist.append (.refl _)
  have hparams : ∀ p ∈ d.params.map fun p => (⟨p.name.val, p.ty⟩ : Target.Field), R.ty p.ty :=
    List.forall_mem_map.mpr fun p hp => (hd.params p hp).2
  unfold Lower.lowerFunc
  split
  · rename_i hreceiver
    exact hfunc (h.targetParams hd.constraints) (by simp) hparams (by simp [FuncDecl.paramNames, hreceiver])
  · rename_i receiver hreceiver
    have hr : R.ty receiver.ty := (hd.receiver receiver hreceiver).2
    split
    · exact hfunc (by simp) (by simpa using hr) hparams (by simp [FuncDecl.paramNames, hreceiver])
    · refine hfunc ?_ (by simp) (List.forall_mem_cons.mpr ⟨hr, hparams⟩)
        (by simp [FuncDecl.paramNames, hreceiver])
      refine List.forall_mem_append.mpr ⟨List.forall_mem_map.mpr fun _ _ => h.emitted h.any, ?_⟩
      exact h.targetParams fun p hp => hd.constraints p (List.mem_of_mem_filter hp)

/-! ## Structs and sealed types -/

theorem struct {typeParams : List TypeParam} (htp : ∀ p ∈ typeParams, ∀ t ∈ p.constraint, R.ty t)
    (hf : ∀ f ∈ fields, R.emitted f.ty) :
    (Target.Decl.struct name (Lower.targetParams typeParams) fields).Every R.node := by
  refine List.forall_mem_singleton.mpr (h.plain _ rfl ?_ nofun (by simp))
  simp only [Node.types, List.forall_mem_append, List.forall_mem_map]
  exact ⟨h.targetParams htp, hf⟩

theorem lowerStruct {d : Source.StructDecl} (hitems : R.Permits (Decl.struct d).items)
    {decl : Target.Decl} (hs : Lower.lowerStruct env d = .ok decl) : decl.Every R.node := by
  obtain ⟨-, hrest⟩ := permits_cons.mp hitems
  obtain ⟨htp, hfields⟩ := permits_append.mp hrest
  obtain ⟨fields, hlowered, rfl⟩ := checked_map_ok hs
  refine h.struct (constraints_of_permits htp) (forall_mem_of_mapM_ok hlowered fun f field hf hfield => ?_)
  have hty : R.ty f.ty := hfields (.ty f.ty) (List.mem_map.mpr ⟨f, hf, rfl⟩)
  unfold Lower.lowerStructField at hfield
  split at hfield
  all_goals
    obtain ⟨ty, hstored, rfl⟩ := checked_map_ok hfield
  · cases hstored
    exact h.emitted hty
  · exact h.wrapper hty (wrapperType_ok hstored).1

theorem sealedFields {e : TypeEntry} (he : ∀ t ∈ e.fieldTypes, R.ty t)
    (hs : Lower.sealedFields env e span = .ok fields) : ∀ f ∈ fields, R.emitted f.ty := by
  obtain ⟨rest, hrest, rfl⟩ := checked_map_ok hs
  refine List.forall_mem_cons.mpr ⟨h.emitted (h.builtin _ (by decide)), ?_⟩
  refine forall_mem_of_mapM_ok hrest fun entry field hmem hfield => ?_
  obtain ⟨⟨name, declared⟩, i⟩ := entry
  have hmem := List.of_mem_zip (List.fst_mem_of_mem_zipIdx hmem)
  have hdeclared : R.ty declared := he declared hmem.2
  dsimp only at hfield
  split at hfield
  all_goals
    obtain ⟨ty, hstored, rfl⟩ := checked_map_ok hfield
  · exact h.wrapper hdeclared (wrapperType_ok hstored).1
  · cases hstored
    exact h.emitted hdeclared

theorem variantApply {e : TypeEntry} (hself : R.Headed self) (hc : R.emitted companion)
    (hv : ∀ f ∈ v.fields, R.ident f.name.val ∧ R.ty f.ty) (ho : R.origin v.origin) (htag : R.ident tag)
    {decl : Target.Decl} (hs : Lower.variantApply env e self companion v (.ident tag) span = .ok decl) :
    decl.Every R.node := by
  obtain ⟨elements, helements, rfl⟩ := checked_map_ok hs
  have helements : ∀ el ∈ elements, el.value.Every R.node := by
    refine forall_mem_of_mapM_ok helements fun f el hf hel => ?_
    unfold variantElement at hel
    split at hel
    · exact h.storeField hself.1 (h.written (hv f hf).1) hel
    · cases hel
  have hall : ∀ el ∈ ⟨some tagField, .ident tag⟩ :: elements, el.value.Every R.node :=
    List.forall_mem_cons.mpr ⟨h.written htag, helements⟩
  have hvalue := h.composite hself hall
  refine Target.Decl.every_func.mpr ⟨h.straight ⟨rfl, rfl, fun x hx => by cases hx⟩ _ rfl ?_ ?_, h.ret1 hvalue⟩
  · simp only [Node.types, List.forall_mem_append, List.map_map, List.forall_mem_map, List.map_nil, Option.toList_some,
      List.map_cons, List.forall_mem_singleton, List.not_mem_nil, false_implies, implies_true, true_and]
    exact ⟨⟨hc, fun f hf => h.emitted (hv f hf).2⟩, h.emitted hself.1⟩
  · refine .inr ⟨_, ho, ?_⟩
    simp [Node.scopes, Node.function?, Node.parameters, Stmt.scopesOf, Stmt.scopes, Stmt.declaredOf, Stmt.declared,
      Stmt.ret1, Variant.origin]

theorem payloadType (ht : ∀ t ∈ types, R.ty t) : R.ty ((unapplyResult env.runtime types).args.headD .any) := by
  unfold unapplyResult
  split
  · exact h.any
  · exact ht _ (.head _)
  · exact h.tuple ht

theorem unapplyType (ht : ∀ t ∈ types, R.ty t) : R.emitted (unapplyResult env.runtime types) := by
  unfold unapplyResult
  split
  · exact h.emitted h.bool
  · exact h.option (h.emitted (ht _ (.head _))) _ (by simp)
  · exact h.option (h.emitted (h.tuple ht)) _ (by simp)

theorem readVariantField (hs : subject.Every R.node) (f : Source.StructField) :
    (Lower.readVariantField subject f).Every R.node := by
  have hplace : (Expr.selector subject f.name.val).Every R.node := h.selector hs
  unfold Lower.readVariantField
  split
  · exact hplace
  · exact h.method hplace (by simp)

theorem variantPayload (hs : subject.Every R.node) {fields : List Source.StructField} (hne : fields ≠ [])
    (ht : ∀ t ∈ fields.map (·.ty), R.ty t) : (Lower.variantPayload subject
      ((unapplyResult env.runtime (fields.map (·.ty))).args.headD .any) fields).Every R.node := by
  match fields with
  | [] => exact absurd rfl hne
  | [f] => exact h.readVariantField hs _
  | f :: f' :: fields =>
    have hheaded : R.literal (.tuple env.runtime ((f :: f' :: fields).map (·.ty))) := h.headed _ _ _
    refine h.composite ⟨h.payloadType ht, hheaded⟩ fun el hel => ?_
    obtain ⟨i, hi, rfl⟩ := List.mem_mapIdx.mp hel
    exact h.readVariantField hs _

theorem variantUnapply (hself : R.ty self) (hc : R.emitted companion)
    (hv : ∀ f ∈ v.fields, R.ty f.ty) (htag : R.ident tag) :
    (Lower.variantUnapply env self companion v (.ident tag)).Every R.node := by
  have htypes : ∀ t ∈ v.fields.map (·.ty), R.ty t := List.forall_mem_map.mpr hv
  have hpayload := h.payloadType htypes
  have hsubject : (Expr.ident "s").Every R.node := h.written (h.builtinName (.inr (by decide)))
  have htest : (Expr.binary .eq (.selector (.ident "s") tagField) (.ident tag)).Every R.node :=
    h.binary (h.selector hsubject) (h.written htag)
  have hoption : ∀ (name : String) (args : List Expr), name ∈ ["Option", "Some", "None"] →
      (∀ a ∈ args, a.Every R.node) →
      R.Stmts [.ret1 (.method (.zero (.generic (.named env.runtime name)
        [(unapplyResult env.runtime (v.fields.map (·.ty))).args.headD .any])) "Apply" args)] := by
    intro name args hname hargs
    refine h.ret1 (h.method (Expr.every_composite.mpr ⟨h.plain _ rfl ?_ nofun ?_, by simp⟩) hargs)
    · simpa using h.option (h.emitted hpayload) name hname
    · simpa [Ty.apply] using h.headed env.runtime name [_]
  have hnode : ∀ body : List Stmt, R.Straight [unapplyResult env.runtime (v.fields.map (·.ty))] body →
      Stmt.declaredOf body = [] → (Stmt.scopesOf body).flatten = [] →
      R.node (.decl (.func ⟨"Unapply", [], some ⟨"", companion⟩, [⟨"s", self⟩],
        [unapplyResult env.runtime (v.fields.map (·.ty))], body⟩)) := by
    intro body hstraight hdeclared hscopes
    refine h.straight hstraight _ rfl ?_ (.inl ?_)
    · simpa using ⟨hc, h.emitted hself, h.unapplyType htypes⟩
    · simp [Node.scopes, Node.function?, Node.parameters, hdeclared, hscopes]
  refine Target.Decl.every_func.mpr ⟨hnode _ ?_ ?_ ?_, ?_⟩
  · split <;> exact ⟨rfl, rfl, fun x hx => by cases hx⟩
  · split <;> rfl
  · split <;> simp [Stmt.scopesOf, Stmt.scopes, Stmt.ret1, Stmt.guarded, Stmt.declaredOf, Stmt.declared]
  · dsimp only
    split
    · exact h.ret1 htest
    · rename_i hfields
      refine List.forall_mem_cons.mpr ⟨h.ifElse htest (hoption _ _ (by simp) ?_) .nil,
        hoption _ _ (by simp) (by simp)⟩
      exact List.forall_mem_singleton.mpr (h.variantPayload hsubject (by simpa using hfields) htypes)

theorem lowerVariant {d : Source.SealedDecl} {e : TypeEntry} (hself : R.ty (e.selfType ""))
    (htp : ∀ p ∈ d.typeParams, ∀ t ∈ p.constraint, R.ty t) (hv : ∀ f ∈ v.fields, R.ident f.name.val ∧ R.ty f.ty)
    (htag : R.ident (variantTag d.name.val v.name.val)) (ho : R.origin v.origin)
    (hs : Lower.lowerVariant env d e v = .ok decls) : ∀ decl ∈ decls, decl.Every R.node := by
  obtain ⟨apply, happly, rfl⟩ := checked_map_ok hs
  have hcompanion := h.named v.name.val e.typeParams
  simp only [List.forall_mem_cons]
  exact ⟨h.struct htp (by simp), h.variantApply ⟨hself, h.headed _ _ _⟩ hcompanion hv ho htag happly,
    h.variantUnapply hself hcompanion (fun f hf => (hv f hf).2) htag, by simp⟩

theorem lowerSealed {d : Source.SealedDecl} (hitems : R.Permits (Decl.sealedType d).items)
    (hself : ∀ e, env.index.types.find? d.name.val = some e → R.ty (e.selfType ""))
    (hnames : ∀ x ∈ (Decl.sealedType d).variantNames, R.ident x)
    (horigins : ∀ o ∈ (Decl.sealedType d).origins, R.origin o) (hs : Lower.lowerSealed env d = .ok decls) :
    ∀ decl ∈ decls, decl.Every R.node := by
  obtain ⟨-, hrest⟩ := permits_cons.mp hitems
  obtain ⟨htp, hvariants⟩ := permits_append.mp hrest
  have htp := constraints_of_permits htp
  unfold Lower.lowerSealed at hs
  dsimp only at hs
  split at hs
  · cases hs
  · rename_i e he
    obtain ⟨fields, hfields, hs⟩ := checked_bind_ok hs
    obtain ⟨companions, hcompanions, rfl⟩ := checked_map_ok hs
    refine List.forall_mem_cons.mpr ⟨h.struct htp (h.sealedFields (h.own he).fieldTypes hfields), ?_⟩
    refine List.forall_mem_append.mpr ⟨fun decl hdecl => ?_, fun decl hdecl => ?_⟩
    · obtain ⟨i, hi, rfl⟩ := List.mem_mapIdx.mp hdecl
      have hty : R.emitted tagType := h.emitted (h.builtin _ (by decide))
      exact List.forall_mem_cons.mpr ⟨h.plain _ rfl (by simpa using hty) nofun (by simp), h.nat i⟩
    · obtain ⟨lowered, hlowered, hdecl⟩ := List.mem_flatten.mp hdecl
      have hall : ∀ lowered ∈ companions, ∀ decl ∈ lowered, decl.Every R.node := by
        refine forall_mem_of_mapM_ok hcompanions fun v lowered hv hs => ?_
        have ho := horigins _ (List.mem_map.mpr ⟨v, hv, rfl⟩)
        obtain ⟨htag, hfields⟩ := List.forall_mem_cons.mp fun x hx => hnames x (List.mem_flatMap.mpr ⟨v, hv, hx⟩)
        have hv := (permits_cons.mp (permits_flatMap.mp hvariants v hv)).2
        exact h.lowerVariant (hself e he) htp (fun f hf => ⟨hfields _ (List.mem_map_of_mem hf),
          hv (.ty f.ty) (List.mem_map.mpr ⟨f, hf, rfl⟩)⟩) htag ho hs
      exact hall lowered hlowered decl hdecl

/-! ## Programs -/

end Rule.Sound

/-- Everything that the declaration writes is allowed, and so is a sealed type of its name. -/
structure Rule.Declares (R : Rule) (env : Env) (d : Decl) : Prop where
  items : R.Permits d.items
  self : ∀ sealedDecl, d = .sealedType sealedDecl → ∀ e, env.index.types.find? sealedDecl.name.val = some e →
    R.ty (e.selfType "")
  variants : ∀ x ∈ d.variantNames, R.ident x := by
    intros
    trivial

namespace Rule.Sound

open Lower

variable {G : Gap → Prop}

theorem lowerDecl (h : R.Sound G env) {d : Located Decl} (hd : R.Declares env d.val)
    (hgaps : ∀ g ∈ d.val.gaps, G g) (horigins : ∀ o ∈ d.val.origins, R.origin o) :
    R.Runs (fun decls => ∀ decl ∈ decls, decl.Every R.node) (Lower.lowerDecl env d) := by
  obtain ⟨d, span⟩ := d
  obtain ⟨hitems, hself, hnames⟩ := hd
  cases d with
  | val d =>
    exact .bind (h.lowerGlobal hitems hgaps horigins) fun decl hdecl => .pure (by simpa using hdecl)
  | func d =>
    exact .bind (h.lowerFunc hitems hgaps horigins) fun decl hdecl => .pure (by simpa using hdecl)
  | struct d =>
    exact .bind (.ofChecked fun decl hs => h.lowerStruct hitems hs) fun decl hdecl => .pure (by simpa using hdecl)
  | sealedType d => exact .ofChecked fun decls hs => h.lowerSealed hitems (hself d rfl) hnames horigins hs
  | typeAlias d =>
    obtain ⟨htp, hty⟩ := permits_append.mp (permits_cons.mp hitems).2
    refine .pure (List.forall_mem_singleton.mpr (List.forall_mem_singleton.mpr (h.plain _ rfl ?_ nofun (by simp))))
    simp only [Node.types, List.forall_mem_append, List.forall_mem_map, List.forall_mem_singleton]
    exact ⟨h.targetParams (constraints_of_permits htp), h.emitted (hty _ (.head _))⟩

/-- Every place of a lowered program obeys the rule, as long as the bindings of the package do once all
    declarations are lowered with them in scope. -/
theorem lowerProgram {program : Program} {catalog : Catalog} {settings : Settings} {file : Target.File}
    (hfile : Lowering.lowerProgram program catalog settings = .ok file)
    (h : ∀ env s, Env.ofProgram program catalog settings = .ok env →
      Lower.bindGlobals env program.decls (.start env) = .ok () s →
      (∃ lowered s', program.decls.mapM (Lower.lowerDecl env) s = .ok lowered s') →
      R.Sound G env ∧ R.State s ∧ ∀ d ∈ program.decls, R.Declares env d.val ∧ (∀ g ∈ d.val.gaps, G g) ∧
        ∀ o ∈ d.val.origins, R.origin o) :
    ∀ n ∈ file.nodes, R.node n := by
  obtain ⟨env, s, lowered, s1, henv, hbound, hlowered, hflat, -⟩ := lowerProgram_runs hfile
  obtain ⟨hsound, hstate, hdecls⟩ := h env s henv hbound ⟨lowered, s1, hlowered⟩
  have hall := (Runs.mapM program.decls
    (fun d hd => hsound.lowerDecl (hdecls d hd).1 (hdecls d hd).2.1 (hdecls d hd).2.2) _ _ _ hstate hlowered).1
  intro n hn
  obtain ⟨decl, hdecl, hn⟩ := List.mem_flatMap.mp hn
  obtain ⟨l, hl, hdecl⟩ := List.mem_flatten.mp (hflat ▸ hdecl)
  exact hall l hl decl hdecl n hn

end Rule.Sound

namespace Rule.Closed

theorem bindGlobal (h : R.Closed env) {decl : ValDecl} (hitems : R.Permits (Decl.val decl).items) :
    R.Runs (fun _ => True) (Lower.bindGlobal env decl) := by
  obtain ⟨hname, hrest⟩ := permits_cons.mp hitems
  obtain ⟨hwritten, hvalue⟩ := permits_append.mp hrest
  have hty : R.Runs R.ty (Lower.bindingType env decl) := by
    refine .of_framed (Lower.framed.bindingType Lower.mentionsAny) fun s ty s' hs hbound => ?_
    obtain ⟨-, hty | ⟨-, rfl⟩, -⟩ := Lower.bindingType_known hbound
    · exact permits_ty?.mp hwritten ty hty
    · exact h.unwrap (Rule.Closed.typeOf s.typeParams decl.value ⟨h, hs.scope, hvalue⟩)
  refine .bind hty fun ty hty => .ite (fun _ => .bindName (h.binding hname hty)) fun _ => ?_
  exact .bind (.ofChecked fun w hw => Sound.binding_wrapper hname hty hw) fun w hw => .bindName hw

theorem bindGlobals (h : R.Closed env) {decls : List (Located Decl)} (hd : ∀ d ∈ decls, R.Declares env d.val) :
    R.Runs (fun _ => True) (Lower.bindGlobals env decls) := by
  induction decls with
  | nil => exact .pure trivial
  | cons d decls ih =>
    have hitems := (hd d (.head _)).items
    have hrest := ih fun d hmem => hd d (.tail _ hmem)
    refine Runs.bind (P := fun _ => True) ?_ fun _ _ => hrest
    beta_reduce
    split
    · rename_i decl hval
      exact h.bindGlobal (hval ▸ hitems)
    · exact .pure trivial

/-- Every place of a lowered program obeys the rule, as far as the functions are made from origins that
    do. -/
theorem lowerProgram {program : Program} {catalog : Catalog} {settings : Settings} {file : Target.File}
    (hfile : Lowering.lowerProgram program catalog settings = .ok file)
    (h : ∀ env, Env.ofProgram program catalog settings = .ok env → R.Closed env ∧ R.Emitting env ∧
      ∀ d ∈ program.decls, R.Declares env d.val ∧ ∀ o ∈ d.val.origins, R.origin o) : ∀ n ∈ file.nodes, R.node n := by
  refine Sound.lowerProgram (G := fun _ => True) hfile fun env s henv hbound _ => ?_
  obtain ⟨hclosed, hemitting, hdecls⟩ := h env henv
  have hstart : R.State (.start env) := ⟨.new, by simp [LowerState.start], hemitting.stem⟩
  exact ⟨hclosed.sound hemitting, (hclosed.bindGlobals (fun d hd => (hdecls d hd).1) _ _ _ hstart hbound).2,
    fun d hd => ⟨(hdecls d hd).1, fun _ _ => trivial, (hdecls d hd).2⟩⟩

end Rule.Closed

theorem Rule.Lawful.lowerProgram {program : Program} {catalog : Catalog} {settings : Settings}
    {file : Target.File} (hfile : Lowering.lowerProgram program catalog settings = .ok file)
    (h : ∀ env, Env.ofProgram program catalog settings = .ok env →
      R.Lawful env ∧ ∀ d ∈ program.decls, R.Declares env d.val) : ∀ n ∈ file.nodes, R.node n :=
  Rule.Closed.lowerProgram hfile fun env henv => ⟨(h env henv).1.toClosed, (h env henv).1.toEmitting,
    fun d hd => ⟨(h env henv).2 d hd, fun o _ => (h env henv).1.origins o⟩⟩

end Lowering
