/-
  Determined — types of expressions that are lowered.

  Inference answers `nil` for what it cannot type, and builds types around that answer. An expression that is also
  lowered has a type that is known or not, but not one with a hole in it.
-/

import Lowering.Proofs.Globals
import Lowering.Proofs.Joint
import Lowering.Proofs.Wrappers

namespace Lowering

open Target (Expr Stmt)

/-! ## Concrete types -/

theorem Ty.mem_results {t r : Ty} (h : r ∈ t.results) : r = t := by
  unfold results at h
  split at h
  · cases h
  · exact List.mem_singleton.mp h

theorem Ty.unwrap_tuple : (tuple runtime elems).unwrap = tuple runtime elems := by
  have hwrapper : (tuple runtime elems).isWrapper = false := by
    unfold tuple apply
    split
    · rfl
    · simp [isWrapper, baseName, tupleName_ne]
  exact unwrap_eq hwrapper

theorem Ty.args_tuple : (tuple runtime elems).args = elems := by
  unfold tuple apply
  split
  · simp_all [args]
  · rfl

def concrete : Rule where
  ty t := t.isConcrete = true
  emitted t := t.isConcrete = true
  node n := ∀ t ∈ n.types, t.isConcrete = true

variable {explicit : List Ty}

theorem concrete_typeArgs {typeParams : List String} {params : List Ty} {args : List (Option ArgTyping)}
    (hexplicit : ∀ t ∈ explicit, t.isConcrete = true) {expected : Option (Ty × Ty)} {types : List Ty}
    (h : resolveTypeArgs typeParams params args explicit expected = some types) : ∀ t ∈ types, t.isConcrete = true := by
  have hcases := resolveTypeArgs_invariant (I := fun _ => True) trivial (fun _ _ _ => trivial) (fun _ _ _ _ => trivial)
    (fun _ _ _ => trivial) h
  obtain ⟨rfl, -⟩ | ⟨rfl, -⟩ | ⟨u, -, hresolve⟩ := hcases
  · simp
  · exact hexplicit
  · exact forall_mem_of_mapM hresolve fun p t ht => (Option.filter_eq_some_iff.mp ht).2

/-! ## Names in scope -/

def Rule.Sees (R : Rule) (uses : String → Bool) (scope : Lowering.Scope) : Prop :=
  ∀ x, uses x = true → ∀ b, scope.find? x = some b → R.Result b.ty.unwrap

namespace Rule.Sees

variable {R : Rule} {uses : String → Bool} {scope : Lowering.Scope}

theorem of_scope (h : R.Scope scope) : R.Sees uses scope := fun x _ b hb => (h x b hb).ty

theorem enter (h : R.Sees uses scope) : R.Sees uses scope.enter := by
  intro x hx b hb
  exact h x hx b hb

theorem bind (h : R.Sees uses scope) (y : String) (mutability : Mutability) {ty : Ty} (hty : R.Result ty.unwrap) :
    R.Sees uses (scope.bind y mutability ty) := by
  intro x hx b hb
  rw [Scope.find?_bind] at hb
  split at hb
  · cases hb
    exact hty
  · exact h x hx b hb

theorem bindAll (h : R.Sees uses scope) {bindings : List (String × Ty)} (hb : ∀ b ∈ bindings, R.Result b.2.unwrap) :
    R.Sees uses (scope.bindAll bindings) :=
  List.foldlRecOn _ _ h fun _ hs b hmem => hs.bind _ _ (hb b hmem)

end Rule.Sees

/-! ## Gaps -/

def Source.Gap.bindings (g : Source.Gap) : List (String × Ty) :=
  (g.params.map (·.name)).zip (Inference.lambdaParamTypes g.params [])

/-- The result of the lambda is known wherever its body is lowered and the names that it mentions have
    concrete types. -/
def Source.Gap.Clear (env : Env) (g : Source.Gap) : Prop :=
  ∀ (outer : Scope) (s s' : LowerState) (result : Ty) (stmts : List Target.Stmt),
    s.scope = outer.enter.bindAll g.bindings →
    concrete.Sees (fun x => g.body.val.references x) s.scope →
    (Lower.piece env g.body).body result s = .ok stmts s' → (s.typeOf env g.body).isNil = false

/-- Inference stays within the rule, under which no type wraps a wrapper. -/
structure Rule.Flat (W : Rule) (env : Env) : Prop extends W.Closed env where
  flat : ∀ {t : Ty}, W.ty t → t.unwrap.isWrapper = false

namespace Lower

variable {env : Env} {s : LowerState}

def KnownIn (env : Env) (s : LowerState) (e : Located Source.Expr) : Prop :=
  ∀ s1, (piece env e).Lowers env s1 → s.Alike s1 → concrete.Known (s.inferred env e)

variable {e source target cond : Located Source.Expr} {s1 s' : LowerState} {stmts : List Stmt} {span : Span}
  {params : List Source.LambdaParam} {elems : List (Located Source.Expr)} {later : List StmtPiece} {result ty : Ty}
  {decl : Source.ValDecl} {value : Piece} {b : Binding} {v : Expr}

theorem KnownIn.typed (h : concrete.Formed env) (he : KnownIn env s e) : (piece env e).TypedIn concrete env s := by
  intro s1 hlowers halike
  rw [piece_source]
  exact h.unwrap_known (he s1 hlowers halike)

/-! ## Positions -/

theorem knownIn_ofValue {value : Option Ty → Lower Expr} {parts : List Piece}
    (hpiece : piece env source = .ofValue env source value parts)
    (h : ∀ expected s1 v s2, value expected s1 = .ok v s2 → s.Alike s1 →
      (∀ t ∈ expected, (s.inferred env source).Fits t) → concrete.Known (s.inferred env source)) :
    KnownIn env s source := by
  intro s1 hlowers halike
  have heffect : ∀ {s2 stmts s3}, (Piece.ofValue env source value parts).effect s2 = .ok stmts s3 → s.Alike s2 →
      concrete.Known (s.inferred env source) := by
    intro s2 stmts s3 hrun halike
    obtain ⟨s4, hrun⟩ := nested_ok hrun
    obtain ⟨v, s5, hv, -⟩ := bind_ok hrun
    obtain ⟨s6, hv⟩ := nested_ok hv
    exact h none _ v s6 hv ⟨halike.scope, halike.typeParams⟩ (by simp)
  have htail : ∀ {result stmts s2}, (Piece.ofValue env source value parts).tail result s1 = .ok stmts s2 →
      (s.inferred env source).Fits result → concrete.Known (s.inferred env source) := by
    intro result stmts s2 hrun hfits
    simp only [Piece.ofValue] at hrun
    split at hrun
    · exact heffect hrun halike
    · obtain ⟨s3, hrun⟩ := nested_ok hrun
      split at hrun
      · exact heffect hrun ⟨halike.scope, halike.typeParams⟩
      · obtain ⟨v, s4, hv, -⟩ := bind_ok hrun
        obtain ⟨s5, hv⟩ := nested_ok hv
        exact h (some result) _ v s5 hv ⟨halike.scope, halike.typeParams⟩ (by simpa using hfits)
  have hown := halike.inferred env source
  rw [hpiece] at hlowers
  cases hlowers with
  | value hfits hv =>
    obtain ⟨s2, hv⟩ := nested_ok hv
    exact h _ _ _ s2 hv ⟨halike.scope, halike.typeParams⟩ (hown ▸ hfits)
  | tail hfits hrun | body hfits hrun => exact htail hrun (hown ▸ hfits)

theorem known_ofStmts {tail : Ty → Lower (List Stmt)} {effect : Lower (List Stmt)}
    (heffect : ∀ s1 stmts s2, effect s1 = .ok stmts s2 → s.Alike s1 → concrete.Known (s.inferred env source))
    (htail : ∀ result s1 stmts s2, tail result s1 = .ok stmts s2 → s.Alike s1 → (s.inferred env source).Fits result →
      concrete.Known (s.inferred env source)) (hlowers : (Piece.ofStmts env source tail effect).Lowers env s1)
    (halike : s.Alike s1) : concrete.Known (s.inferred env source) := by
  have hstmts : ∀ {result s2 stmts s3}, (Piece.ofStmts env source tail effect).tail result s2 = .ok stmts s3 →
      s.Alike s2 → (s.inferred env source).Fits result → concrete.Known (s.inferred env source) := by
    intro result s2 stmts s3 hrun halike hfits
    simp only [Piece.ofStmts] at hrun
    split at hrun
    · obtain ⟨s4, hrun⟩ := nested_ok hrun
      exact heffect _ stmts s4 hrun ⟨halike.scope, halike.typeParams⟩
    · obtain ⟨s4, hrun⟩ := nested_ok hrun
      exact htail result _ stmts s4 hrun ⟨halike.scope, halike.typeParams⟩ hfits
  have hown := halike.inferred env source
  cases hlowers with
  | tail hfits hrun | body hfits hrun => exact hstmts hrun halike (hown ▸ hfits)
  | value hfits hv =>
    obtain ⟨s2, hv⟩ := nested_ok hv
    obtain ⟨ty, body, s3, hasked, hvoid, hrun, -⟩ := invokeInPlace_ok hv
    refine hstmts hrun ⟨halike.scope, halike.typeParams⟩ ?_
    rcases hasked with ⟨hmem, hconcrete⟩ | rfl
    · have horAny : ty.orAny = ty := by
        unfold Ty.orAny
        rw [if_neg (by simp [(Ty.known_of_isConcrete hconcrete).1])]
      rw [horAny]
      exact (hown ▸ hfits) ty hmem
    · show (s.inferred env source).Fits (s1.inferred env source).unwrap.orAny
      rw [hown]
      exact Ty.fits_orAny

theorem piece_tail_void : (piece env e).tail .void = (piece env e).effect := by
  obtain ⟨e, span⟩ := e
  cases e with
  | ifElse cond thenBranch elseBranch => cases elseBranch <;> simp only [piece] <;> rfl
  | _ =>
    rfl

theorem lowers_effect (h : (piece env e).effect s = .ok stmts s') : (piece env e).Lowers env s :=
  .tail (.inr (.inr (.inr rfl))) (piece_tail_void ▸ h)

/-! ## Values -/

section

variable (h : concrete.Formed env)
include h

theorem ident_known {name : String}
    (hscope : concrete.Sees (fun x => (Source.Expr.ident name).references x) s.scope) :
    KnownIn env s ⟨.ident name, span⟩ := by
  intro _ _ _
  exact h.identType (hscope name (by simp [Source.Expr.references])) trivial

theorem call_known {callee : Located Source.Expr} {typeArgs : List Ty}
    {args : List Source.Arg} (hcallee : concrete.Permits callee.val.items)
    (htypes : ∀ t ∈ typeArgs, t.isConcrete = true) (hscope : concrete.Sees (fun x => callee.val.references x) s.scope)
    (hknown : KnownIn env s callee) (hhead : ∀ q ∈ (piece env callee).parts.head?, q.TypedIn concrete env s) :
    KnownIn env s ⟨.call callee typeArgs args, span⟩ := by
  refine knownIn_ofValue (by simp only [piece]; rfl) fun expected s1 v s2 hv halike _ => ?_
  have hscope1 : ∀ name, callee.val.references name = true → ∀ b, s1.scope.find? name = some b →
      concrete.Result b.ty.unwrap := by
    rw [halike.scope]
    exact hscope
  have hdenotes := h.callee_of_lowered hcallee hscope1 ((hknown.typed h).alike halike)
    (fun q hq => (hhead q hq).alike halike) argPieces_tidy hv
  rw [halike.scope, halike.typeParams] at hdenotes
  exact h.callResult hdenotes (fun _ _ _ _ _ _ _ _ hresolve => concrete_typeArgs htypes hresolve)

theorem select_known {member : Located String}
    (hitems : concrete.Permits (Source.memberItems target member.val)) (htarget : KnownIn env s target) :
    KnownIn env s ⟨.select target member, span⟩ := by
  refine knownIn_ofValue (by simp only [piece]; rfl) fun expected s1 v s2 hv halike _ => ?_
  simp only [LowerState.inferred, Inference.typeOf]
  refine h.selectType hitems fun hpackage => ?_
  obtain ⟨r, s3, hr⟩ := lowerSelect_ok hv (by rw [piece_source, halike.scope]; exact hpackage)
  exact htarget s1 (.plain hr) halike

theorem index_known {index : Located Source.Expr} (htarget : KnownIn env s target) :
    KnownIn env s ⟨.index target index, span⟩ := by
  refine knownIn_ofValue (by simp only [piece]; rfl) fun expected s1 v s2 hv halike _ => ?_
  obtain ⟨ty, s3, hty, hrun⟩ := bind_ok hv
  obtain ⟨-, rfl⟩ := typeOf_ok hty
  obtain ⟨x, s4, hx, -⟩ := bind_ok hrun
  exact h.elementType (htarget _ (.plain hx) halike)

theorem binary_known {left right : Located Source.Expr} {op : BinaryOp}
    (hleft : KnownIn env s left) (hright : KnownIn env s right) : KnownIn env s ⟨.binary left op right, span⟩ := by
  refine knownIn_ofValue (by simp only [piece]; rfl) fun expected s1 v s2 hv halike _ => ?_
  obtain ⟨l, s3, hl, hrun⟩ := bind_ok hv
  obtain ⟨r, s4, hr, -⟩ := bind_ok hrun
  have hleft := hleft _ (.plain hl) halike
  have hright := hright _ (.plain hr) (halike.trans (((piece_tidy env left).value _).ok hl).alike)
  simp only [LowerState.inferred, Inference.typeOf, Inference.arithmeticType] at hleft hright ⊢
  split
  · exact .of_ty (h.builtin _ (by decide))
  · split
    · exact hright
    · split
      · exact hright
      · exact hleft

theorem unary_known {op : UnaryOp} {operand : Located Source.Expr}
    (hoperand : KnownIn env s operand) : KnownIn env s ⟨.unary op operand, span⟩ := by
  refine knownIn_ofValue (by simp only [piece]; rfl) fun expected s1 v s2 hv halike _ => ?_
  obtain ⟨x, s3, hx, -⟩ := bind_ok hv
  have hoperand := hoperand _ (.plain hx) halike
  simp only [LowerState.inferred, Inference.typeOf] at hoperand ⊢
  split
  · exact .of_ty (h.builtin _ (by decide))
  · exact hoperand

end

/-! ## Lambdas and tuples -/

theorem lambdaParamTypes_self {expected : List Ty} :
    Inference.lambdaParamTypes params (Inference.lambdaParamTypes params expected) =
      Inference.lambdaParamTypes params expected := by
  induction params generalizing expected with
  | nil => rfl
  | cons p params ih =>
    rw [lambdaParamTypes_cons p, lambdaParamTypes_cons, List.head?_cons, List.tail_cons, ih]
    cases p.ty <;> rfl

theorem expectedSignature_fits {results : List Ty} {expected : Option Ty}
    (hfits : ∀ t ∈ expected, (Ty.func (Inference.lambdaParamTypes params []) results).Fits t) :
    Inference.lambdaParamTypes params (expectedSignature expected).1 = Inference.lambdaParamTypes params [] ∧
      ∀ ts ∈ (expectedSignature expected).2, ts = results := by
  cases expected with
  | none => exact ⟨rfl, by simp [expectedSignature]⟩
  | some t =>
    rcases hfits t rfl with h | h | h | h
    · obtain rfl : t = .func (Inference.lambdaParamTypes params []) results := h
      exact ⟨lambdaParamTypes_self, by simp [expectedSignature]⟩
    · obtain rfl : t = .func (Inference.lambdaParamTypes params []) results := h
      exact ⟨lambdaParamTypes_self, by simp [expectedSignature]⟩
    · cases h
    · cases t with
      | void => exact ⟨rfl, by simp [expectedSignature]⟩
      | _ => cases h

theorem lambda_known (h : concrete.Formed env) {body : Located Source.Expr}
    (hparams : ∀ p ∈ params, ∀ t ∈ p.ty, t.isConcrete = true)
    (hscope : concrete.Sees (fun x => body.val.references x) s.scope) (hgap : Source.Gap.Clear env ⟨params, body⟩)
    (hbody : concrete.Sees (fun x => body.val.references x) (s.inLambda (Source.Gap.bindings ⟨params, body⟩)).scope →
      KnownIn env (s.inLambda (Source.Gap.bindings ⟨params, body⟩)) body) :
    KnownIn env s ⟨.lambda params body, span⟩ := by
  refine knownIn_ofValue (by simp only [piece]; rfl) fun expected s1 v s2 hv halike hfits => ?_
  obtain ⟨fields, result, stmts, s3, hfields, hresult, hstmts, -⟩ := lowerLambda_ok hv
  obtain ⟨-, hnames, htypes⟩ := lambdaFields_ok hfields
  obtain ⟨hsame, hresults⟩ := expectedSignature_fits hfits
  rw [hsame] at hnames htypes
  rw [hnames] at hresult hstmts
  have hconcrete : ∀ t ∈ Inference.lambdaParamTypes params [], t.isConcrete = true := by
    intro t ht
    rcases htypes t ht with ⟨p, hp, hty⟩ | ht
    · exact hparams p hp t hty
    · exact ht
  -- the state in which the body is typed; it is lowered in one like it
  let inner := s.inLambda (Source.Gap.bindings ⟨params, body⟩)
  have hinner : inner.Alike (s1.inLambda ((params.map (·.name)).zip (Inference.lambdaParamTypes params []))) :=
    ⟨by simp only [inner, LowerState.inLambda, halike.scope, Source.Gap.bindings], halike.typeParams⟩
  have hsees : concrete.Sees (fun x => body.val.references x) inner.scope :=
    hscope.enter.bindAll fun b hb => h.unwrap_result (.inr (hconcrete b.2 (List.of_mem_zip hb).2))
  have hwanted : (inner.inferred env body).Fits result := by
    rcases (lambdaResult_ok hresult).2 with ⟨-, rfl⟩ | ⟨ts, hts, hmem, -⟩ | rfl
    · exact .inr (.inr (.inr rfl))
    · rw [hresults ts hts] at hmem
      exact .inl (Ty.mem_results hmem)
    · rw [piece_source, LowerState.typeOf, hinner.inferred]
      exact Ty.fits_orAny
  obtain ⟨s4, hbefore, hlowered⟩ : ∃ s4, inner.Alike s4 ∧ (piece env body).body result s4 = .ok stmts s3 := by
    refine ⟨_, ?_, hstmts⟩
    exact ⟨hinner.scope, hinner.typeParams⟩
  have hknown : concrete.Known (inner.inferred env body) :=
    hbody hsees s4 (.body (by rw [piece_source, hbefore.inferred]; exact hwanted) hlowered) hbefore
  have hnil : (inner.typeOf env body).isNil = false := by
    rw [LowerState.typeOf, ← hbefore.inferred]
    exact hgap s.scope s4 s3 result stmts hbefore.scope (by rw [hbefore.scope]; exact hsees) hlowered
  refine .of_ty (h.func.mpr ⟨hconcrete, Rule.Result.results ?_⟩)
  rcases hknown with hunknown | hknown
  · rw [LowerState.typeOf, hunknown] at hnil
    cases hnil
  · exact hknown

theorem typesOf_eq (inf : Inference) (scope : Scope) (es : List (Located Source.Expr)) :
    inf.typesOf scope es = es.map (inf.typeOf scope) := by
  induction es with
  | nil => simp only [Inference.typesOf, List.map_nil]
  | cons e es ih => simp only [Inference.typesOf, List.map_cons, ih]

theorem tupleElements_known (hknown : ∀ e ∈ elems, KnownIn env s e) {hints : List Ty} {position : Nat} {s2 : LowerState}
    {elements : List (Ty × Target.Element)}
    (hrun : tupleElements env hints position (exprPieces env elems) s1 = .ok elements s2) (halike : s.Alike s1)
    (hhints : ∀ i t, hints[position + i]? = some t → (elems.map (s.inferred env))[i]? = some t) :
    ∀ e ∈ elems, (s.inferred env e).isConcrete = true := by
  induction elems generalizing position s1 s2 elements with
  | nil => simp
  | cons e elems ih =>
    obtain ⟨ty, s3, hty, hrun⟩ := bind_ok hrun
    obtain ⟨value, s4, hvalue, hrun⟩ := bind_ok hrun
    obtain ⟨rest, s5, hrest, -⟩ := bind_ok hrun
    obtain ⟨rfl, hconcrete, hasked⟩ := elementType_ok hty
    rw [piece_source, LowerState.typeOf, halike.inferred] at hasked
    have hown : ty = s.inferred env e ∨ ty = (s.inferred env e).unwrap := by
      refine hasked.imp_left fun hhint => ?_
      have hfirst := hhints 0 ty hhint
      simpa using hfirst.symm
    refine List.forall_mem_cons.mpr ⟨?_, ?_⟩
    · have hfits : ∀ t ∈ some ty, (s3.inferred env (piece env e).source).Fits t := by
        rintro t ⟨⟩
        rw [piece_source, halike.inferred]
        exact hown.elim .inl fun h => .inr (.inl h)
      have he := hknown e (.head _) s3 (.value hfits hvalue) halike
      -- neither the unknown type nor that of no value is concrete, with a wrapper or without
      rcases he with he | he | he
      · rcases hown with rfl | rfl <;> rw [he] at hconcrete <;> cases hconcrete
      · rcases hown with rfl | rfl <;> rw [he] at hconcrete <;> cases hconcrete
      · exact he
    · refine ih (fun e he => hknown e (.tail _ he)) hrest
        (halike.trans (((piece_tidy env e).value _).ok hvalue).alike) fun i t hi => ?_
      have hnext := hhints (i + 1) t (by rw [← hi]; congr 1; omega)
      simpa using hnext

theorem tuple_known (h : concrete.Formed env) (hknown : ∀ e ∈ elems, KnownIn env s e) :
    KnownIn env s ⟨.tuple elems, span⟩ := by
  refine knownIn_ofValue (by simp only [piece]; rfl) fun expected s1 v s2 hv halike hfits => ?_
  simp only [LowerState.inferred, Inference.typeOf, typesOf_eq] at hfits ⊢
  obtain ⟨-, hv⟩ := check_ok hv
  obtain ⟨elements, s3, helements, -⟩ := bind_ok hv
  have hconcrete := tupleElements_known hknown helements halike fun i t hi => ?_
  · exact .of_ty (h.tuple (List.forall_mem_map.mpr hconcrete))
  -- the hints are the types of the elements, or there are none
  cases hhinted : expected.filter (·.tupleArity? == some (exprPieces env elems).length) with
  | none => simp [hhinted] at hi
  | some hinted =>
    obtain ⟨hmem, harity⟩ := Option.filter_eq_some_iff.mp hhinted
    have hown : hinted = env.tupleType (elems.map (s.inferred env)) := by
      rcases hfits hinted hmem with heq | heq | heq | heq
      · exact heq
      · rw [heq, Env.tupleType, Ty.unwrap_tuple]
        rfl
      · rw [Env.tupleType, Ty.unwrap_tuple] at heq
        unfold Ty.tuple Ty.apply at heq
        split at heq <;> cases heq
      · cases hinted with
        | void => cases harity
        | _ => cases heq
    rw [hhinted, Option.map_some, Option.getD_some, hown, Env.tupleType, Ty.args_tuple, Nat.zero_add] at hi
    exact hi

/-! ## Branches -/

theorem if_known {thenBranch : Located Source.Expr} : KnownIn env s ⟨.ifElse cond thenBranch none, span⟩ := by
  intro _ _ _
  exact .inr (.inl rfl)

theorem ifElse_known {thenBranch elseBranch : Located Source.Expr} (hthen : KnownIn env s thenBranch)
    (helse : KnownIn env s elseBranch) : KnownIn env s ⟨.ifElse cond thenBranch (some elseBranch), span⟩ := by
  have hcond : ∀ {c s1 s2}, (piece env cond).value (some .bool) s1 = .ok c s2 → s.Alike s1 → s.Alike s2 :=
    fun hc halike => halike.trans (((piece_tidy env cond).value _).ok hc).alike
  have hown : s.inferred env ⟨.ifElse cond thenBranch (some elseBranch), span⟩ =
      if (s.inferred env thenBranch).isNil then s.inferred env elseBranch else s.inferred env thenBranch := by
    rfl
  intro s0 hlowers hbefore
  refine known_ofStmts ?_ ?_ hlowers hbefore
  · intro s1 stmts s2 hrun halike
    obtain ⟨c, s3, hc, hrun⟩ := bind_ok hrun
    obtain ⟨t, s4, ht, hrun⟩ := bind_ok hrun
    obtain ⟨e, s5, he, -⟩ := bind_ok hrun
    have halike := hcond hc halike
    rw [hown]
    split
    · exact helse s4 (lowers_effect he) (halike.trans ((piece_tidy env thenBranch).effect.ok ht).alike)
    · exact hthen s3 (lowers_effect ht) halike
  · intro result s1 stmts s2 hrun halike hfits
    obtain ⟨c, s3, hc, hrun⟩ := bind_ok hrun
    obtain ⟨t, s4, ht, hrun⟩ := bind_ok hrun
    obtain ⟨e, s5, he, -⟩ := bind_ok hrun
    have hafterCond := hcond hc halike
    have hafterThen := hafterCond.trans (((piece_tidy env thenBranch).tail _).ok ht).alike
    rw [hown] at hfits ⊢
    by_cases hnil : (s.inferred env thenBranch).isNil = true
    · rw [if_pos hnil] at hfits ⊢
      exact helse s4 (.tail (by rw [piece_source, hafterThen.inferred]; exact hfits) he) hafterThen
    · rw [if_neg hnil] at hfits ⊢
      exact hthen s3 (.tail (by rw [piece_source, hafterCond.inferred]; exact hfits) ht) hafterCond

theorem matchOn_known (h : concrete.Formed env) {subject : Located Source.Expr} {clauses : List Source.Clause} :
    KnownIn env s ⟨.matchOn subject clauses, span⟩ := by
  intro _ _ _
  simp only [LowerState.inferred, Inference.typeOf, Inference.matchResult, Match.reference?]
  split
  · exact .inr (.inl rfl)
  · cases hfirst : ((⟨env, s.typeParams⟩ : Inference).clauseTypes s.scope
        ((⟨env, s.typeParams⟩ : Inference).typeOf s.scope subject) clauses).find? (Ty.isReference s.typeParams) with
    | none => exact .of_ty h.any
    | some t =>
      have ht := List.find?_some hfirst
      simp only [Ty.isReference, Bool.and_eq_true] at ht
      exact .of_ty ht.1.1

/-! ## Blocks -/

theorem lowerStmts_cons_ok {p : StmtPiece} (h : lowerStmts result (p :: later) s = .ok stmts s') :
    (∃ e ∈ p.expr, later = [] ∧ e.tail result s = .ok stmts s') ∨
      ∃ own s1 rest s2, p.run (later.map (·.source)) s = .ok own s1 ∧ lowerStmts result later s1 = .ok rest s2 := by
  cases later with
  | cons q later =>
    obtain ⟨own, s1, hown, h⟩ := bind_ok h
    obtain ⟨rest, s2, hrest, -⟩ := bind_ok h
    exact .inr ⟨own, s1, rest, s2, hown, hrest⟩
  | nil =>
    cases he : p.expr with
    | none =>
      simp only [lowerStmts, he] at h
      exact .inr ⟨stmts, s', [], s', h, rfl⟩
    | some e =>
      simp only [lowerStmts, he] at h
      split at h
      · exact .inr ⟨stmts, s', [], s', h, rfl⟩
      · exact .inl ⟨e, rfl, rfl, h⟩

theorem lowerLocal_ok (hvalue : value.Tidy) (h : lowerLocal env decl value s = .ok stmts s') :
    ∃ ty b v s1, bindingType env decl s = .ok ty s ∧
      value.value (some ty) s = .ok v s1 ∧ globalBinding env decl ty = .ok b ∧
      s'.scope = s.scope.bind decl.name.val b.mutability b.ty ∧ s'.typeParams = s.typeParams := by
  obtain ⟨ty, s1, hty, hlower⟩ := bind_ok h
  obtain rfl := (bindingType_known hty).1
  obtain ⟨v, s2, hv, hrest⟩ := bind_ok hlower
  have hframed := (hvalue.value _).ok hv
  unfold globalBinding
  cases hmutable : decl.mutable with
  | true =>
    simp only [hmutable, if_true] at hrest
    cases hrest
    exact ⟨ty, _, v, s2, hty, hv, rfl, by rw [← hframed.scope], hframed.typeParams⟩
  | false =>
    simp only [hmutable, if_false, Bool.false_eq_true] at hrest
    obtain ⟨stored, s3, hstored, hrest⟩ := bind_ok hrest
    obtain ⟨wrapper, s4, hwrapper, hbind⟩ := bind_ok hrest
    obtain ⟨hok, rfl⟩ := ofChecked_ok hwrapper
    have hframed := hframed.trans ((framed.storeValue mentionsAny).ok hstored)
    cases hbind
    exact ⟨ty, ⟨.val, wrapper⟩, v, s2, hty, hv, by rw [hok]; rfl, by rw [← hframed.scope], hframed.typeParams⟩

theorem not_wrapper_of_wrapperType {t w : Ty} (h : env.wrapperType t = .ok w) : t.isWrapper = false := by
  obtain ⟨_, hcheck, -⟩ := except_bind_ok.mp (show
    ((Ty.generic (.named env.runtime Ty.wrapperName) [t]).checkWrappers >>= fun _ => pure _) = .ok w from h)
  have hdouble := (Ty.every_generic.mp (Ty.checkWrappers_iff _ |>.mp hcheck)).1
  simpa [Ty.isDoubleWrap, Ty.baseName] using hdouble

theorem globalBinding_cases (h : globalBinding env decl ty = .ok b) : decl.mutable = true ∧ b = ⟨.var, ty⟩ ∨
      decl.mutable = false ∧ ∃ w, Storage.wrapperType env ty decl.name.span = .ok w ∧ b = ⟨.val, w⟩ := by
  unfold globalBinding at h
  cases hmutable : decl.mutable with
  | true =>
    rw [hmutable] at h
    cases h
    exact .inl ⟨rfl, rfl⟩
  | false =>
    rw [hmutable, if_neg (by simp)] at h
    obtain ⟨w, hw, rfl⟩ := checked_map_ok h
    exact .inr ⟨rfl, w, hw, rfl⟩

theorem globalBinding_ok (h : globalBinding env decl ty = .ok b) : decl.mutable = true ∧ b.ty = ty ∨
      decl.mutable = false ∧ b.ty.isNil = false ∧ b.ty.unwrap = ty ∧ ty.isWrapper = false := by
  rcases globalBinding_cases h with ⟨hmutable, rfl⟩ | ⟨hmutable, w, hw, rfl⟩
  · exact .inl ⟨hmutable, rfl⟩
  · obtain ⟨hw, rfl⟩ := Rule.Sound.wrapperType_ok hw
    exact .inr ⟨hmutable, rfl, rfl, not_wrapper_of_wrapperType hw⟩

theorem local_seen (hty : bindingType env decl s = .ok ty s) (hb : globalBinding env decl ty = .ok b)
    (hvariable : decl.mutable = true → decl.ty = none → ty.isWrapper = false) :
    b.ty.isNil = (decl.ty.getD (s.inferred env decl.value)).isNil ∧
      b.ty.unwrap = (decl.ty.getD (s.inferred env decl.value)).unwrap := by
  obtain ⟨-, hknown, hnil, -⟩ := bindingType_known hty
  rcases hknown with hwritten | ⟨hnone, rfl⟩
  · rw [hwritten, Option.getD_some, hnil]
    rcases globalBinding_ok hb with ⟨-, rfl⟩ | ⟨-, hstored, hunwrap, hplain⟩
    · exact ⟨hnil, rfl⟩
    · exact ⟨hstored, by rw [hunwrap, Ty.unwrap_eq hplain]⟩
  · have hown : (s.inferred env decl.value).isNil = false := by
      cases hraw : s.inferred env decl.value with
      | nil =>
        rw [LowerState.typeOf, hraw] at hnil
        cases hnil
      | _ => rfl
    rw [hnone, Option.getD_none, hown]
    rcases globalBinding_ok hb with ⟨hmutable, heq⟩ | ⟨-, hstored, hunwrap, -⟩
    · rw [heq, Ty.unwrap_eq (hvariable hmutable hnone)]
      exact ⟨hnil, rfl⟩
    · exact ⟨hstored, hunwrap⟩

theorem exprStmt_ok (h : lowerStmts result (exprStmt (piece env e) :: later) s = .ok stmts s')
    (hfits : later = [] → (s.inferred env e).Fits result) :
    (piece env e).Lowers env s ∧ ∃ rest s1 s2, lowerStmts result later s1 = .ok rest s2 ∧ s.Alike s1 := by
  rcases lowerStmts_cons_ok h with ⟨_, ⟨⟩, rfl, htail⟩ | ⟨own, s1, rest, s2, hown, hrest⟩
  · have hlowers := Piece.Lowers.tail (by rw [piece_source]; exact hfits rfl) htail
    exact ⟨hlowers, [], s', s', rfl, (((piece_tidy env e).tail _).ok htail).alike⟩
  · exact ⟨lowers_effect hown, rest, s1, s2, hrest, ((piece_tidy env e).effect.ok hown).alike⟩

theorem plainStmt_ok {stmt : Located Source.Stmt} {later : List (Located Source.Stmt)}
    (h : lowerStmts result (stmtPieces env (stmt :: later)) s = .ok stmts s') (hexpr : (stmtPiece env stmt).expr = none)
    (hdeclared : (stmtPiece env stmt).source.declared? = none) :
    ∃ rest s1 s2, lowerStmts result (stmtPieces env later) s1 = .ok rest s2 ∧ s.Alike s1 := by
  rcases lowerStmts_cons_ok h with ⟨e, he, -⟩ | ⟨own, s1, rest, s2, hown, hrest⟩
  · rw [hexpr] at he
    cases he
  · obtain ⟨hsteady, hscope⟩ := (stmtPiece_tidy.run _).ok hown
    rcases hscope with hscope | ⟨name, mutability, ty, hname, -⟩
    · exact ⟨rest, s1, s2, hrest, hscope, hsteady.typeParams⟩
    · rw [hdeclared] at hname
      cases hname

theorem valStmt_ok (hvalue : value.Tidy) (h : lowerStmts result (valStmt env decl value :: later) s = .ok stmts s') :
    ∃ ty b v s1 rest s2 s3, bindingType env decl s = .ok ty s ∧ value.value (some ty) s = .ok v s1 ∧
      globalBinding env decl ty = .ok b ∧ lowerStmts result later s2 = .ok rest s3 ∧
      s2.scope = s.scope.bind decl.name.val b.mutability b.ty ∧ s2.typeParams = s.typeParams := by
  rcases lowerStmts_cons_ok h with ⟨_, ⟨⟩, -⟩ | ⟨own, s2, rest, s3, hown, hrest⟩
  obtain ⟨declared, hlocal, -⟩ := map_ok hown
  obtain ⟨ty, b, v, s1, hty, hv, hb, hscope, htypeParams⟩ := lowerLocal_ok hvalue hlocal
  exact ⟨ty, b, v, s1, rest, _, s3, hty, hv, hb, hrest, hscope, htypeParams⟩

theorem globalBinding_within {R : Rule} (h : R.Formed env) (hname : R.name decl.name.val) (hty : R.ty ty)
    (hb : globalBinding env decl ty = .ok b) : R.Binding decl.name.val b := by
  rcases globalBinding_cases hb with ⟨-, rfl⟩ | ⟨-, w, hw, rfl⟩
  · exact h.binding hname hty
  · exact Rule.Sound.binding_wrapper hname hty hw

theorem bindingType_concrete (h : concrete.Formed env) (hty : bindingType env decl s = .ok ty s)
    (hv : (piece env decl.value).value (some ty) s = .ok v s') (hwritten : ∀ t ∈ decl.ty, t.isConcrete = true)
    (hknown : decl.ty = none → KnownIn env s decl.value) : ty.isConcrete = true := by
  obtain ⟨-, hasked, hnil, hvoid⟩ := bindingType_known hty
  rcases hasked with hwrote | ⟨hnone, rfl⟩
  · exact hwritten ty hwrote
  · have hraw := hknown hnone s (.value (by simpa [piece_source] using s.fits_typeOf) hv) (.refl)
    exact (h.unwrap_known hraw).ty hnil hvoid

variable {W : Rule}

theorem declared_known (h : concrete.Formed env) (hflat : W.Flat env) (hty : bindingType env decl s = .ok ty s)
    (hv : (piece env decl.value).value (some ty) s = .ok v s1) (hb : globalBinding env decl ty = .ok b)
    (hitems : (concrete.both W).Permits (Source.Decl.val decl).items)
    (hknown : decl.ty = none → KnownIn env s decl.value) (hscope : W.Scope s.scope) {scope : Scope}
    (hseen : ∀ x, scope.seen? x = s.scope.seen? x) :
    concrete.Result b.ty.unwrap ∧ W.Scope (s.scope.bind decl.name.val b.mutability b.ty) ∧ ∀ m x,
      (scope.bind decl.name.val m (decl.ty.getD ((⟨env, s.typeParams⟩ : Inference).typeOf scope decl.value))).seen? x =
        (s.scope.bind decl.name.val b.mutability b.ty).seen? x := by
  obtain ⟨hname, hrest⟩ := Rule.permits_cons.mp hitems
  obtain ⟨hwritten, hvalue⟩ := Rule.permits_append.mp hrest
  have hwritten := Rule.permits_ty?.mp hwritten
  obtain ⟨-, hasked, -⟩ := bindingType_known hty
  have hown : W.ty (s.inferred env decl.value) :=
    Rule.Closed.typeOf s.typeParams decl.value ⟨hflat.toClosed, hscope, (Rule.permits_both.mp hvalue).2⟩
  have hplain : decl.mutable = true → decl.ty = none → ty.isWrapper = false := by
    intro _ hnone
    obtain ⟨-, rfl⟩ := hasked.resolve_left (by simp [hnone])
    exact hflat.flat hown
  obtain ⟨hisNil, hunwrap⟩ := local_seen hty hb hplain
  have hwithin : W.ty ty := by
    rcases hasked with hwrote | ⟨-, rfl⟩
    · exact (hwritten ty hwrote).2
    · exact hflat.unwrap hown
  have hty := bindingType_concrete h hty hv (fun t ht => (hwritten t ht).1) hknown
  have hconcrete : concrete.Binding decl.name.val b := globalBinding_within h trivial hty hb
  refine ⟨hconcrete.ty, hscope.bind (globalBinding_within hflat.toFormed hname.2 hwithin hb), fun m x => ?_⟩
  rw [Scope.seen?_bind, Scope.seen?_bind, hseen, hisNil, hunwrap, Inference.typeOf_seen _ fun x _ => hseen x]
  rfl

theorem block_known {stmts : List (Located Source.Stmt)}
    (hstmts : ∀ {s1 result lowered s2}, lowerStmts result (stmtPieces env stmts) s1 = .ok lowered s2 →
      LowerState.Alike { s with scope := s.scope.enter } s1 → (s.inferred env ⟨.block stmts, span⟩).Fits result →
      concrete.Known (s.inferred env ⟨.block stmts, span⟩))
    (hsingle : ∀ e espan, stmts = [⟨.expr e, espan⟩] → KnownIn env s e) : KnownIn env s ⟨.block stmts, span⟩ := by
  intro s1 hlowers halike
  have hown := halike.inferred env ⟨.block stmts, span⟩
  have hblock : ∀ {result s2 lowered s3}, lowerBlock (stmtPieces env stmts) result span s2 = .ok lowered s3 →
      s.Alike s2 → (s.inferred env ⟨.block stmts, span⟩).Fits result →
      concrete.Known (s.inferred env ⟨.block stmts, span⟩) := by
    intro result s2 lowered s3 hrun halike hfits
    obtain ⟨s4, hrun⟩ := withScope_ok hrun
    obtain ⟨body, s5, hbody, -⟩ := bind_ok hrun
    exact hstmts hbody ⟨by rw [halike.scope], halike.typeParams⟩ hfits
  have hbraces : ∀ {s1}, (Piece.ofStmts env ⟨.block stmts, span⟩ (fun result => do
        let body ← lowerBlock (stmtPieces env stmts) result span
        pure [Stmt.block body]) (do
        let body ← lowerBlock (stmtPieces env stmts) .void span
        pure [Stmt.block body])).Lowers env s1 → s.Alike s1 → concrete.Known (s.inferred env ⟨.block stmts, span⟩) := by
    refine known_ofStmts (fun s2 stmts s3 hrun halike => ?_) fun result s2 stmts s3 hrun halike hfits => ?_
    · obtain ⟨body, s4, hbody, -⟩ := bind_ok hrun
      exact hblock hbody halike (.inr (.inr (.inr rfl)))
    · obtain ⟨body, s4, hbody, -⟩ := bind_ok hrun
      exact hblock hbody halike hfits
  simp only [piece] at hlowers
  cases hlowers with
  | tail hfits hrun => exact hbraces (.tail hfits hrun) halike
  | body hfits hrun => exact hblock hrun halike (hown ▸ hfits)
  | value hfits hv =>
    rcases blockPiece_value with ⟨p, q, hp, hq, hvalue⟩ | hvalue
    · rw [hvalue] at hv
      obtain ⟨s2, hexpr⟩ := nested_ok hv
      obtain ⟨e, espan, rfl, rfl⟩ := stmtPieces_single hp hq
      -- the block has the type of its expression, which is not lowered in the scope of the block
      have hsame : s.inferred env ⟨.block [⟨.expr e, espan⟩], span⟩ = s.inferred env e := by
        exact Inference.typeOf_seen _ fun x _ => Scope.seen?_enter
      have hbefore : s.Alike { s1 with depth := s1.depth + 1 } := ⟨halike.scope, halike.typeParams⟩
      rw [hsame]
      refine hsingle e espan rfl _ (.value ?_ hexpr) hbefore
      rw [piece_source, hbefore.inferred, ← hsame, ← hown]
      exact hfits
    · rw [hvalue] at hv
      exact hbraces (.value hfits hv) halike

/-! ## Expressions -/

open Rule (permits_append permits_cons permits_tys permits_lambdaParams permits_both)
open Source (Gap)

/-- What something that is lowered relies on: its items are within both rules, its gaps are filled, and the names
    that it uses are bound to concrete types. -/
structure Ready (W : Rule) (env : Env) (s : LowerState) (items : List Source.Item) (gaps : List Gap)
    (uses : String → Bool) : Prop where
  permits : (concrete.both W).Permits items
  filled : ∀ g ∈ gaps, g.Clear env
  sees : concrete.Sees uses s.scope
  scope : W.Scope s.scope

variable {items items' : List Source.Item} {gaps gaps' : List Gap} {uses uses' : String → Bool}

theorem Ready.part (hs : Ready W env s items gaps uses) (hitems : items' ⊆ items) (hgaps : gaps' ⊆ gaps)
    (huses : ∀ x, uses' x = true → uses x = true) : Ready W env s items' gaps' uses' :=
  ⟨fun i hi => hs.permits i (hitems hi), fun g hg => hs.filled g (hgaps hg), fun x hx => hs.sees x (huses x hx), hs.scope⟩

theorem Ready.inside (hs : Ready W env s items (gaps ++ gaps') uses) : Ready W env s items gaps' uses :=
  hs.part (List.Subset.refl _) (List.subset_append_right _ _) fun _ hx => hx

theorem Ready.left (hs : Ready W env s (items ++ items') (gaps ++ gaps') fun x => uses x || uses' x) :
    Ready W env s items gaps uses :=
  hs.part (List.subset_append_left _ _) (List.subset_append_left _ _) fun x hx => by rw [hx, Bool.true_or]

theorem Ready.right (hs : Ready W env s (items ++ items') (gaps ++ gaps') fun x => uses x || uses' x) :
    Ready W env s items' gaps' uses' :=
  hs.part (List.subset_append_right _ _) (List.subset_append_right _ _) fun x hx => by rw [hx, Bool.or_true]

theorem Ready.alike (hs : Ready W env s items gaps uses) (halike : s.Alike s') : Ready W env s' items gaps uses :=
  ⟨hs.permits, hs.filled, by rw [halike.scope]; exact hs.sees, by rw [halike.scope]; exact hs.scope⟩

mutual

theorem expr_known (h : concrete.Formed env) (hflat : W.Flat env) : ∀ (e : Located Source.Expr) {s : LowerState},
    Ready W env s e.val.items (e.val.ownGaps ++ e.val.gaps) (fun x => e.val.references x) → KnownIn env s e
  | ⟨.lit value, _⟩, s, _ => by
    intro _ _ _
    simp only [LowerState.inferred, Inference.typeOf]
    exact .of_ty h.literalType
  | ⟨.nil, _⟩, s, _ | ⟨.caseFunction _, _⟩, s, _ => by
    intro _ _ _
    simp only [LowerState.inferred, Inference.typeOf]
    exact .inl rfl
  | ⟨.ident name, _⟩, s, hs => ident_known h hs.sees
  | ⟨.call callee typeArgs args, _⟩, s, hs => by
    obtain ⟨htypeArgs, hcallee⟩ := permits_append.mp (permits_append.mp hs.permits).1
    have hs : Ready W env s callee.val.items (callee.val.ownGaps ++ callee.val.gaps) (fun x => callee.val.references x) :=
      ⟨hcallee, (List.forall_mem_append.mp hs.inside.filled).1, (forall_or hs.sees).1, hs.scope⟩
    exact call_known h (permits_both.mp hcallee).1 (fun t ht => (permits_tys.mp htypeArgs t ht).1) hs.sees
      (expr_known h hflat callee hs) (target_known h hflat callee hs)
  | ⟨.select target member, _⟩, s, hs => by
    obtain ⟨hmember, htarget⟩ := permits_append.mp hs.permits
    exact select_known h (permits_both.mp hmember).1 (expr_known h hflat target { hs with permits := htarget })
  | ⟨.index target index, _⟩, s, hs =>
    index_known h (expr_known h hflat target hs.inside.left)
  | ⟨.binary left op right, _⟩, s, hs =>
    binary_known h (expr_known h hflat left hs.inside.left) (expr_known h hflat right hs.inside.right)
  | ⟨.unary op operand, _⟩, s, hs => unary_known h (expr_known h hflat operand hs)
  | ⟨.lambda params body, _⟩, s, hs => by
    obtain ⟨hparams, hbody⟩ := permits_append.mp hs.permits
    obtain ⟨hgap, hfilled⟩ := List.forall_mem_cons.mp hs.filled
    have hinner := hflat.lambdaScope (permits_lambdaParams.mp (permits_both.mp hparams).2)
      (show ∀ t ∈ [], W.ty t by simp) hs.scope
    exact lambda_known h (fun p hp t ht => ((permits_lambdaParams.mp hparams p hp).2 t ht).1) hs.sees hgap fun hsees =>
      expr_known h hflat body ⟨hbody, hfilled, hsees, hinner⟩
  | ⟨.ifElse _ _ none, _⟩, s, _ => if_known
  | ⟨.ifElse cond thenBranch (some elseBranch), _⟩, s, hs =>
    ifElse_known (expr_known h hflat thenBranch hs.inside.left.right) (expr_known h hflat elseBranch hs.inside.right)
  | ⟨.matchOn subject clauses, _⟩, s, _ => matchOn_known h
  | ⟨.tuple elems, _⟩, s, hs => tuple_known h (exprs_known h hflat elems hs)
  | ⟨.block stmts, span⟩, s, hs => by
    refine block_known (fun {s1 _ _ _} hrun halike hfits => ?_) (only_known h hflat stmts hs)
    simp only [LowerState.inferred, Inference.typeOf] at hfits ⊢
    rw [← halike.typeParams] at hfits ⊢
    have hinner : Ready W env { s with scope := s.scope.enter } _ _ _ :=
      ⟨hs.permits, hs.filled, hs.sees.enter, hs.scope.enter⟩
    refine stmts_known h hflat stmts (hinner.alike halike) (fun x => ?_) (.inr (.inl rfl)) hrun hfits
    rw [halike.scope]

theorem target_known (h : concrete.Formed env) (hflat : W.Flat env) : ∀ (e : Located Source.Expr) {s : LowerState},
    Ready W env s e.val.items (e.val.ownGaps ++ e.val.gaps) (fun x => e.val.references x) →
    ∀ q ∈ (piece env e).parts.head?, q.TypedIn concrete env s
  | ⟨e, _⟩, s, hs => by
    intro q hq
    cases e with
    | select target member =>
      have hknown := expr_known h hflat target { hs with permits := (permits_append.mp hs.permits).2 }
      simp only [piece] at hq
      cases hq
      exact hknown.typed h
    | index target index =>
      have hknown := expr_known h hflat target hs.inside.left
      simp only [piece] at hq
      cases hq
      exact hknown.typed h
    | ifElse cond thenBranch elseBranch =>
      cases elseBranch <;> simp only [piece] at hq <;> cases hq
    | _ =>
      simp only [piece] at hq
      cases hq

theorem exprs_known (h : concrete.Formed env) (hflat : W.Flat env) : ∀ (es : List (Located Source.Expr)) {s : LowerState},
    Ready W env s (Source.Expr.itemsOf es) (Source.Expr.gapsOf es) (fun x => Source.Expr.anyReferences x es) →
    ∀ e ∈ es, KnownIn env s e
  | [], _, _ => by simp
  | e :: es, s, hs => List.forall_mem_cons.mpr ⟨expr_known h hflat e hs.left, exprs_known h hflat es hs.right⟩

theorem stmts_known (h : concrete.Formed env) (hflat : W.Flat env) : ∀ (ss : List (Located Source.Stmt)) {s : LowerState}
    {scope : Scope} {last result : Ty} {lowered : List Stmt} {s' : LowerState},
    Ready W env s (Source.Stmt.itemsOf ss) (Source.Stmt.gapsOf ss) (fun x => Source.Stmt.anyReferences x ss) →
    (∀ x, scope.seen? x = s.scope.seen? x) → concrete.Known last →
    lowerStmts result (stmtPieces env ss) s = .ok lowered s' →
    ((⟨env, s.typeParams⟩ : Inference).stmtsType scope last ss).Fits result →
    concrete.Known ((⟨env, s.typeParams⟩ : Inference).stmtsType scope last ss)
  | [], s, _, _, _, _, _, _, _, hlast, _, _ => by
    simp only [Inference.stmtsType]
    exact hlast
  | ⟨.val ⟨name, mutable, written, value⟩, _⟩ :: ss, s, scope, _, _, _, _, hs, hseen, _, hrun, hfits => by
    have hrest := hs.right
    have hdecl := (permits_append.mp hs.permits).1
    have hknown : written = none → KnownIn env s value := by
      rintro rfl
      exact expr_known h hflat value
        ⟨(permits_cons.mp hdecl).2, (List.forall_mem_append.mp hs.filled).1, (forall_or hs.sees).1, hs.scope⟩
    simp only [stmtPieces, stmtPiece] at hrun
    obtain ⟨own, b, v, s1, rest, s2, s3, hty, hv, hb, hlater, hbound, htypeParams⟩ :=
      valStmt_ok (piece_tidy env value) hrun
    obtain ⟨hconcrete, hwithin, hshown⟩ := declared_known h hflat hty hv hb hdecl hknown hs.scope hseen
    have hafter : Ready W env s2 _ _ _ :=
      ⟨hrest.permits, hrest.filled, by rw [hbound]; exact hrest.sees.bind _ _ hconcrete, by rw [hbound]; exact hwithin⟩
    cases written
    all_goals
      simp only [Inference.stmtsType] at hfits ⊢
      rw [← htypeParams] at hfits ⊢
      refine stmts_known h hflat ss hafter (fun x => ?_) (.inr (.inl rfl)) hlater hfits
      rw [hbound, ← hshown _ x, ← htypeParams]
      rfl
  | ⟨.expr e, _⟩ :: ss, s, scope, _, _, _, _, hs, hseen, _, hrun, hfits => by
    have hknown := expr_known h hflat e hs.left
    have hown : (⟨env, s.typeParams⟩ : Inference).typeOf scope e = s.inferred env e :=
      Inference.typeOf_seen _ fun x _ => hseen x
    simp only [stmtPieces, stmtPiece] at hrun
    simp only [Inference.stmtsType, hown] at hfits ⊢
    obtain ⟨hlowers, rest, s1, s2, hrest, halike⟩ := exprStmt_ok hrun fun hlast => by
      cases ss with
      | nil => simpa only [Inference.stmtsType] using hfits
      | cons _ _ => simp [stmtPieces] at hlast
    rw [← halike.typeParams] at hfits ⊢
    exact stmts_known h hflat ss (hs.right.alike halike) (fun x => by rw [halike.scope, hseen])
      (hknown s hlowers (.refl)) hrest hfits
  | ⟨.assign target op value, span⟩ :: ss, s, scope, _, _, _, _, hs, hseen, _, hrun, hfits
  | ⟨.ret none, span⟩ :: ss, s, scope, _, _, _, _, hs, hseen, _, hrun, hfits
  | ⟨.ret (some value), span⟩ :: ss, s, scope, _, _, _, _, hs, hseen, _, hrun, hfits
  | ⟨.loop cond body, span⟩ :: ss, s, scope, _, _, _, _, hs, hseen, _, hrun, hfits => by
    obtain ⟨rest, s1, s2, hrest, halike⟩ := plainStmt_ok hrun (by simp only [stmtPiece]; rfl) (by simp only [stmtPiece]; rfl)
    simp only [Inference.stmtsType] at hfits ⊢
    rw [← halike.typeParams] at hfits ⊢
    exact stmts_known h hflat ss (hs.right.alike halike) (fun x => by rw [halike.scope, hseen]) (.inr (.inl rfl))
      hrest hfits

theorem only_known (h : concrete.Formed env) (hflat : W.Flat env) : ∀ (ss : List (Located Source.Stmt)) {s : LowerState},
    Ready W env s (Source.Stmt.itemsOf ss) (Source.Stmt.gapsOf ss) (fun x => Source.Stmt.anyReferences x ss) →
    ∀ e espan, ss = [⟨.expr e, espan⟩] → KnownIn env s e
  | ⟨.expr e, _⟩ :: _, s, hs => by
    have hknown := expr_known h hflat e hs.left
    rintro _ _ ⟨⟩
    exact hknown
  | [], _, _ | ⟨.val _, _⟩ :: _, _, _ | ⟨.assign _ _ _, _⟩ :: _, _, _ | ⟨.ret _, _⟩ :: _, _, _
  | ⟨.loop _ _, _⟩ :: _, _, _ => by
    rintro _ _ ⟨⟩

end

end Lower

end Lowering
