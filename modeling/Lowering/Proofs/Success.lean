/-
  Success — what a lowering that succeeds has done.

  Lowering asks for the type of an expression first and lowers the expression afterwards. Inference never fails,
  so the answer alone says little; that the expression was then lowered says more.
-/

import Lowering.Proofs.Tidy

namespace Lowering

open Source (Expr LambdaParam)

/-! ## Types of expressions where lowering stands -/

namespace LowerState

def inferred (s : LowerState) (env : Env) (e : Located Expr) : Ty :=
  (⟨env, s.typeParams⟩ : Inference).typeOf s.scope e

def typeOf (s : LowerState) (env : Env) (e : Located Expr) : Ty := (s.inferred env e).unwrap

/-- In both states expressions have the same types. -/
structure Alike (s s' : LowerState) : Prop where
  scope : s'.scope = s.scope
  typeParams : s'.typeParams = s.typeParams

theorem Alike.refl {s : LowerState} : s.Alike s := ⟨rfl, rfl⟩

theorem Alike.trans {s s1 s2 : LowerState} (h : s.Alike s1) (h1 : s1.Alike s2) : s.Alike s2 :=
  ⟨h1.scope.trans h.scope, h1.typeParams.trans h.typeParams⟩

theorem Alike.inferred {s s' : LowerState} (h : s.Alike s') (env : Env) (e : Located Expr) :
    s'.inferred env e = s.inferred env e := by
  unfold LowerState.inferred
  rw [h.scope, h.typeParams]

end LowerState

variable {s s' : LowerState}

theorem Framed.alike (h : Framed s s') : s.Alike s' := ⟨h.scope, h.typeParams⟩

variable {t : Ty}

theorem Ty.isFunc_iff : t.isFunc = true ↔ ∃ params results, t = .func params results := by
  cases t <;> simp [Ty.isFunc]

theorem Ty.known_of_isConcrete (h : t.isConcrete = true) : t.isNil = false ∧ t.isVoid = false := by
  cases t with
  | nil | void => cases h
  | _ => exact ⟨rfl, rfl⟩

/-- An unknown type is written as `any`. -/
def Ty.orAny (t : Ty) : Ty := if t.isNil then .any else t

/-- What an expression of type `own` is lowered against: that type, with its wrapper or without, or
    whatever stands in for it where it is unknown. Nothing is wanted of a value that is dropped. -/
def Ty.Fits (own wanted : Ty) : Prop :=
  wanted = own ∨ wanted = own.unwrap ∨ own.unwrap.isNil = true ∨ wanted.isVoid = true

theorem Ty.fits_unwrap (own : Ty) : own.Fits own.unwrap := .inr (.inl rfl)

theorem Ty.fits_orAny {own : Ty} : own.Fits own.unwrap.orAny := by
  unfold Ty.orAny
  split
  · exact .inr (.inr (.inl (by assumption)))
  · exact own.fits_unwrap

theorem LowerState.fits_typeOf (s : LowerState) {env : Env} {e : Located Expr} :
    (s.inferred env e).Fits (s.typeOf env e) := Ty.fits_unwrap _

/-- The piece is lowered against its own type, or against none. -/
inductive Piece.Lowers (env : Env) (p : Piece) (s : LowerState) : Prop
  | value {expected : Option Ty} {e : Target.Expr} {s' : LowerState}
      (hfits : ∀ t ∈ expected, (s.inferred env p.source).Fits t) (h : p.value expected s = .ok e s')
  | tail {result : Ty} {stmts : List Target.Stmt} {s' : LowerState} (hfits : (s.inferred env p.source).Fits result)
      (h : p.tail result s = .ok stmts s')
  | body {result : Ty} {stmts : List Target.Stmt} {s' : LowerState} (hfits : (s.inferred env p.source).Fits result)
      (h : p.body result s = .ok stmts s')

theorem Piece.Lowers.plain {env : Env} {p : Piece} {e : Target.Expr}
    (h : p.value none s = .ok e s') : p.Lowers env s := .value (by simp) h

namespace Lower

variable {env : Env} {s s' : LowerState} {α : Type} {act : Lower α}

theorem piece_source (env : Env) (e : Located Expr) : (piece env e).source = e := by
  obtain ⟨e, span⟩ := e
  cases e with
  | ifElse cond thenBranch elseBranch => cases elseBranch <;> simp only [piece] <;> rfl
  | _ =>
    rfl

variable {result : Ty} {span : Span} {expected : List Ty} {fields : List Target.Field}
  {params : List LambdaParam}

theorem withFunction_ok {synthetic : Bool} {a : α} (h : withFunction result synthetic act s = .ok a s') :
    ∃ s1, act { s with functions := ⟨result, synthetic⟩ :: s.functions } = .ok a s1 := by
  obtain ⟨s1, hact, -⟩ := bracket_ok h
  exact ⟨s1, hact⟩

theorem typeOf_ok {e : Located Expr} {t : Ty} (h : typeOf env e s = .ok t s') : t = s.typeOf env e ∧ s' = s := by
  rw [typeOf_run] at h
  cases h
  exact ⟨rfl, rfl⟩

theorem typeOf_bind_run {e : Located Expr} (f : Ty → Lower α) : (typeOf env e >>= f) s = f (s.typeOf env e) s := by
  show EStateM.bind (typeOf env e) f s = _
  rw [EStateM.bind, typeOf_run]
  rfl

theorem check_ok {c : Prop} [Decidable c] {fault : Fault} {f : PUnit → Lower α} {a : α}
    (h : (if c then fail fault span >>= f else act) s = .ok a s') : ¬ c ∧ act s = .ok a s' := by
  split at h
  · obtain ⟨_, _, hfail, -⟩ := bind_ok h
    cases hfail
  · exact ⟨by assumption, h⟩

/-! ## Positions -/

theorem invokeInPlace_ok {source : Located Expr} {expected : Option Ty} {tail : Ty → Lower (List Target.Stmt)}
    {v : Target.Expr} (h : invokeInPlace env source expected tail s = .ok v s') : ∃ ty body s1,
      (ty ∈ expected ∧ ty.isConcrete = true ∨ ty = s.typeOf env source) ∧ ty.isVoid = false ∧
      tail ty.orAny { s with functions := ⟨ty.orAny, true⟩ :: s.functions } = .ok body s1 ∧
      v = .invoked ty.orAny.results body := by
  obtain ⟨ty, s1, hty, hrun⟩ := bind_ok h
  have hasked : (ty ∈ expected ∧ ty.isConcrete = true ∨ ty = s.typeOf env source) ∧ s1 = s := by
    cases hwanted : expected.filter Ty.isConcrete with
    | some wanted =>
      simp only [inPlaceType, hwanted] at hty
      obtain ⟨rfl, rfl⟩ := pure_ok hty
      exact ⟨.inl (Option.filter_eq_some_iff.mp hwanted), rfl⟩
    | none =>
      simp only [inPlaceType, hwanted] at hty
      obtain ⟨rfl, rfl⟩ := typeOf_ok hty
      exact ⟨.inr rfl, rfl⟩
  obtain ⟨hasked, rfl⟩ := hasked
  obtain ⟨hvoid, hinvoked⟩ := check_ok hrun
  obtain ⟨body, s2, hfunction, hv⟩ := bind_ok hinvoked
  obtain ⟨s3, hbody⟩ := withFunction_ok hfunction
  exact ⟨ty, body, s3, hasked, by simpa using hvoid, hbody, (pure_ok hv).1⟩

theorem stmtPieces_single {stmts : List (Located Source.Stmt)} {p : StmtPiece} {q : Piece}
    (h : stmtPieces env stmts = [p]) (hq : p.expr = some q) :
    ∃ e span, stmts = [⟨.expr e, span⟩] ∧ q = piece env e := by
  cases stmts with
  | nil => simp [stmtPieces] at h
  | cons stmt stmts =>
    cases stmts with
    | cons _ _ => simp [stmtPieces] at h
    | nil =>
      obtain ⟨stmt, span⟩ := stmt
      simp only [stmtPieces, List.cons.injEq, and_true] at h
      subst h
      cases stmt with
      | expr e =>
        cases hq
        exact ⟨e, span, rfl, rfl⟩
      | val decl =>
        obtain ⟨name, mutable, ty, value⟩ := decl
        cases hq
      | ret value => cases value <;> simp only [stmtPiece] at hq <;> cases hq
      | _ =>
        cases hq

theorem blockPiece_value {source : Located Expr} {stmts : List StmtPiece} {expected : Option Ty} :
    (∃ p q, stmts = [p] ∧ p.expr = some q ∧
      (blockPiece env source stmts).value expected = nested env source.span (q.value expected)) ∨
    (blockPiece env source stmts).value expected =
      nested env source.span (invokeInPlace env source expected (blockPiece env source stmts).tail) := by
  unfold blockPiece
  split
  · rename_i q
    exact .inl ⟨_, q, rfl, rfl, rfl⟩
  · exact .inr rfl

/-! ## Lambdas and tuples -/

theorem lambdaResult_ok {expected : Option (List Ty)} {body : Located Expr}
    (h : lambdaResult env expected body s = .ok result s') :
    s' = s ∧ (expected = some [] ∧ result = .void ∨ (∃ ts ∈ expected, result ∈ ts ∧ result.isConcrete = true) ∨
        result = (s.typeOf env body).orAny) := by
  obtain ⟨inf, s1, hinf, h⟩ := bind_ok h
  cases hinf
  have hinferred : ∀ {s1}, (do
      let ty ← typeOf env body
      pure (if ty.isNil then .any else ty) : Lower Ty) s1 = .ok result s' →
      s' = s1 ∧ result = (s1.typeOf env body).orAny := by
    intro s1 h
    obtain ⟨ty, s2, hty, h⟩ := bind_ok h
    obtain ⟨rfl, rfl⟩ := typeOf_ok hty
    obtain ⟨rfl, rfl⟩ := pure_ok h
    exact ⟨rfl, rfl⟩
  split at h
  · obtain ⟨rfl, rfl⟩ := pure_ok h
    exact ⟨rfl, .inl ⟨rfl, rfl⟩⟩
  · rename_i single
    split at h
    · rename_i hknown
      obtain ⟨rfl, rfl⟩ := pure_ok h
      simp only [Bool.and_eq_true] at hknown
      exact ⟨rfl, .inr (.inl ⟨_, rfl, .head _, hknown.1⟩)⟩
    · obtain ⟨hs, hresult⟩ := hinferred h
      exact ⟨hs, .inr (.inr hresult)⟩
  · obtain ⟨hs, hresult⟩ := hinferred h
    exact ⟨hs, .inr (.inr hresult)⟩

theorem lambdaParamTypes_cons (p : LambdaParam) : Inference.lambdaParamTypes (p :: params) expected =
      (p.ty <|> expected.head?).getD .nil :: Inference.lambdaParamTypes params expected.tail := by
  unfold Inference.lambdaParamTypes
  simp [List.head?_eq_getElem?, List.getElem?_tail]

theorem lambdaFields_ok (h : lambdaFields span params expected s = .ok fields s') : s' = s ∧
      fields.map (fun f => (f.name, f.ty)) = (params.map (·.name)).zip (Inference.lambdaParamTypes params expected) ∧
      ∀ t ∈ Inference.lambdaParamTypes params expected, (∃ p ∈ params, p.ty = some t) ∨ t.isConcrete = true := by
  induction params generalizing expected fields s s' with
  | nil =>
    obtain ⟨rfl, rfl⟩ := pure_ok h
    exact ⟨rfl, rfl, by simp [Inference.lambdaParamTypes]⟩
  | cons p params ih =>
    rw [lambdaParamTypes_cons]
    cases hty : (p.ty <|> expected.head?.filter Ty.isConcrete) with
    | none =>
      simp only [lambdaFields, hty] at h
      cases h
    | some ty =>
      simp only [lambdaFields, hty] at h
      obtain ⟨rest, s1, hrest, hfields⟩ := bind_ok h
      obtain ⟨rfl, hnames, htypes⟩ := ih hrest
      obtain ⟨rfl, rfl⟩ := pure_ok hfields
      have hown : (p.ty <|> expected.head?).getD .nil = ty ∧ (p.ty = some ty ∨ ty.isConcrete = true) := by
        cases hp : p.ty with
        | some written =>
          rw [hp] at hty
          cases hty
          exact ⟨rfl, .inl rfl⟩
        | none =>
          rw [hp] at hty
          obtain ⟨hhead, hknown⟩ := Option.filter_eq_some_iff.mp (show expected.head?.filter Ty.isConcrete = some ty from hty)
          exact ⟨by simp [hhead], .inr hknown⟩
      refine ⟨rfl, ?_, List.forall_mem_cons.mpr ⟨?_, fun t ht => ?_⟩⟩
      · rw [hown.1, List.map_cons, List.map_cons, List.zip_cons_cons, hnames]
      · rw [hown.1]
        exact hown.2.imp_left fun hp => ⟨p, .head _, hp⟩
      · refine (htypes t ht).imp_left ?_
        rintro ⟨q, hq, hqt⟩
        exact ⟨q, .tail _ hq, hqt⟩

theorem lambdaFields_names (h : lambdaFields span params expected s = .ok fields s') :
    fields.map (·.name) = params.map (·.name) := by
  obtain ⟨-, hfields, -⟩ := lambdaFields_ok h
  calc fields.map (·.name) = (fields.map fun f => (f.name, f.ty)).map Prod.fst := by simp
    _ = params.map (·.name) := by rw [hfields, List.map_fst_zip (by simp [Inference.lambdaParamTypes])]

end Lower

def LowerState.inLambda (s : LowerState) (params : List (String × Ty)) : LowerState :=
  { s with scope := s.scope.enter.bindAll params }

namespace Lower

variable {env : Env} {s s' : LowerState}

variable {expected : Option Ty} {span : Span} {v : Target.Expr} {ty : Ty} {member : Located String}
    {args : List ArgPiece} {receiver subject : Piece} {owner : TypeEntry}

theorem lowerLambda_ok {params : List LambdaParam} {body : Piece}
    (h : lowerLambda env params body expected span s = .ok v s') :
    ∃ fields result stmts s1, lambdaFields span params (expectedSignature expected).1 s = .ok fields s ∧
      lambdaResult env (expectedSignature expected).2 body.source (s.inLambda (fields.map fun f => (f.name, f.ty))) =
          .ok result (s.inLambda (fields.map fun f => (f.name, f.ty))) ∧
      body.body result { s.inLambda (fields.map fun f => (f.name, f.ty)) with
        functions := ⟨result, false⟩ :: s.functions } = .ok stmts s1 ∧
      v = .funcLit fields result.results stmts := by
  obtain ⟨fields, s1, hfields, hscope⟩ := bind_ok h
  obtain rfl := (lambdaFields_ok hfields).1
  obtain ⟨s2, hbind⟩ := withScope_ok hscope
  obtain ⟨_, s3, hbound, hrun⟩ := bind_ok hbind
  cases hbound
  obtain ⟨result, s4, hresult, hfunction⟩ := bind_ok hrun
  obtain rfl := (lambdaResult_ok hresult).1
  obtain ⟨stmts, s5, hbody, hv⟩ := bind_ok hfunction
  obtain ⟨s6, hbody⟩ := withFunction_ok hbody
  exact ⟨fields, result, stmts, s6, hfields, hresult, hbody, (pure_ok hv).1⟩

theorem elementType_ok {hint : Option Ty} {elem : Piece} {position : Nat}
    (h : elementType env hint elem position s = .ok ty s') :
    s' = s ∧ ty.isConcrete = true ∧ (ty ∈ hint ∨ ty = s.typeOf env elem.source) := by
  unfold elementType at h
  cases hhint : hint.filter Ty.isConcrete with
  | some hinted =>
    rw [hhint] at h
    obtain ⟨hconcrete, h⟩ := check_ok h
    obtain ⟨rfl, rfl⟩ := pure_ok h
    exact ⟨rfl, by simpa using hconcrete, .inl (Option.filter_eq_some_iff.mp hhint).1⟩
  | none =>
    rw [hhint] at h
    obtain ⟨ty1, s1, hty, h⟩ := bind_ok h
    obtain ⟨rfl, rfl⟩ := typeOf_ok hty
    obtain ⟨hconcrete, h⟩ := check_ok h
    obtain ⟨rfl, rfl⟩ := pure_ok h
    exact ⟨rfl, by simpa using hconcrete, .inr rfl⟩

/-! ## Bindings -/

theorem bindingType_known {decl : Source.ValDecl} (h : bindingType env decl s = .ok ty s') :
    s' = s ∧ (decl.ty = some ty ∨ decl.ty = none ∧ ty = s.typeOf env decl.value) ∧ ty.isNil = false ∧
      ty.isVoid = false := by
  unfold bindingType at h
  cases hty : decl.ty with
  | some written =>
    rw [hty] at h
    obtain ⟨hknown, h⟩ := check_ok h
    obtain ⟨rfl, rfl⟩ := pure_ok h
    exact ⟨rfl, .inl rfl, by simpa using hknown⟩
  | none =>
    rw [hty] at h
    obtain ⟨ty1, s1, hinferred, h⟩ := bind_ok h
    obtain ⟨rfl, rfl⟩ := typeOf_ok hinferred
    obtain ⟨hknown, h⟩ := check_ok h
    obtain ⟨rfl, rfl⟩ := pure_ok h
    exact ⟨rfl, .inr ⟨rfl, rfl⟩, by simpa using hknown⟩

/-! ## Receivers and functions -/

theorem lowerSelect_ok {target : Piece} (h : lowerSelect env target member s = .ok v s')
    (hpackage : packageOf? env s.scope target.source.val = none) : ∃ r s1, target.value none s = .ok r s1 := by
  obtain ⟨scope, s1, hscope, hrun⟩ := bind_ok h
  cases hscope
  rw [hpackage] at hrun
  obtain ⟨ty, s2, hty, hmember⟩ := bind_ok hrun
  obtain ⟨-, rfl⟩ := typeOf_ok hty
  obtain ⟨-, hknown⟩ := check_ok hmember
  obtain ⟨r, s3, hr, -⟩ := bind_ok hknown
  exact ⟨r, s3, hr⟩

theorem select_ok {target : Located Expr}
    (h : (piece env ⟨.select target member, span⟩).value expected s = .ok v s')
    (hpackage : packageOf? env s.scope target.val = none) :
    ∃ r s1, (piece env target).value none { s with depth := s.depth + 1 } = .ok r s1 := by
  obtain ⟨s1, hselect⟩ := nested_ok h
  exact lowerSelect_ok hselect (by rw [piece_source]; exact hpackage)

theorem callMethod_ok {name : String} {m : Method} {typeArgs : List Ty} (hargs : TidyArgs args)
    (h : callMethod env receiver ty owner name m typeArgs args expected span s = .ok v s') :
    ∃ r s1 s2, Framed s s1 ∧ receiver.value none s1 = .ok r s2 := by
  obtain ⟨values, s1, hvalues, hrun⟩ := bind_ok h
  obtain ⟨own, s2, hown, hrun⟩ := bind_ok hrun
  obtain ⟨lowered, s3, hlowered, hrun⟩ := bind_ok hrun
  obtain ⟨r, s4, hr, -⟩ := bind_ok hrun
  have hframed1 := framed.checkedArgs.ok hvalues
  have hframed2 := (framed.calleeTypeArgs fun _ _ => mentionsAny).ok hown
  have hframed3 := (framed.lowerArgs (Composes.has_of_checkedArgs hargs hvalues)).ok hlowered
  exact ⟨r, s3, s4, (hframed1.trans hframed2).trans hframed3, hr⟩

theorem callCopy_ok (hargs : TidyArgs args) (h : callCopy env receiver ty owner args span s = .ok v s') :
    ∃ r s1 s2, Framed s s1 ∧ receiver.value none s1 = .ok r s2 := by
  obtain ⟨overrides, s1, hoverrides, hrun⟩ := bind_ok h
  obtain ⟨r, s2, hr, -⟩ := bind_ok hrun
  exact ⟨r, s1, s2, (framed.copyOverrides hargs).ok hoverrides, hr⟩

theorem callValue_ok {callee : Piece} {params : List Ty} (h : callValue callee params args span s = .ok v s') :
    ∃ r s1 s2, Framed s s1 ∧ callee.value none s1 = .ok r s2 := by
  obtain ⟨values, s1, hvalues, hrun⟩ := bind_ok h
  obtain ⟨r, s2, hr, -⟩ := bind_ok hrun
  exact ⟨r, s1, s2, framed.checkedArgs.ok hvalues, hr⟩

/-! ## Matches -/

theorem checkMatch_type {clauses : List ClausePiece} {position : Position} {checked : Ty × Match.Coverage}
    (h : checkMatch env subject clauses position span s = .ok checked s') :
    checked.1 = s.typeOf env subject.source ∧ checked.1.isNil = false ∧ checked.1.isVoid = false := by
  obtain ⟨ty, s1, hty, hrun⟩ := bind_ok h
  obtain ⟨rfl, rfl⟩ := typeOf_ok hty
  obtain ⟨hknown, hrun⟩ := check_ok hrun
  obtain ⟨coverage, s2, -, hrun⟩ := bind_ok hrun
  have heq : checked = (s1.typeOf env subject.source, coverage) := by
    cases position with
    | effect => exact (pure_ok hrun).1
    | tail result =>
      obtain ⟨_, s3, -, hrun⟩ := bind_ok hrun
      exact (pure_ok hrun).1
  subst heq
  simpa using hknown

theorem matchSubject_ok {start : List Target.Stmt × Target.Expr} (h : matchSubject subject s = .ok start s') :
    ∃ v s1, subject.value none s = .ok v s1 := by
  obtain ⟨v, s1, hv, -⟩ := bind_ok h
  exact ⟨v, s1, hv⟩

end Lower

end Lowering
