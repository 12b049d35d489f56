/-
  Constructed — a struct literal has the type that inference gives the call.

  Lowering and inference each arrange the arguments of a constructor and find its type arguments. Lowering looks
  through the wrappers that fields are declared with, inference does not.
-/

import Lowering.Proofs.Extracted

namespace Lowering

def Ty.WrapsNone (params : List String) (t : Ty) : Prop := t.isWrapper = true → t.unwrap.mentions params = false

namespace Unifier

variable {params : List String} {u u' : Unifier} {t : Ty} {pair : Ty × ArgTyping}

theorem param?_unmentioned (h : t.mentions params = false) : param? params t = none := by
  unfold param?
  cases t with
  | basic name => simpa [Ty.leafName?, Ty.mentions] using h
  | named package name =>
    cases hp : package.isEmpty with
    | true => simpa [Ty.leafName?, Ty.mentions, hp] using h
    | false => simp [Ty.leafName?, hp]
  | _ => rfl

theorem unify?_of_hereditary {P : Ty → Prop} (hP : Ty.Hereditary P) (hnone : ∀ t, P t → param? u.params t = none)
    (ht : P t) {known : Ty} : u.unify? t known = some u := by
  have hmeetings : meetings u.params t known = [] := by
    refine List.eq_nil_iff_forall_not_mem.mpr fun m hm => ?_
    obtain ⟨t', ht', hparam⟩ := (forall_meetings hP .true t known ht trivial m hm).param
    rw [hnone t' ht'] at hparam
    cases hparam
  unfold unify? unify
  rw [solve_eq, hmeetings, meetAll_nil]
  rfl

theorem unify?_unwrap (h : t.WrapsNone u.params) :
    t.unwrap = t ∨ ∀ known, u.unify? t.unwrap known = some u ∧ u.unify? t known = some u := by
  cases hw : t.isWrapper with
  | false => exact .inl (Ty.unwrap_eq hw)
  | true =>
    obtain ⟨base, inner, rfl, hunwrap⟩ : ∃ base inner, t = .generic base [inner] ∧ t.unwrap = inner := by
      cases t with
      | generic base args =>
        obtain ⟨inner, rfl⟩ := List.length_eq_one_iff.mp (beq_iff_eq.mp (Bool.and_eq_true_iff.mp hw).2)
        exact ⟨base, inner, rfl, by simp [Ty.unwrap, Ty.wrapped?, hw, Ty.args]⟩
      | _ => cases hw
    have hinner : inner.mentions u.params = false := hunwrap ▸ h hw
    -- the wrapper is no parameter, whatever its name, and has none inside
    have hP : Ty.Hereditary fun t => t.mentions u.params = false ∨ t = .generic base [inner] :=
      Ty.leafwise_unmentioned.hereditary.orGeneric (List.forall_mem_singleton.mpr hinner)
    have hnone : ∀ t, t.mentions u.params = false ∨ t = .generic base [inner] → param? u.params t = none := by
      rintro t (ht | rfl)
      · exact param?_unmentioned ht
      · rfl
    refine .inr fun known => ⟨?_, unify?_of_hereditary hP hnone (.inr rfl)⟩
    rw [hunwrap]
    exact unify?_of_hereditary hP hnone (.inl hinner)

theorem unifyPlain_unwrap (h : t.WrapsNone u.params) (a : ArgTyping) : u.unifyPlain (t.unwrap, a) = u.unifyPlain (t, a) := by
  rcases unify?_unwrap h with heq | hnone
  · rw [heq]
  · cases a with
    | plain ty => exact (hnone (ty ())).1.trans (hnone (ty ())).2.symm
    | _ => rfl

theorem unifyLambda_unwrap (h : t.WrapsNone u.params) (a : ArgTyping) :
    u.unifyLambda (t.unwrap, a) = u.unifyLambda (t, a) := by
  rcases unify?_unwrap h with heq | hnone
  · rw [heq]
  · cases a with
    | lambda ty => exact (hnone _).1.trans (hnone _).2.symm
    | _ => rfl

theorem unifyPlain_params (h : u.unifyPlain pair = some u') : u'.params = u.params := by
  unfold unifyPlain at h
  split at h
  · exact (unify?_ok h).1
  · cases h
    rfl

theorem unifyLambda_params (h : u.unifyLambda pair = some u') :
    u'.params = u.params := by
  unfold unifyLambda at h
  split at h
  · exact (unify?_ok h).1
  · cases h
    rfl

theorem foldlM_unwrap {f : Unifier → Ty × ArgTyping → Option Unifier}
    (hparams : ∀ {u pair u'}, f u pair = some u' → u'.params = u.params)
    (hsame : ∀ {u t}, t.WrapsNone u.params → ∀ a, f u (t.unwrap, a) = f u (t, a)) {pairs : List (Ty × ArgTyping)}
    (hpairs : ∀ pair ∈ pairs, pair.1.WrapsNone u.params) :
    (pairs.map fun pair => (pair.1.unwrap, pair.2)).foldlM f u = pairs.foldlM f u ∧
      ∀ u', pairs.foldlM f u = some u' → u'.params = u.params := by
  induction pairs generalizing u with
  | nil => exact ⟨rfl, fun u' h => by cases h; rfl⟩
  | cons pair pairs ih =>
    simp only [List.map_cons, List.foldlM_cons, hsame (hpairs pair (.head _))]
    cases hstep : f u (pair.1, pair.2) with
    | none => exact ⟨rfl, fun u' h => by cases h⟩
    | some u1 =>
      have hu1 := hparams hstep
      obtain ⟨heq, hrest⟩ := ih fun pair hmem => hu1 ▸ hpairs pair (.tail _ hmem)
      exact ⟨heq, fun u' h => (hrest u' h).trans hu1⟩

end Unifier

/-- The type arguments found are the same whether or not the wrappers of parameter types are looked through. -/
theorem resolveTypeArgs_unwrap {typeParams : List String} {params explicit : List Ty}
    (h : explicit.length = typeParams.length ∨ ∀ t ∈ params, t.WrapsNone typeParams) (args : List (Option ArgTyping))
    (expected : Option (Ty × Ty)) :
    resolveTypeArgs typeParams (params.map Ty.unwrap) args explicit expected =
      resolveTypeArgs typeParams params args explicit expected := by
  unfold resolveTypeArgs
  split
  · rfl
  · split
    · rfl
    · rename_i hexplicit
      have hwraps := h.resolve_left fun heq => hexplicit (by simpa using heq)
      have hpairs : ∀ pair ∈ (params.zip args).filterMap fun p => p.2.map (p.1, ·), pair.1.WrapsNone typeParams := by
        intro pair hmem
        obtain ⟨p, hp, hpair⟩ := List.mem_filterMap.mp hmem
        obtain ⟨a, -, rfl⟩ := Option.map_eq_some_iff.mp hpair
        exact hwraps p.1 (List.of_mem_zip hp).1
      have hmap : ((params.map Ty.unwrap).zip args).filterMap (fun p => p.2.map (p.1, ·)) =
          ((params.zip args).filterMap fun p => p.2.map (p.1, ·)).map fun pair => (pair.1.unwrap, pair.2) := by
        rw [List.zip_map_left, List.filterMap_map, List.map_filterMap]
        congr 1
        funext ⟨t, a⟩
        cases a <;> rfl
      obtain ⟨hplain, hparams⟩ := Unifier.foldlM_unwrap (f := Unifier.unifyPlain) (u := .new typeParams)
        Unifier.unifyPlain_params Unifier.unifyPlain_unwrap hpairs
      simp only [hmap, hplain]
      cases hfirst : ((params.zip args).filterMap fun p => p.2.map (p.1, ·)).foldlM Unifier.unifyPlain (.new typeParams) with
      | none => rfl
      | some u =>
        have hu : u.params = typeParams := hparams u hfirst
        obtain ⟨hlambda, -⟩ := Unifier.foldlM_unwrap (f := Unifier.unifyLambda) Unifier.unifyLambda_params
          Unifier.unifyLambda_unwrap (hu ▸ hpairs)
        simp only [Option.bind_eq_bind, Option.bind_some, hlambda]

namespace Lower

open Target (Expr)

variable {span : Span} {env : Env}

theorem argTypings_eq (inf : Inference) (scope : Scope) (args : List Source.Arg) :
    inf.argTypings scope args = args.map fun a => (a.name, inf.argTypingOf scope a.value) := by
  induction args with
  | nil => rfl
  | cons a args ih =>
    obtain ⟨name, value⟩ := a
    rw [Inference.argTypings, ih, List.map_cons]
    rfl

theorem arrange_span {α : Type} {names : List String} {args : List (NamedArg α)} {slots : List (Option α)}
    (h : arrange names args span = .ok slots) (span' : Span) : arrange names args span' = .ok slots := by
  unfold arrange at h ⊢
  split
  · simpa [*] using h
  · split
    · simp [*, Fault.raise] at h
    · simpa [*] using h

theorem constructorSlots_argTypings {fields : List String} {args : List Source.Arg}
    {slots : List (Option Piece)}
    (h : arrange fields ((argPieces env args).map fun a => (a.name, a.value)) span = .ok slots) (inf : Inference)
    (scope : Scope) (span' : Span) : constructorSlots fields (inf.argTypings scope args) span' =
      slots.map (Option.map fun p => inf.argTypingOf scope p.source) := by
  have hargs : inf.argTypings scope args = ((argPieces env args).map fun a => (a.name, a.value)).map fun a =>
      (a.1, inf.argTypingOf scope a.2.source) := by
    rw [argTypings_eq, argPieces_eq, List.map_map, List.map_map]
    simp only [Function.comp_def, piece_source]
  unfold constructorSlots
  rw [hargs, arrange_map (f := fun p : Piece => inf.argTypingOf scope p.source), arrange_span h]
  rfl

theorem knownTypeArgs_ok {callee : Generic} {args : List (Option Piece)} {explicit types : List Ty}
    {expected : Option Ty} {s s' : LowerState}
    (h : knownTypeArgs env callee args explicit expected span s = .ok types s') :
    resolveTypeArgs callee.typeParams callee.params (typingsAt env s args) explicit
      (expected.map (callee.result, ·)) = some types := by
  obtain ⟨resolved, s1, hresolved, h⟩ := bind_ok h
  rw [calleeTypeArgs_ok hresolved]
  cases resolved with
  | some types => rw [(pure_ok h).1]
  | none => cases h

variable {env : Env} {e : TypeEntry} {callee : Located Source.Expr} {typeArgs : List Ty} {args : List Source.Arg}
  {expected : Option Ty} {span : Span} {s s' : LowerState} {v : Expr}

/-- What a constructor call is lowered to is a literal of the type that inference gives the call, unless a field is
    declared as a wrapper of a type that mentions a parameter of the struct and the type arguments are not written. -/
theorem construct_inferred (hcallee : (⟨env, s.typeParams⟩ : Inference).callee s.scope callee = .constructor e)
    (hfields : typeArgs.length = e.typeParams.length ∨ ∀ t ∈ e.fieldTypes, t.WrapsNone e.typeParams)
    (h : construct env e typeArgs (argPieces env args) expected span s = .ok v s') :
    ∃ ty elements, v = .composite ty elements ∧
      (⟨env, s.typeParams⟩ : Inference).callType s.scope callee typeArgs args expected = ty := by
  obtain ⟨slots, s₁, harrange, hrest⟩ := bind_ok h
  obtain ⟨_, s₂, harity, hrun⟩ := bind_ok hrest
  obtain ⟨hslots, rfl⟩ := ofChecked_ok harrange
  obtain ⟨-, rfl⟩ := checkArity_ok harity
  obtain ⟨values, s₃, hvalues, hrun⟩ := bind_ok hrun
  obtain ⟨types, s₄, htypes, hrun⟩ := bind_ok hrun
  obtain ⟨_, s₅, -, hrun⟩ := bind_ok hrun
  obtain ⟨elements, s₆, -, hrun⟩ := bind_ok hrun
  have hframed := framed.constructorArgs.ok hvalues
  refine ⟨_, elements, (pure_ok hrun).1, ?_⟩
  have hslots := constructorSlots_argTypings hslots ⟨env, s₂.typeParams⟩ s₂.scope callee.span
  have hfound := knownTypeArgs_ok htypes
  rw [typingsAt, hframed.typeParams, hframed.scope] at hfound
  rw [Inference.callType, hcallee]
  show constructedType env e _ typeArgs expected callee.span = _
  rw [constructedType_eq, hslots, ← resolveTypeArgs_unwrap hfields]
  exact congrArg (Option.elim · Ty.nil (env.typeRef e).apply) hfound

/-- `Box[T]` of the package `geo`, with one field. -/
def geoBox (fieldType : Ty) : TypeEntry :=
  { TypeEntry.new "geo" "Box" .struct with fields := ["x"], fieldTypes := [fieldType], typeParams := ["T"] }

def geoEnv (fieldType : Ty) : Env :=
  { bareEnv with catalog := Catalog.empty.merge ⟨[geoBox fieldType], [], [], [⟨"geo", "lib/geo", none, false⟩]⟩ }

/-- `geo.Box` -/
def boxCallee : Located Source.Expr := unlocated (.select (unlocated (.ident "geo")) (unlocated "Box"))

def boxArgs : List Source.Arg := [⟨none, unlocated (.lit (.int 1))⟩]

/-- What `geo.Box(1)` is lowered to. -/
def constructBox (fieldType : Ty) : Lower Expr :=
  construct (geoEnv fieldType) (geoBox fieldType) [] (argPieces (geoEnv fieldType) boxArgs) none .synthetic

def inferBox (fieldType : Ty) : Ty := (⟨geoEnv fieldType, []⟩ : Inference).callType .new boxCallee [] boxArgs none

/-- A box that is declared with a plain field: `geo.Box[int]{x: 1}`. -/
theorem construct_inferred_box : ∃ elements s', constructBox (.basic "T") (.start (geoEnv (.basic "T"))) =
      .ok (.composite (.generic (.named "geo" "Box") [.int]) elements) s' ∧
    inferBox (.basic "T") = .generic (.named "geo" "Box") [.int] := by
  obtain ⟨elements, s', hbuilt⟩ : ∃ elements s', constructBox (.basic "T") (.start (geoEnv (.basic "T"))) =
      .ok (.composite (.generic (.named "geo" "Box") [.int]) elements) s' := ⟨_, _, by with_unfolding_all rfl⟩
  have hcallee : (⟨geoEnv (.basic "T"), []⟩ : Inference).callee .new boxCallee = .constructor (geoBox (.basic "T")) := by
    with_unfolding_all rfl
  obtain ⟨ty, _, hv, hty⟩ := construct_inferred hcallee (.inr fun t ht hw => by cases ht <;> trivial) hbuilt
  cases hv
  exact ⟨_, _, hbuilt, hty⟩

/-- The field as the wrapper of `T`. -/
def wrappedField : Ty := .generic (.named "std" Ty.wrapperName) [.basic "T"]

/-- A box whose field is declared as a wrapper is constructed, and no type is inferred for it. -/
theorem wrappedField_untyped : ∃ elements s', constructBox wrappedField (.start (geoEnv wrappedField)) =
    .ok (.composite (.generic (.named "geo" "Box") [.int]) elements) s' ∧ inferBox wrappedField = .nil :=
  ⟨_, _, by with_unfolding_all rfl, by with_unfolding_all rfl⟩

end Lower

end Lowering
