/-
  Parameters — the type parameters of emitted declarations.

  A function that stands for a method has the names among the arguments of the receiver, unless that is a pointer,
  all of them without a constraint, and then its own parameters that the receiver's type does not have.
-/

import Lowering.Proofs.Extracted
import Lowering.Proofs.Globals
import Lowering.Proofs.Variants
import Mathlib.Tactic.FinCases

namespace Lowering

open Source (Program Receiver FuncDecl TypeParam typeParamNames)
open Index (Declared)
open Lower

/-! ## Binders -/

/-- The names among the arguments of a receiver, pointers looked through. -/
def Ty.receiverNames : Ty → List String
  | .pointer elem => elem.receiverNames
  | t => receiverParams t

/-- What binds type parameters: those of the function, and the arguments of its receiver. -/
def Target.FuncDecl.binders (f : Target.FuncDecl) : List String :=
  f.typeParams.map (·.name) ++ f.receiver.toList.flatMap (·.ty.receiverNames)

def Source.FuncDecl.writtenParams (d : FuncDecl) : List String :=
  d.receiver.toList.flatMap (·.ty.receiverNames) ++ typeParamNames d.typeParams

/-- The parameters of a method have distinct names, one of its own is shared with the receiver just where the type of
    the receiver is declared with it, and a receiver that is no longer one is no pointer to a generic type. -/
structure ParamsApart (program : Program) (env : Env) (d : FuncDecl) : Prop where
  own : (typeParamNames d.typeParams).Nodup
  receiver : ∀ r ∈ d.receiver, r.ty.receiverNames.Nodup
  shared : ∀ r ∈ d.receiver, ∀ owner, env.index.types.find? r.ty.baseName = some owner →
    ∀ x ∈ typeParamNames d.typeParams, x ∈ owner.typeParams ↔ x ∈ receiverParams r.ty
  value : ∀ r ∈ d.receiver, methodForm env r d.name.val ≠ .keep → r.ty.receiverNames = receiverParams r.ty
  alike : ∀ r ∈ d.receiver, ∀ d' r', Declared program (.func d') → d'.receiver = some r' →
    r'.ty.baseName = r.ty.baseName → d'.name.val = d.name.val → typeParamNames d'.typeParams = typeParamNames d.typeParams

/-- Each type parameter that is written in the receiver or declared by the function is bound once in the emitted
    function: among its type parameters or, if it stays a method, by its receiver. -/
theorem lowerFunc_bindsOnce {program : Program} {catalog : Catalog} {settings : Settings} {env : Env}
    (henv : Env.ofProgram program catalog settings = .ok env) {d : FuncDecl} (hd : Declared program (.func d))
    (happart : ParamsApart program env d) {f : Target.FuncDecl} {s s' : LowerState}
    (h : lowerFunc env d s = .ok (.func f) s') : ∀ x ∈ d.writtenParams, f.binders.count x = 1 := by
  suffices hbinders : f.binders.Nodup ∧ ∀ x ∈ d.writtenParams, x ∈ f.binders from
    fun x hx => List.count_eq_one_of_mem hbinders.1 (hbinders.2 x hx)
  have hnames : ∀ params, (targetParams params).map (·.name) = typeParamNames params := by
    simp [targetParams, typeParamNames]
  cases hr : d.receiver with
  | none =>
    simp only [lowerFunc, hr] at h
    obtain ⟨body, s1, -, h⟩ := bind_ok h
    cases h
    simpa [Target.FuncDecl.binders, Source.FuncDecl.writtenParams, hr, hnames] using happart.own
  | some r =>
    obtain ⟨index, hindex, rfl⟩ := Env.ofProgram_ok henv
    obtain ⟨owner, m, howner, hm, d', r', hd', hr', hbase, hname, hparams⟩ := Index.exists_method hindex hd hr
    have hform : methodForm ⟨index, catalog, settings⟩ r d.name.val = _ := methodForm_eq howner hm
    rw [happart.alike r hr d' r' hd' hr' hbase hname] at hparams
    have hreceiver := happart.receiver r hr
    cases hof : MethodForm.of owner d.name.val m with
    | keep =>
      have hown : typeParamNames d.typeParams = [] := by
        unfold MethodForm.of MethodForm.mustExtract at hof
        split at hof
        · cases hof
        · rename_i hstays
          rw [← hparams]
          by_contra hne
          exact hstays (by simp [hne])
      simp only [lowerFunc, hr, hform, hof] at h
      obtain ⟨body, s1, -, h⟩ := bind_ok h
      cases h
      simpa [Target.FuncDecl.binders, Source.FuncDecl.writtenParams, hr, hown] using hreceiver
    | extract function typeParams kept =>
      obtain ⟨-, rfl⟩ := of_extract hof
      obtain ⟨_, ⟨⟩, -, hnone, -, htypeParams⟩ := lowerFunc_extract hr (hform.trans hof) h
      have hsame := happart.value r hr (by rw [hform, hof]; exact fun h => by cases h)
      have hshared := happart.shared r hr owner howner
      have hbinders : f.binders = receiverParams r.ty ++
          (typeParamNames d.typeParams).filter fun x => !owner.typeParams.contains x := by
        simp only [Target.FuncDecl.binders, htypeParams, hnone, List.map_append, List.map_map]
        rw [hparams, surviving_eq]
        simp [Function.comp_def]
      rw [hsame] at hreceiver
      rw [hbinders]
      refine ⟨List.nodup_append.mpr ⟨hreceiver, happart.own.filter _, ?_⟩, ?_⟩
      · rintro x hx _ hown rfl
        obtain ⟨hown, hnot⟩ := List.mem_filter.mp hown
        simp [(hshared x hown).mpr hx] at hnot
      · intro x hx
        rw [Source.FuncDecl.writtenParams, hr] at hx
        rcases List.mem_append.mp hx with hx | hx
        · exact List.mem_append_left _ (by simpa [hsame] using hx)
        · by_cases howned : x ∈ owner.typeParams
          · exact List.mem_append_left _ ((hshared x hx).mp howned)
          · exact List.mem_append_right _ (List.mem_filter.mpr ⟨hx, by simpa using howned⟩)

theorem Lower.converting_apart : ParamsApart (converting id) convEnv (convMethod (boxOf (.basic "T"))) where
  own := by decide
  receiver := by
    decide
  shared := by
    rintro r ⟨⟩ owner howner x hx
    obtain rfl : owner = boxEntry := by
      rw [boxEntry, show convEnv.index.types.find? "Box" = some owner from howner, Option.getD_some]
    rw [List.mem_singleton.mp hx]
    with_unfolding_all decide
  value := by
    rintro r ⟨⟩ -
    rfl
  alike := by
    rintro r - d' r' hd' hr' - -
    cases eq_convMethod hd' hr'
    rfl

theorem lowerFunc_bindsOnce_box : ∃ f s, lowerFunc convEnv (convMethod (boxOf (.basic "T")))
    (.start convEnv) = .ok (.func f) s ∧ f.binders.count "T" = 1 ∧ f.binders.count "U" = 1 := by
  have honce := lowerFunc_bindsOnce ofProgram_converting ⟨_, .tail _ (.head _)⟩ converting_apart
    lowerFunc_convMethod
  exact ⟨_, _, lowerFunc_convMethod, honce "T" (by decide), honce "U" (by decide)⟩

/-- A pointer to a box as the receiver: the type of `b` has `T`, which nothing binds. -/
theorem pointerReceiver_unbound : ∃ file f, lowerProgram (converting .pointer) .empty .standard = .ok file ∧
    .func f ∈ file.decls ∧ ⟨"b", .pointer (boxOf (.basic "T"))⟩ ∈ f.params ∧ f.binders.count "T" = 0 :=
  ⟨_, _, lowerProgram_converting_pointer, .tail _ (.head _), .head _, rfl⟩

/-! ## Constraints -/

namespace Source.Decl

def typeParams : Decl → List TypeParam
  | .func d => d.typeParams
  | .struct d => d.typeParams
  | .sealedType d => d.typeParams
  | .typeAlias d => d.typeParams
  | .val _ => []

/-- The types with the parameters of the declaration. -/
def owned : Decl → List String
  | .struct d => [d.name.val]
  | .sealedType d => d.name.val :: d.variants.map (·.name.val)
  | .typeAlias d => [d.name.val]
  | .func _ | .val _ => []

/-- The constraint of a type parameter: the one that is written there or, for the argument of a receiver, the one that
    its type is declared with; `any` if there is none. -/
inductive Constrains (program : Program) (d : Decl) : String → Ty → Prop
  | own {p : TypeParam} (hp : p ∈ d.typeParams) : Constrains program d p.name (p.constraint.getD .any)
  | receiver {f : FuncDecl} {r : Receiver} {x : String} {i : Nat} {t : Ty} (hd : d = .func f) (hr : f.receiver = some r)
      (hx : r.ty.args[i]?.bind Ty.leafName? = some x)
      (hdeclared : ∀ owner, Declared program owner → r.ty.baseName ∈ owner.owned → ∀ p, owner.typeParams[i]? = some p →
        t = p.constraint.getD .any)
      (hunknown : (∀ owner, Declared program owner → r.ty.baseName ∈ owner.owned → owner.typeParams[i]? = none) →
        t = .any) : Constrains program d x t

end Source.Decl

def Target.Decl.typeParams : Target.Decl → List Target.TypeParam
  | .func f => f.typeParams
  | .struct _ params _ | .typeAlias _ params _ => params
  | .var _ _ _ | .const _ _ _ => []

/-- Emitted constraints are those of the source, and all of them are emitted for what is no method. -/
structure Source.Decl.Emits (program : Program) (d : Source.Decl) (emitted : List Target.Decl) : Prop where
  sound : ∀ decl ∈ emitted, ∀ p ∈ decl.typeParams, d.Constrains program p.name p.constraint
  complete : (∀ f, d = .func f → f.receiver = none) → ∀ p ∈ d.typeParams,
    ∃ decl ∈ emitted, ⟨p.name, p.constraint.getD .any⟩ ∈ decl.typeParams

/-- Types whose methods become functions are declared without constraints. -/
def Source.Program.Unconstrained (program : Program) (env : Env) : Prop :=
  ∀ d r, Declared program (.func d) → d.receiver = some r → methodForm env r d.name.val ≠ .keep →
    ∀ owner, Declared program owner → r.ty.baseName ∈ owner.owned → ∀ p ∈ owner.typeParams, p.constraint.getD .any = .any

namespace Lower

variable {program : Program} {env : Env} {d : Located Source.Decl} {decls : List Target.Decl} {s s' : LowerState}

theorem targetParams_constrains {d : Source.Decl} {params : List TypeParam} (h : params ⊆ d.typeParams) :
    ∀ p ∈ targetParams params, d.Constrains program p.name p.constraint := by
  intro p hp
  obtain ⟨q, hq, rfl⟩ := List.mem_map.mp hp
  exact .own (h hq)

theorem emits_of_head {d : Source.Decl} {decl : Target.Decl} (h : decl.typeParams = targetParams d.typeParams)
    (hrest : ∀ other ∈ decls, ∀ p ∈ other.typeParams, d.Constrains program p.name p.constraint) :
    d.Emits program (decl :: decls) where
  sound := List.forall_mem_cons.mpr ⟨h ▸ targetParams_constrains (List.Subset.refl _), hrest⟩
  complete := fun _ _ hp => ⟨decl, .head _, h ▸ List.mem_map_of_mem hp⟩

theorem lowerFunc_emits {d : FuncDecl} {decl : Target.Decl} (hmethods : program.Unconstrained env)
    (hd : Declared program (.func d)) (h : lowerFunc env d s = .ok decl s') :
    (Source.Decl.func d).Emits program [decl] := by
  cases hr : d.receiver with
  | none =>
    simp only [lowerFunc, hr] at h
    obtain ⟨body, s1, -, h⟩ := bind_ok h
    cases h
    exact emits_of_head rfl (List.forall_mem_nil _)
  | some r =>
    refine ⟨List.forall_mem_singleton.mpr ?_, fun hfunc => by cases (hfunc d rfl).symm.trans hr⟩
    cases hform : methodForm env r d.name.val with
    | keep =>
      simp only [lowerFunc, hr, hform] at h
      obtain ⟨body, s1, -, h⟩ := bind_ok h
      cases h
      exact List.forall_mem_nil _
    | extract function typeParams kept =>
      obtain ⟨f, rfl, -, -, -, htypeParams⟩ := lowerFunc_extract hr hform h
      have hany := hmethods d r hd hr (by rw [hform]; exact fun h => by cases h)
      rw [Target.Decl.typeParams, htypeParams, List.forall_mem_append]
      refine ⟨?_, targetParams_constrains (List.filter_subset_self _)⟩
      intro p hp
      obtain ⟨x, hx, rfl⟩ := List.mem_map.mp hp
      obtain ⟨arg, harg, hleaf⟩ := List.mem_filterMap.mp hx
      obtain ⟨i, hi⟩ := List.mem_iff_getElem?.mp harg
      refine .receiver rfl hr (by rw [hi]; exact hleaf) (fun owner howner hname q hq => ?_) fun _ => rfl
      exact (hany owner howner hname q (List.mem_of_getElem? hq)).symm

theorem lowerSealed_emits {d : Source.SealedDecl} (h : lowerSealed env d = .ok decls) :
    (Source.Decl.sealedType d).Emits program decls := by
  obtain ⟨e, fields, companions, -, hcompanions, rfl⟩ := Variants.lowerSealed_ok h
  refine emits_of_head rfl (List.forall_mem_append.mpr ⟨?_, ?_⟩)
  · intro decl hdecl
    obtain ⟨i, hi, rfl⟩ := List.mem_mapIdx.mp hdecl
    exact List.forall_mem_nil _
  · intro decl hdecl
    obtain ⟨l, hl, hdecl⟩ := List.mem_flatten.mp hdecl
    obtain ⟨v, -, hv⟩ := exists_of_forall₂ (forall₂_of_mapM_ok hcompanions).flip l hl
    obtain ⟨elements, -, rfl⟩ := Variants.lowerVariant_ok hv
    -- the struct of the variant, `Apply` and `Unapply`
    fin_cases hdecl
    · exact targetParams_constrains (List.Subset.refl _)
    · exact List.forall_mem_nil _
    · exact List.forall_mem_nil _

theorem lowerDecl_emits (hmethods : program.Unconstrained env) (hd : d ∈ program.decls)
    (h : lowerDecl env d s = .ok decls s') : d.val.Emits program decls := by
  obtain ⟨d, span⟩ := d
  cases d with
  | val d =>
    obtain ⟨decl, hglobal, rfl⟩ := map_ok h
    obtain ⟨_, _, -, rfl⟩ := lowerGlobal_ok hglobal
    exact emits_of_head rfl (List.forall_mem_nil _)
  | func d =>
    obtain ⟨decl, hfunc, rfl⟩ := map_ok h
    exact lowerFunc_emits hmethods ⟨span, hd⟩ hfunc
  | struct d =>
    obtain ⟨decl, hstruct, rfl⟩ := map_ok h
    obtain ⟨fields, -, rfl⟩ := checked_map_ok (ofChecked_ok hstruct).1
    exact emits_of_head rfl (List.forall_mem_nil _)
  | sealedType d => exact lowerSealed_emits (ofChecked_ok h).1
  | typeAlias d =>
    cases h
    exact emits_of_head rfl (List.forall_mem_nil _)

theorem mapM_lowerDecl_emits (hmethods : program.Unconstrained env) {l : List (Located Source.Decl)}
    (hl : l ⊆ program.decls) {parts : List (List Target.Decl)} (h : l.mapM (lowerDecl env) s = .ok parts s') :
    List.Forall₂ (fun d emitted => d.val.Emits program emitted) l parts := by
  induction l generalizing s s' parts with
  | nil =>
    cases h
    exact .nil
  | cons d l ih =>
    obtain ⟨hd, hl⟩ := List.cons_subset.mp hl
    rw [List.mapM_cons] at h
    obtain ⟨decls, s1, hdecl, h⟩ := bind_ok h
    obtain ⟨rest, hrest, rfl⟩ := map_ok h
    exact .cons (lowerDecl_emits hmethods hd hdecl) (ih hl hrest)

end Lower

/-- What is emitted for a declaration has the constraints that the source declares. -/
theorem lowerProgram_constrains {program : Program} {catalog : Catalog} {settings : Settings} {env : Env}
    (henv : Env.ofProgram program catalog settings = .ok env) (hmethods : program.Unconstrained env) {file : Target.File}
    (hfile : lowerProgram program catalog settings = .ok file) : ∃ parts, file.decls = parts.flatten ∧
      List.Forall₂ (fun d emitted => d.val.Emits program emitted) program.decls parts := by
  obtain ⟨env', s, parts, s', henv', -, hparts, hdecls, -⟩ := lowerProgram_runs hfile
  cases henv.symm.trans henv'
  exact ⟨parts, hdecls, mapM_lowerDecl_emits hmethods (List.Subset.refl _) hparts⟩

namespace Lower

/-- `func (b Box[T]) conv[U comparable](f func(T) U) U = f(b.x)` -/
def comparingMethod : FuncDecl := { convMethod (boxOf (.basic "T")) with typeParams := [⟨"U", some (.basic "comparable")⟩] }

/-- `struct Box[T constraint] { x: T }` and its method. -/
def comparing (constraint : Option String) : Program where
  package := "main"
  decls := [unlocated (.struct ⟨unlocated "Box", [⟨"T", constraint.map .basic⟩], [⟨unlocated "x", .basic "T", false⟩],
      .synthetic⟩), unlocated (.func comparingMethod)]

theorem lowerProgram_comparing {constraint : Option String} (h : constraint = none ∨ constraint = some "comparable") :
    ∃ file f,
    lowerProgram (comparing constraint) .empty .standard = .ok file ∧ .func f ∈ file.decls ∧
      f.typeParams = [⟨"T", .any⟩, ⟨"U", .basic "comparable"⟩] := by
  have hfile : lowerProgram (comparing constraint) .empty .standard = .ok ⟨"main", [⟨none, "valgo/std"⟩],
      [.struct "Box" [⟨"T", (constraint.map .basic).getD .any⟩] [⟨"x", .generic (.named "std" Ty.wrapperName) [.basic "T"]⟩],
        .func ⟨"Box_conv", [⟨"T", .any⟩, ⟨"U", .basic "comparable"⟩], none,
          [⟨"b", boxOf (.basic "T")⟩, ⟨"f", .func [.basic "T"] [.basic "U"]⟩], [.basic "U"],
          [.ret1 (.apply (.ident "f") [Storage.read (.selector (.ident "b") "x")])]⟩]⟩ := by
    rcases h with rfl | rfl <;> with_unfolding_all rfl
  exact ⟨_, _, hfile, .tail _ (.head _), rfl⟩

theorem comparing_unconstrained (env : Env) : (comparing none).Unconstrained env := by
  rintro d r - - - owner ⟨span, howner⟩ hname p hp
  simp only [comparing, unlocated, List.mem_cons, Located.mk.injEq, List.not_mem_nil, or_false] at howner
  obtain ⟨rfl, -⟩ | ⟨rfl, -⟩ := howner
  · cases List.mem_singleton.mp hp
    rfl
  · cases hname

end Lower

/-- The method has a constraint, the type of its receiver has none. -/
theorem lowerProgram_constrains_box : ∃ env file parts,
    Env.ofProgram (comparing none) .empty .standard = .ok env ∧ (comparing none).Unconstrained env ∧
    lowerProgram (comparing none) .empty .standard = .ok file ∧ file.decls = parts.flatten ∧
    List.Forall₂ (fun d emitted => d.val.Emits (comparing none) emitted) (comparing none).decls parts := by
  obtain ⟨file, -, hfile, -⟩ := lowerProgram_comparing (.inl rfl)
  obtain ⟨env, -, -, -, henv, -⟩ := lowerProgram_runs hfile
  have hmethods := comparing_unconstrained env
  obtain ⟨parts, hdecls, hparts⟩ := lowerProgram_constrains henv hmethods hfile
  exact ⟨env, file, parts, henv, hmethods, hfile, hdecls, hparts⟩

/-- The function that stands for a method of `Box[T comparable]` has `T any`. -/
theorem receiverConstraint_lost : ∃ file f,
    lowerProgram (comparing (some "comparable")) .empty .standard = .ok file ∧ .func f ∈ file.decls ∧
    ⟨"T", .any⟩ ∈ f.typeParams ∧
    ¬ (Source.Decl.func comparingMethod).Constrains (comparing (some "comparable")) "T" .any := by
  obtain ⟨file, f, hfile, hf, hparams⟩ := lowerProgram_comparing (.inr rfl)
  refine ⟨file, f, hfile, hf, hparams ▸ .head _, fun h => ?_⟩
  generalize hx : "T" = x at h
  generalize ht : Ty.any = t at h
  cases h with
  | own hp =>
    cases List.mem_singleton.mp hp
    simp at hx
  | @receiver f r _ i _ hd hr hleaf hdeclared hunknown =>
    cases hd
    cases hr
    cases i with
    | zero => cases ht.trans (hdeclared _ ⟨_, .head _⟩ (.head _) _ rfl)
    | succ i => cases hleaf

end Lowering
