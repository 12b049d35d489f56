/-
  Respelled — looking things up commutes with a renaming.

  Two environments are respellings of each other when each declaration of one is that of the other with the names
  in its types exchanged, and the names that things are looked up by stay.
-/

import Lowering.Proofs.Renaming
import Lowering.Proofs.Resolved

namespace Lowering

variable {ρ : Renaming} {α β : Type}

/-! ## Unification -/

namespace Unifier

/-- Both unifications succeed, with the same bindings up to the renaming, or both fail. -/
inductive Solved (ρ : Renaming) : EStateM.Result Conflict Substitution Unit →
    EStateM.Result Conflict Substitution Unit → Prop
  | ok {s s' : Substitution} (h : s.Renamed ρ s') : Solved ρ (.ok () s) (.ok () s')
  | error (c c' : Conflict) (s s' : Substitution) : Solved ρ (.error c s) (.error c' s')

def Follows (ρ : Renaming) (x x' : Solve Unit) : Prop := ∀ s s', s.Renamed ρ s' → Solved ρ (x s) (x' s')

namespace Follows

theorem pure : Follows ρ (Pure.pure ()) (Pure.pure ()) := fun _ _ h => .ok h

theorem bind {x x' y y' : Solve Unit} (hx : Follows ρ x x') (hy : Follows ρ y y') :
    Follows ρ (x >>= fun _ => y) (x' >>= fun _ => y') := by
  intro s s' hs
  have hfirst := hx s s' hs
  simp only [Bind.bind, EStateM.bind]
  generalize x s = r at hfirst
  generalize x' s' = r' at hfirst
  cases hfirst with
  | ok h => exact hy _ _ h
  | error c c' t t' => exact .error c c' t t'

theorem meet (params : List String) (name : String) (known : Ty) :
    Follows ρ (Unifier.meet params name known) (Unifier.meet (params.map ρ.name) (ρ.name name) (known.rename ρ)) := by
  intro s s' hs
  simp only [Unifier.meet]
  rw [Ty.isAny_rename, Ty.mentions_rename, hs name]
  split
  · exact .ok hs
  · cases s.find? name with
    | none => exact .ok hs.insert
    | some first =>
      simp only [Option.map_some, Ty.beq_rename]
      split
      · exact .ok hs
      · exact .error _ _ _ _

end Follows

variable {u u' : Unifier}

theorem param?_rename (params : List String) (pattern : Ty) :
    param? (params.map ρ.name) (pattern.rename ρ) = (param? params pattern).map ρ.name := by
  unfold param?
  simp only [Ty.leafName?_rename, Option.filter_map, Function.comp_def, ρ.contains_map_name]

def renameMet (ρ : Renaming) (m : String × Ty) : String × Ty := (ρ.name m.1, m.2.rename ρ)

theorem metOr_rename {params : List String} {pattern known known' : Ty} {inside inside' : List (String × Ty)}
    (hknown : known' = known.rename ρ) (hinside : inside' = inside.map (renameMet ρ)) :
    metOr (params.map ρ.name) (pattern.rename ρ) known' inside' =
      (metOr params pattern known inside).map (renameMet ρ) := by
  unfold metOr
  rw [param?_rename, hknown, hinside]
  cases param? params pattern <;> rfl

mutual

theorem meetings_rename (params : List String) : ∀ pattern known : Ty,
    meetings (params.map ρ.name) (pattern.rename ρ) (known.rename ρ) = (meetings params pattern known).map (renameMet ρ)
  | pattern, .nil | pattern, .void => by simp only [Ty.rename, meetings, List.map_nil]
  | pattern, .any | pattern, .basic _ | pattern, .named _ _ => by
    simp only [Ty.rename, meetings]
    exact metOr_rename rfl rfl
  | pattern, .pointer elem | pattern, .array elem => by
    simp only [Ty.rename, meetings]
    refine metOr_rename rfl ?_
    cases pattern <;> first | rfl | exact meetings_rename params _ elem
  | pattern, .map key elem => by
    simp only [Ty.rename, meetings]
    refine metOr_rename rfl ?_
    cases pattern with
    | map pkey pelem =>
      rw [List.map_append, ← meetings_rename params pkey key, ← meetings_rename params pelem elem]
      rfl
    | _ => rfl
  | pattern, .func ins outs => by
    simp only [Ty.rename, meetings]
    refine metOr_rename rfl ?_
    cases pattern with
    | func pins pouts =>
      simp only [Ty.rename, Ty.renameList_eq, List.length_map, List.map_append, apply_ite (List.map (renameMet ρ)),
        List.map_nil]
      rw [meetingsOf_rename params (fun _ => rfl) pouts outs, meetingsOf_rename params (Ty.isConcrete_rename ρ) pins ins]
    | _ => rfl
  | pattern, .generic base args => by
    have hcond : ((base.rename ρ).baseName == Ty.wrapperName && !(pattern.rename ρ).isWrapper) =
        (base.baseName == Ty.wrapperName && !pattern.isWrapper) := by
      rw [Ty.baseName_rename, Ty.isWrapper_rename, Ty.beq_reserved ρ _ (.inl (by decide))]
    rw [Ty.rename, Ty.renameList_eq]
    by_cases hw : ∃ inner, (base.baseName == Ty.wrapperName && !pattern.isWrapper) = true ∧ args = [inner]
    · obtain ⟨inner, hw, hargs⟩ := hw
      match args, hargs with
      | [_], rfl =>
        rw [meetings_wrapped hw, List.map_singleton, meetings_wrapped (hcond.trans hw)]
        exact meetings_rename params pattern inner
    · have hplain : ∀ inner, (base.baseName == Ty.wrapperName && !pattern.isWrapper) = true → args ≠ [inner] :=
        fun inner h hargs => hw ⟨inner, h, hargs⟩
      rw [meetings_applied hplain, meetings_applied fun inner h hargs => ?_]
      · refine metOr_rename (by rw [Ty.rename, Ty.renameList_eq]) ?_
        rw [Ty.base_rename, Ty.baseName_rename, Ty.baseName_rename, Ty.args_rename, List.length_map, List.length_map,
          meetingsOf_rename params (fun _ => rfl) pattern.args args,
          apply_ite (List.map (renameMet ρ)), List.map_nil]
        have hbase : (ρ.name pattern.base.baseName == ρ.name base.baseName) =
            (pattern.base.baseName == base.baseName) := by
          rw [Bool.eq_iff_iff, beq_iff_eq, beq_iff_eq, ρ.name_inj]
        rw [hbase]
      · obtain ⟨a, rfl, -⟩ := List.map_eq_singleton_iff.mp hargs
        exact hplain a (hcond.symm.trans h) rfl

theorem meetingsOf_rename (params : List String) {keep : Ty → Bool} (hkeep : ∀ t : Ty, keep (t.rename ρ) = keep t) :
    ∀ patterns known : List Ty, meetingsOf (params.map ρ.name) keep (patterns.map (Ty.rename ρ)) (known.map (Ty.rename ρ)) =
      (meetingsOf params keep patterns known).map (renameMet ρ)
  | _, [] => by simp only [List.map_nil, meetingsOf]
  | [], k :: ks => by simp only [List.map_nil, meetingsOf_nil]
  | p :: ps, k :: ks => by
    rw [List.map_cons, List.map_cons, meetingsOf, meetingsOf, hkeep, List.map_append, apply_ite (List.map (renameMet ρ)),
      meetings_rename params p k, meetingsOf_rename params hkeep ps ks, List.map_nil]

end

theorem Follows.meetAll (params : List String) (ms : List (String × Ty)) :
    Follows ρ (Unifier.meetAll params ms) (Unifier.meetAll (params.map ρ.name) (ms.map (renameMet ρ))) := by
  induction ms with
  | nil => exact .pure
  | cons m ms ih => exact .bind (.meet params m.1 m.2) ih

theorem solve_follows (params : List String) (pattern known : Ty) :
    Follows ρ (solve params pattern known) (solve (params.map ρ.name) (pattern.rename ρ) (known.rename ρ)) := by
  rw [solve_eq, solve_eq, meetings_rename]
  exact .meetAll params _

/-- Two unifiers that agree up to the renaming. -/
structure Renamed (ρ : Renaming) (u u' : Unifier) : Prop where
  params : u'.params = u.params.map ρ.name
  bound : u.bound.Renamed ρ u'.bound

/-- Both are there and agree, or neither is. -/
inductive Renamed? (ρ : Renaming) : Option Unifier → Option Unifier → Prop
  | some {u u' : Unifier} (h : Renamed ρ u u') : Renamed? ρ (some u) (some u')
  | none : Renamed? ρ none none

theorem Renamed.new (params : List String) : Renamed ρ (.new params) (.new (params.map ρ.name)) := ⟨rfl, .empty⟩

theorem Renamed.unify? (h : Renamed ρ u u') (pattern known : Ty) :
    Renamed? ρ (u.unify? pattern known) (u'.unify? (pattern.rename ρ) (known.rename ρ)) := by
  have hsolve := solve_follows u.params pattern known u.bound u'.bound h.bound
  unfold Unifier.unify? Unifier.unify
  rw [h.params]
  generalize Unifier.solve u.params pattern known u.bound = r at hsolve
  generalize Unifier.solve (u.params.map ρ.name) (pattern.rename ρ) (known.rename ρ) u'.bound = r' at hsolve
  cases hsolve with
  | ok hbound => exact .some ⟨rfl, hbound⟩
  | error c c' s s' => exact .none

theorem Renamed?.bind {u u' : Option Unifier} (h : Renamed? ρ u u') {f f' : Unifier → Option Unifier}
    (hf : ∀ v v', Renamed ρ v v' → Renamed? ρ (f v) (f' v')) : Renamed? ρ (u.bind f) (u'.bind f') := by
  cases h with
  | some h => exact hf _ _ h
  | none => exact .none

theorem Renamed?.foldlM {α : Type} {f f' : Unifier → α → Option Unifier}
    (hf : ∀ v v' a, Renamed ρ v v' → Renamed? ρ (f v a) (f' v' a)) (l : List α)
    (h : Renamed ρ u u') : Renamed? ρ (l.foldlM f u) (l.foldlM f' u') := by
  induction l generalizing u u' with
  | nil => exact .some h
  | cons a l ih =>
    exact (hf u u' a h).bind fun v v' hv => ih hv

end Unifier

theorem mapM_map {γ : Type} (f : β → γ) (g : α → Option β) (l : List α) :
    l.mapM (fun a => (g a).map f) = (l.mapM g).map (List.map f) := by
  induction l with
  | nil => rfl
  | cons a l ih =>
    rw [List.mapM_cons, List.mapM_cons, ih]
    cases g a with
    | none => rfl
    | some b => cases l.mapM g <;> rfl

namespace Unifier

theorem Renamed.resolve {u u' : Unifier} (h : Renamed ρ u u') :
    u'.resolve = u.resolve.map (List.map (Ty.rename ρ)) := by
  unfold Unifier.resolve
  rw [h.params, List.mapM_map, ← mapM_map]
  congr 1
  funext p
  simp only [Function.comp_def, h.bound p, Option.filter_map, Ty.isConcrete_rename]

theorem Renamed?.resolve {u u' : Option Unifier} (h : Renamed? ρ u u') :
    u'.bind Unifier.resolve = (u.bind Unifier.resolve).map (List.map (Ty.rename ρ)) := by
  cases h with
  | some h => exact h.resolve
  | none => rfl

end Unifier

/-! ## Type arguments -/

/-- The same argument where names are exchanged: what it expects and what its type is. -/
def ArgTyping.rename (ρ : Renaming) : ArgTyping → ArgTyping
  | .plain ty => .plain fun _ => (ty ()).rename ρ
  | .lambda ty => .lambda fun expected => (ty (expected.map (Ty.rename ρ))).rename ρ
  | .caseFunction => .caseFunction

namespace Unifier

variable {u u' : Unifier}

theorem Renamed.unifyPlain (h : Renamed ρ u u') (pair : Ty × ArgTyping) :
    Renamed? ρ (u.unifyPlain pair) (u'.unifyPlain (pair.1.rename ρ, pair.2.rename ρ)) := by
  obtain ⟨param, typing⟩ := pair
  cases typing with
  | plain ty => exact h.unify? param (ty ())
  | lambda ty | caseFunction => exact .some h

theorem Renamed.expectedParams (h : Renamed ρ u u') (param : Ty) :
    u'.expectedParams (param.rename ρ) = (u.expectedParams param).map (Ty.rename ρ) := by
  unfold Unifier.expectedParams Unifier.apply
  rw [Ty.subst_rename h.bound]
  cases param.subst u.bound with
  | func params results => exact Ty.renameList_eq ρ params
  | _ => rfl

theorem Renamed.unifyLambda (h : Renamed ρ u u') (pair : Ty × ArgTyping) :
    Renamed? ρ (u.unifyLambda pair) (u'.unifyLambda (pair.1.rename ρ, pair.2.rename ρ)) := by
  obtain ⟨param, typing⟩ := pair
  cases typing with
  | plain ty | caseFunction => exact .some h
  | lambda ty =>
    have hu := h.unify? param (ty (u.expectedParams param))
    rw [unifyLambda_lambda, ArgTyping.rename, unifyLambda_lambda, h.expectedParams, Ty.map_rename_rename]
    exact hu

theorem Renamed.unifyResult (h : Renamed ρ u u') (expected : Option (Ty × Ty)) :
    Renamed? ρ (u.unifyResult expected) (u'.unifyResult (expected.map fun w => (w.1.rename ρ, w.2.rename ρ))) := by
  cases expected with
  | none => exact .some h
  | some w =>
    obtain ⟨declared, wanted⟩ := w
    simp only [Unifier.unifyResult, Option.map_some, h.resolve, Option.isNone_map, Ty.isAny_rename]
    split
    · exact h.unify? declared wanted
    · exact .some h

end Unifier

theorem resolveTypeArgs_rename {typeParams : List String} {params : List Ty} {args : List (Option ArgTyping)}
    {explicit : List Ty} (expected : Option (Ty × Ty)) :
    resolveTypeArgs (typeParams.map ρ.name) (params.map (Ty.rename ρ)) (args.map (Option.map (ArgTyping.rename ρ)))
        (explicit.map (Ty.rename ρ)) (expected.map fun w => (w.1.rename ρ, w.2.rename ρ)) =
      (resolveTypeArgs typeParams params args explicit expected).map (List.map (Ty.rename ρ)) := by
  unfold resolveTypeArgs
  rw [List.isEmpty_map, List.length_map, List.length_map]
  split
  · rfl
  · split
    · rfl
    · have hpairs : ((params.map (Ty.rename ρ)).zip (args.map (Option.map (ArgTyping.rename ρ)))).filterMap
          (fun p => p.2.map (p.1, ·)) =
          ((params.zip args).filterMap fun p => p.2.map (p.1, ·)).map fun p => (p.1.rename ρ, p.2.rename ρ) := by
        rw [List.zip_map, List.filterMap_map, List.map_filterMap]
        congr 1
        funext p
        obtain ⟨param, arg⟩ := p
        cases arg <;> rfl
      simp only [hpairs, List.foldlM_map]
      generalize (params.zip args).filterMap (fun p => p.2.map (p.1, ·)) = pairs
      have hnew : Unifier.Renamed ρ (.new typeParams) (.new (typeParams.map ρ.name)) := .new typeParams
      have hplain := Unifier.Renamed?.foldlM (fun v v' p hv => Unifier.Renamed.unifyPlain hv p) pairs hnew
      have hlambda := hplain.bind fun v v' hv =>
        Unifier.Renamed?.foldlM (fun v v' p hv => Unifier.Renamed.unifyLambda hv p) pairs hv
      have hresult := hlambda.bind fun v v' hv => hv.unifyResult expected
      simpa only [Option.bind_assoc, Option.bind_eq_bind] using hresult.resolve

/-! ## Entries -/

def Method.rename (ρ : Renaming) (m : Method) : Method :=
  { m with params := m.params.map (Ty.rename ρ), result := m.result.rename ρ, typeParams := m.typeParams.map ρ.name }

def FunctionEntry.rename (ρ : Renaming) (f : FunctionEntry) : FunctionEntry :=
  { f with params := f.params.map (Ty.rename ρ), result := f.result.rename ρ, typeParams := f.typeParams.map ρ.name }

def TypeEntry.rename (ρ : Renaming) (e : TypeEntry) : TypeEntry :=
  { e with
    fieldTypes := e.fieldTypes.map (Ty.rename ρ)
    typeParams := e.typeParams.map ρ.name
    methods := e.methods.map (Method.rename ρ) }

def FieldInfo.rename (ρ : Renaming) (info : FieldInfo) : FieldInfo := { info with ty := info.ty.rename ρ }

theorem Table.find?_map (f : α → β) (t : Table α) (key : String) : (t.map f).find? key = (t.find? key).map f := by
  have hlookup : ∀ l : List (String × α), (l.map fun p => (p.1, f p.2)).lookup key = (l.lookup key).map f := by
    intro l
    induction l with
    | nil => rfl
    | cons entry l ih =>
      obtain ⟨k, v⟩ := entry
      simp only [List.map_cons, List.lookup_cons, ih]
      cases key == k <;> rfl
  exact hlookup t.entries

@[simp] theorem TypeEntry.typeParams_rename (e : TypeEntry) : (e.rename ρ).typeParams = e.typeParams.map ρ.name := rfl

theorem TypeEntry.method?_rename {e : TypeEntry} (name : String) :
    (e.rename ρ).method? name = (e.method? name).map (Method.rename ρ) :=
  Table.find?_map _ _ _

theorem Method.subst_rename {s s' : Substitution} (h : s.Renamed ρ s') (m : Method) :
    (m.rename ρ).subst s' = (m.subst s).rename ρ := by
  unfold Method.subst Method.rename
  simp only [List.map_map, Function.comp_def, Ty.subst_rename h]

/-! ## Environments -/

/-- The second environment has the declarations of the first with the names in their types
    exchanged. Names that something is looked up by stay, and so do aliases. -/
structure Env.Respelled (ρ : Renaming) (env env' : Env) : Prop where
  settings : env'.settings = env.settings
  imports : env'.catalog.imports = env.catalog.imports
  types : ∀ name, env'.type? name = (env.type? name).map (TypeEntry.rename ρ)
  functions : ∀ name, env'.function? name = (env.function? name).map (FunctionEntry.rename ρ)
  companions : ∀ name, env'.companion? name = env.companion? name
  aliases : env'.index.aliases = env.index.aliases
  runtime_stays : ρ.name env.runtime = env.runtime
  type_stays : ∀ name e, env.type? name = some e → ρ.name name = name ∧ (env.typeRef e).rename ρ = env.typeRef e
  target_stays : ∀ name c, env.companion? name = some c → ρ.name (Text.bareName c.target) = Text.bareName c.target
  alias_stays : ∀ name a, env.index.aliases.find? name = some a →
    ρ.name name = name ∧ a.typeParams.map ρ.name = a.typeParams ∧ a.target.rename ρ = a.target

theorem Renaming.lookup_name (ρ : Renaming) {look : String → Option α}
    (hstays : ∀ name a, look name = some a → ρ.name name = name) (name : String) : look (ρ.name name) = look name := by
  cases hname : look name with
  | some a => rw [hstays name a hname, hname]
  | none =>
    cases hother : look (ρ.name name) with
    | none => rfl
    | some a =>
      have hsame := hstays _ a hother
      rw [ρ.name_name] at hsame
      rw [← hsame, hname] at hother
      cases hother

namespace Env.Respelled

variable {env env' : Env} (h : env.Respelled ρ env')
include h

theorem runtime : env'.runtime = env.runtime := congrArg Settings.runtimePackage h.settings

theorem qualifier (package : String) : env'.qualifier package = env.qualifier package := by
  unfold Env.qualifier
  rw [h.runtime, h.imports]

theorem isPackage : env'.isPackage name = env.isPackage name := by
  unfold Env.isPackage
  rw [h.runtime, h.imports]

theorem typeRef : env'.typeRef (e.rename ρ) = env.typeRef e :=
  congrArg (Ty.named · e.name) (h.qualifier e.package)

theorem tupleType (elems : List Ty) : env'.tupleType (elems.map (Ty.rename ρ)) = (env.tupleType elems).rename ρ := by
  unfold Env.tupleType
  rw [h.runtime, Ty.tuple_rename ρ h.runtime_stays]

theorem type?_name : env.type? (ρ.name name) = env.type? name :=
  ρ.lookup_name (fun _ e he => (h.type_stays _ e he).1) name

theorem entry? : env'.entry? (t.rename ρ) = (env.entry? t).map (TypeEntry.rename ρ) := by
  fun_induction Env.entry? env t with
  | case1 elem ih | case2 base params ih => exact ih
  | case3 name =>
    rw [Ty.rename, Env.entry?, h.types, h.type?_name]
  | case4 package name =>
    have hqualify : Text.qualify (ρ.name package) (ρ.name name) = ρ.name (Text.qualify package name) :=
      Ty.render_rename ρ (.named package name)
    rw [Ty.rename, Env.entry?, hqualify, h.types, h.type?_name]
  | case5 t h1 h2 h3 h4 =>
    cases t with
    | pointer elem => exact absurd rfl (h1 elem)
    | generic base params => exact absurd rfl (h2 base params)
    | basic name => exact absurd rfl (h3 name)
    | named package name => exact absurd rfl (h4 package name)
    | _ => rfl

omit h in
theorem receiverSubst {receiver : Ty} :
    (Env.receiverSubst e receiver).Renamed ρ (Env.receiverSubst (e.rename ρ) (receiver.rename ρ)) := by
  have hargs : ∀ t : Ty, (Substitution.ofParams e.typeParams t.args).Renamed ρ
      (.ofParams (e.typeParams.map ρ.name) (t.rename ρ).args) := by
    intro t
    rw [Ty.args_rename]
    exact Substitution.renamed_ofParams
  cases receiver with
  | pointer elem => exact hargs elem
  | _ => exact hargs _

theorem field? : env'.field? (receiver.rename ρ) name = (env.field? receiver name).map (FieldInfo.rename ρ) := by
  unfold Env.field?
  rw [h.entry?]
  cases env.entry? receiver with
  | none => rfl
  | some e =>
    have hindex : (e.rename ρ).fieldIndex? name = e.fieldIndex? name := rfl
    simp only [Option.map_some, Option.bind_eq_bind, Option.bind_some, hindex]
    cases e.fieldIndex? name with
    | none => rfl
    | some i =>
      have htypes : (e.rename ρ).fieldTypes[i]? = (e.fieldTypes[i]?).map (Ty.rename ρ) := List.getElem?_map
      simp only [Option.bind_some, htypes]
      cases e.fieldTypes[i]? with
      | none => rfl
      | some declared =>
        simp only [Option.map_some, Option.bind_some, Ty.unwrap_rename, Ty.isWrapper_rename,
          Ty.subst_rename receiverSubst]
        rfl

theorem method? (receiver : Ty) (name : String) :
    env'.method? (receiver.rename ρ) name = (env.method? receiver name).map fun p => (p.1.rename ρ, p.2.rename ρ) := by
  unfold Env.method?
  rw [h.entry?]
  cases env.entry? receiver with
  | none => rfl
  | some e =>
    simp only [Option.map_some, Option.bind_eq_bind, Option.bind_some, TypeEntry.method?_rename]
    cases e.method? name <;> rfl

theorem methodSignature? :
    env'.methodSignature? (receiver.rename ρ) name = (env.methodSignature? receiver name).map (Method.rename ρ) := by
  unfold Env.methodSignature?
  rw [h.method?]
  cases env.method? receiver name with
  | none => rfl
  | some p => exact congrArg some (Method.subst_rename receiverSubst p.2)

/-! ## Aliases -/

theorem expandOnce (t : Ty) : env'.expandOnce (t.rename ρ) = (env.expandOnce t).map (Ty.rename ρ) := by
  unfold Env.expandOnce
  rw [Ty.base_rename, Ty.leafName?_rename, h.aliases]
  cases t.base.leafName? with
  | none => rfl
  | some name =>
    have hfind : env.index.aliases.find? (ρ.name name) = env.index.aliases.find? name :=
      ρ.lookup_name (fun _ a ha => (h.alias_stays _ a ha).1) name
    simp only [Option.map_some, Option.bind_eq_bind, Option.bind_some, hfind]
    cases hname : env.index.aliases.find? name with
    | none => rfl
    | some a =>
      obtain ⟨-, hparams, htarget⟩ := h.alias_stays name a hname
      have hsubst : (a.target.rename ρ).subst (.ofParams (a.typeParams.map ρ.name) (t.args.map (Ty.rename ρ))) =
          (a.target.subst (.ofParams a.typeParams t.args)).rename ρ :=
        Ty.subst_rename Substitution.renamed_ofParams _
      rw [htarget, hparams] at hsubst
      rw [Ty.args_rename]
      exact congrArg some hsubst

theorem expand : env'.expand (t.rename ρ) = (env.expand t).rename ρ := Env.expand_map h.expandOnce

end Env.Respelled

/-! ## Members and callees -/

theorem functionType_rename (params : List Ty) {result : Ty} {typeParams : List String} :
    functionType (params.map (Ty.rename ρ)) (result.rename ρ) (typeParams.map ρ.name) =
      (functionType params result typeParams).rename ρ := by
  unfold functionType
  rw [List.isEmpty_map]
  split
  · rw [Ty.rename, Ty.renameList_eq, Ty.renameList_eq, Ty.results_rename]
  · rfl

theorem genericResult_rename (typeParams : List String) (params : List Ty) (result : Ty)
    (args : List (Option ArgTyping)) (explicit : List Ty) (expected : Option Ty) :
    genericResult (typeParams.map ρ.name) (params.map (Ty.rename ρ)) (result.rename ρ)
        (args.map (Option.map (ArgTyping.rename ρ))) (explicit.map (Ty.rename ρ)) (expected.map (Ty.rename ρ)) =
      (genericResult typeParams params result args explicit expected).rename ρ := by
  have hexpected : (expected.map (Ty.rename ρ)).map (result.rename ρ, ·) =
      (expected.map (result, ·)).map fun w => (w.1.rename ρ, w.2.rename ρ) := by
    cases expected <;> rfl
  unfold genericResult
  rw [hexpected, resolveTypeArgs_rename]
  cases resolveTypeArgs typeParams params args explicit (expected.map (result, ·)) with
  | none => rfl
  | some typeArgs => exact Ty.subst_rename Substitution.renamed_ofParams _

theorem byPosition_map {f : α → β} (args : List (NamedArg α)) :
    byPosition (args.map fun a => (a.1, f a.2)) = (byPosition args).map (Option.map f) := by
  simp [byPosition]

def Callee.rename (ρ : Renaming) : Callee → Callee
  | .function f => .function (f.rename ρ)
  | .constructor e => .constructor (e.rename ρ)
  | .companion e => .companion (e.rename ρ)
  | .method receiver owner name signature =>
    .method (receiver.rename ρ) (owner.rename ρ) name (signature.rename ρ)
  | .copy receiver owner => .copy (receiver.rename ρ) (owner.rename ρ)
  | .conversion ty => .conversion (ty.rename ρ)
  | .value ty => .value (ty.rename ρ)
  | .unknown => .unknown

namespace Env.Respelled

variable {env env' : Env} (h : env.Respelled ρ env')
include h

variable {e : TypeEntry}

theorem namedFunctionType : Lowering.namedFunctionType env' name = (Lowering.namedFunctionType env name).rename ρ := by
  unfold Lowering.namedFunctionType
  rw [h.functions]
  cases env.function? name with
  | none => rfl
  | some f => exact functionType_rename f.params

theorem memberType :
    Lowering.memberType env' (receiver.rename ρ) member = (Lowering.memberType env receiver member).rename ρ := by
  unfold Lowering.memberType
  rw [h.field?, h.methodSignature?]
  cases env.field? receiver member with
  | some field => rfl
  | none =>
    cases env.methodSignature? receiver member with
    | none => rfl
    | some m => exact functionType_rename m.params

theorem namedCallee : Lowering.namedCallee env' name = (Lowering.namedCallee env name).rename ρ := by
  unfold Lowering.namedCallee
  rw [h.functions, h.types]
  cases env.function? name with
  | some f => rfl
  | none =>
    cases env.type? name with
    | none =>
      simp only [Option.map_none]
      split
      · rename_i hbuiltin
        have hmem : name ∈ Ty.builtinNames := List.contains_iff_mem.mp hbuiltin
        rw [Callee.rename, Ty.builtin_rename ρ hmem]
      · rfl
    | some e =>
      have hkind : (e.rename ρ).kind = e.kind := rfl
      simp only [Option.map_some, hkind]
      cases e.kind <;> rfl

theorem fieldCallee {receiver : Ty} {member : String} :
    Lowering.fieldCallee env' (receiver.rename ρ) member = (Lowering.fieldCallee env receiver member).rename ρ := by
  unfold Lowering.fieldCallee
  rw [h.field?]
  cases env.field? receiver member with
  | none => rfl
  | some field =>
    simp only [Option.map_some, FieldInfo.rename, Ty.isFunc_rename]
    split <;> rfl

theorem memberCallee :
    Lowering.memberCallee env' (receiver.rename ρ) member = (Lowering.memberCallee env receiver member).rename ρ := by
  unfold Lowering.memberCallee
  rw [h.method?, h.entry?]
  cases env.method? receiver member with
  | some p =>
    simp only [Option.map_some, Method.subst_rename receiverSubst]
    rfl
  | none =>
    cases env.entry? receiver with
    | none => exact h.fieldCallee
    | some e =>
      have hkind : (e.rename ρ).kind = e.kind := rfl
      simp only [Option.map_some, Option.filter_some, hkind]
      cases member == "Copy" && e.kind == .struct with
      | true => rfl
      | false => exact h.fieldCallee

theorem selfType (he : (env.typeRef e).rename ρ = env.typeRef e) :
    (e.rename ρ).selfType (env'.qualifier (e.rename ρ).package) = (e.selfType (env.qualifier e.package)).rename ρ := by
  have hbase : (Ty.named (env.qualifier e.package) e.name).rename ρ = .named (env.qualifier e.package) e.name := he
  have hparams : (e.rename ρ).typeParams.map Ty.basic = (e.typeParams.map Ty.basic).map (Ty.rename ρ) := by
    rw [List.map_map]
    exact List.map_map
  unfold TypeEntry.selfType
  rw [Ty.apply_rename, hbase, hparams, h.qualifier]
  rfl

theorem constructedType (he : (env.typeRef e).rename ρ = env.typeRef e) {args : List (NamedArg ArgTyping)}
    {explicit : List Ty} {expected : Option Ty} {span : Span} :
    Lowering.constructedType env' (e.rename ρ) (args.map fun a => (a.1, a.2.rename ρ)) (explicit.map (Ty.rename ρ))
        (expected.map (Ty.rename ρ)) span =
      (Lowering.constructedType env e args explicit expected span).rename ρ := by
  have hexpected : (expected.map (Ty.rename ρ)).map ((e.rename ρ).selfType (env'.qualifier (e.rename ρ).package), ·) =
      (expected.map (e.selfType (env.qualifier e.package), ·)).map fun w => (w.1.rename ρ, w.2.rename ρ) := by
    rw [h.selfType he]
    cases expected <;> rfl
  have hfields : (e.rename ρ).fields = e.fields := rfl
  have hfinish : ∀ slots : List (Option ArgTyping),
      resolveTypeArgs (e.rename ρ).typeParams (e.rename ρ).fieldTypes (slots.map (Option.map (ArgTyping.rename ρ)))
        (explicit.map (Ty.rename ρ))
        ((expected.map (Ty.rename ρ)).map ((e.rename ρ).selfType (env'.qualifier (e.rename ρ).package), ·)) =
      (resolveTypeArgs e.typeParams e.fieldTypes slots explicit
        (expected.map (e.selfType (env.qualifier e.package), ·))).map (List.map (Ty.rename ρ)) := by
    intro slots
    rw [hexpected]
    exact resolveTypeArgs_rename _
  unfold Lowering.constructedType
  rw [hfields, arrange_map]
  rcases arrange e.fields args span with _ | slots
  all_goals
    simp only [Except.map, byPosition_map, hfinish]
    generalize resolveTypeArgs e.typeParams _ _ _ _ = found
    cases found with
    | none => rfl
    | some typeArgs =>
      simp only [Option.map_some]
      rw [Ty.apply_rename, he, h.typeRef]

theorem callResult {callee : Callee} (hcallee : ∀ e, callee = .constructor e → (env.typeRef e).rename ρ = env.typeRef e)
    (explicit : List Ty) (args : List (NamedArg ArgTyping)) (expected : Option Ty) (span : Span) :
    Lowering.callResult env' (callee.rename ρ) (explicit.map (Ty.rename ρ)) (args.map fun a => (a.1, a.2.rename ρ))
        (expected.map (Ty.rename ρ)) span =
      (Lowering.callResult env callee explicit args expected span).rename ρ := by
  cases callee with
  | function | method =>
    simp only [Callee.rename, Lowering.callResult, byPosition_map]
    exact genericResult_rename _ _ _ _ _ _
  | constructor e => exact h.constructedType (hcallee e rfl)
  | companion e =>
    simp only [Callee.rename, Lowering.callResult, byPosition_map, TypeEntry.method?_rename]
    cases e.method? "Apply" with
    | none => rfl
    | some m => exact genericResult_rename _ _ _ _ _ _
  | copy | conversion | unknown => rfl
  | value ty =>
    cases ty with
    | func params results => cases results <;> rfl
    | _ => rfl

end Env.Respelled

end Lowering
