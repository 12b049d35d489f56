/-
  Spelling — inference does not depend on how type parameters are spelled.

  - `Env.Respelled.typeOf`: where the names in all declarations are exchanged, an expression has its
    type with the names exchanged.
-/

import Lowering.Proofs.Bindings
import Lowering.Proofs.Inferred
import Lowering.Proofs.Respelled

namespace Lowering

open Source (Expr Stmt Pattern Arg Clause)

variable {ρ : Renaming}

/-! ## Extractors -/

/-- The second computation gives the image of what the first one gives, or both fail. -/
inductive Checked.Maps {α β : Type} (f : α → β) : Checked α → Checked β → Prop
  | ok (a : α) : Maps f (.ok a) (.ok (f a))
  | error (d d' : Diagnostic) : Maps f (.error d) (.error d')

namespace Checked.Maps

variable {α β γ δ : Type} {f : α → β} {g : γ → δ}

variable {x : Checked α} {x' : Checked β} {c : Prop}

theorem bind {k : α → Checked γ} {k' : β → Checked δ} (hx : Maps f x x') (hk : ∀ a, Maps g (k a) (k' (f a))) :
    Maps g (x >>= k) (x' >>= k') := by
  cases hx with
  | ok a => exact hk a
  | error d d' => exact .error d d'

theorem raise (fault fault' : Fault) (span : Span) : Maps f (fault.raise span) (fault'.raise span) := .error _ _

theorem ite [Decidable c] {y : Checked α} {y' : Checked β} (hx : Maps f x x') (hy : Maps f y y') :
    Maps f (if c then x else y) (if c then x' else y') := by
  split
  · exact hx
  · exact hy

theorem guard [Decidable c] {fault fault' : Fault} {span : Span} {k : PUnit → Checked α} {k' : PUnit → Checked β}
    (hk : Maps f (k ⟨⟩) (k' ⟨⟩)) :
    Maps f (if c then fault.raise span >>= k else k ⟨⟩) (if c then fault'.raise span >>= k' else k' ⟨⟩) := by
  split
  · exact .error _ _
  · exact hk

theorem same (x : Checked α) : Maps id x x := by
  cases x with
  | ok a => exact .ok a
  | error d => exact .error d d

theorem mapM {ι : Type} {k : ι → Checked α} {k' : ι → Checked β} (hk : ∀ i, Maps f (k i) (k' i)) (l : List ι) :
    Maps (List.map f) (l.mapM k) (l.mapM k') := by
  induction l with
  | nil => exact .ok []
  | cons i l ih =>
    rw [List.mapM_cons, List.mapM_cons]
    exact (hk i).bind fun a => ih.bind fun as => .ok (a :: as)

end Checked.Maps

namespace Match

def UnapplyShape.rename (ρ : Renaming) : UnapplyShape → UnapplyShape
  | .bool => .bool
  | .option payload expand => .option (payload.rename ρ) (expand.map (List.map (Ty.rename ρ)))

def FieldRead.rename (ρ : Renaming) (f : FieldRead) : FieldRead := { f with ty := f.ty.rename ρ }

def Extraction.rename (ρ : Renaming) : Extraction → Extraction
  | .unapply companion param shape => .unapply (companion.rename ρ) (param.rename ρ) (shape.rename ρ)
  | .structural head fields downcast => .structural (head.rename ρ) (fields.map (FieldRead.rename ρ)) downcast
  | .sequence seq elem rest => .sequence (seq.rename ρ) (elem.rename ρ) rest
  | .reflective head => .reflective (head.rename ρ)

def Site.rename (ρ : Renaming) (site : Site) : Site := { site with subject := site.subject.rename ρ }

@[simp] theorem Site.subject_rename (site : Site) : (site.rename ρ).subject = site.subject.rename ρ := rfl

@[simp] theorem Site.head_rename (site : Site) : (site.rename ρ).head = site.head := rfl

theorem Site.explicitArgs?_rename {site : Site} (hsite : ∀ t ∈ site.call.typeArgs, t.rename ρ = t)
    (params : List String) :
    (site.rename ρ).explicitArgs? (params.map ρ.name) = (site.explicitArgs? params).map (List.map (Ty.rename ρ)) := by
  have hargs : site.call.typeArgs.map (Ty.rename ρ) = site.call.typeArgs :=
    (List.map_congr_left hsite).trans (List.map_id _)
  unfold Site.explicitArgs? Site.rename
  simp only [List.length_map]
  split
  · rw [Option.map_some, hargs]
  · rfl

theorem unapplyShape_maps {site : Site} (result : Ty) :
    Checked.Maps (UnapplyShape.rename ρ) (unapplyShape site result) (unapplyShape (site.rename ρ) (result.rename ρ)) := by
  have harity : (site.rename ρ).arity = site.arity := rfl
  have hpayload : (result.rename ρ).args.headD .any = (result.args.headD .any).rename ρ := by
    rw [Ty.args_rename]
    cases result.args <;> rfl
  unfold unapplyShape
  simp only [Ty.isBool_rename, harity, hpayload, Ty.tupleArity?_rename]
  refine .ite (.ite (.ok _) (.raise _ _ _)) (.ite (.ok _) (.ite ?_ (.raise _ _ _)))
  rw [Ty.args_rename]
  exact .ok _

end Match

namespace Env.Respelled

open Match (Site)

variable {env env' : Env} (h : env.Respelled ρ env')
include h

variable {e : TypeEntry}

theorem typeRef_apply (he : (env.typeRef e).rename ρ = env.typeRef e) (args : List Ty) :
    (env'.typeRef (e.rename ρ)).apply (args.map (Ty.rename ρ)) = ((env.typeRef e).apply args).rename ρ := by
  rw [h.typeRef, Ty.apply_rename, he]

theorem companionArgs? (head : String) : Match.companionArgs? env' (e.rename ρ) head (subject.rename ρ) =
      (Match.companionArgs? env e head subject).map (List.map (Ty.rename ρ)) := by
  unfold Match.companionArgs?
  rw [h.companions]
  cases hcompanion : env.companion? head with
  | none => rfl
  | some c =>
    have htarget : (ρ.name subject.baseName == Text.bareName c.target) = (subject.baseName == Text.bareName c.target) := by
      rw [Bool.eq_iff_iff, beq_iff_eq, beq_iff_eq]
      exact ρ.name_eq_iff (h.target_stays head c hcompanion)
    simp only [Option.bind_eq_bind, Option.bind_some, Ty.baseName_rename, htarget, TypeEntry.typeParams_rename,
      List.length_map]
    split
    · rw [← mapM_map]
      simp only [Ty.args_rename, List.getElem?_map, Option.filter_map, Function.comp_def, Ty.isConcrete_rename]
    · rfl

omit h in
theorem unifiedArgs? {unapply : Method} : Match.unifiedArgs? (e.rename ρ) (unapply.rename ρ) (subject.rename ρ) =
      (Match.unifiedArgs? e unapply subject).map (List.map (Ty.rename ρ)) := by
  have hhead : (unapply.rename ρ).params.head? = unapply.params.head?.map (Ty.rename ρ) := List.head?_map
  unfold Match.unifiedArgs?
  rw [hhead]
  cases unapply.params.head? with
  | none => rfl
  | some param => exact ((Unifier.Renamed.new _).unify? _ _).resolve

variable {site : Site} (hsite : ∀ t ∈ site.call.typeArgs, t.rename ρ = t)
include hsite

theorem extractorArgs (e : TypeEntry) (unapply : Method) :
    Checked.Maps (List.map (Ty.rename ρ)) (Match.extractorArgs env e unapply site)
      (Match.extractorArgs env' (e.rename ρ) (unapply.rename ρ) (site.rename ρ)) := by
  unfold Match.extractorArgs
  simp only [Site.subject_rename, Site.head_rename, TypeEntry.typeParams_rename, List.isEmpty_map, h.expand, h.companionArgs?, unifiedArgs?,
    Site.explicitArgs?_rename hsite]
  refine .ite (.ok []) ?_
  cases site.explicitArgs? e.typeParams with
  | some args => exact .ok args
  | none =>
    cases Match.companionArgs? env e site.head (env.expand site.subject) with
    | some args => exact .ok args
    | none =>
      cases Match.unifiedArgs? e unapply (env.expand site.subject) with
      | some args => exact .ok args
      | none => exact .raise _ _ _

variable (he : (env.typeRef e).rename ρ = env.typeRef e)
include he

theorem directUnapply (unapply : Method) :
    Checked.Maps (Match.Extraction.rename ρ) (Match.directUnapply env e unapply site)
      (Match.directUnapply env' (e.rename ρ) (unapply.rename ρ) (site.rename ρ)) := by
  refine (h.extractorArgs hsite e unapply).bind fun args => .guard ?_
  have hsubst : (Substitution.ofParams e.typeParams args).Renamed ρ
      (.ofParams (e.rename ρ).typeParams (args.map (Ty.rename ρ))) := Substitution.renamed_ofParams
  have hresult : (unapply.rename ρ).result.subst (.ofParams (e.rename ρ).typeParams (args.map (Ty.rename ρ))) =
      (unapply.result.subst (.ofParams e.typeParams args)).rename ρ := Ty.subst_rename hsubst _
  have hparam : ((unapply.rename ρ).params.head?.map fun t =>
        t.subst (.ofParams (e.rename ρ).typeParams (args.map (Ty.rename ρ)))).getD Ty.any =
      ((unapply.params.head?.map fun t => t.subst (.ofParams e.typeParams args)).getD Ty.any).rename ρ := by
    have hhead : (unapply.rename ρ).params.head? = unapply.params.head?.map (Ty.rename ρ) := List.head?_map
    rw [hhead]
    cases unapply.params.head? with
    | none => rfl
    | some param => exact Ty.subst_rename hsubst param
  rw [hresult, hparam, h.typeRef_apply he]
  exact (Match.unapplyShape_maps _).bind fun shape => .ok _

theorem reflectiveUnapply :
    Checked.Maps (Match.Extraction.rename ρ) (Match.reflectiveUnapply env e site)
      (Match.reflectiveUnapply env' (e.rename ρ) (site.rename ρ)) := by
  have hfinish : ∀ args : List Ty, Checked.Maps (Match.Extraction.rename ρ)
      (.ok (.reflective ((env.typeRef e).apply args)))
      (.ok (.reflective ((env'.typeRef (e.rename ρ)).apply (args.map (Ty.rename ρ))))) := by
    intro args
    rw [h.typeRef_apply he]
    exact .ok _
  unfold Match.reflectiveUnapply
  refine .guard ?_
  simp only [TypeEntry.typeParams_rename, List.isEmpty_map, Site.explicitArgs?_rename hsite]
  refine .ite (hfinish []) ?_
  cases site.explicitArgs? e.typeParams with
  | some args => exact hfinish args
  | none => exact .error _ _

theorem instantiateHead :
    Checked.Maps (fun p => (p.1.rename ρ, p.2)) (Match.instantiateHead env e site)
      (Match.instantiateHead env' (e.rename ρ) (site.rename ρ)) := by
  have hany : ∀ test : TypeEntry → Bool, (∀ k, test (k.rename ρ) = test k) → ∀ known : Option TypeEntry,
      (known.map (TypeEntry.rename ρ)).any test = known.any test := by
    intro test htest known
    cases known with
    | none => rfl
    | some k => exact htest k
  have hhead : ∀ args : List Ty, Checked.Maps (fun p : Ty × Bool => (p.1.rename ρ, p.2))
      (.ok ((env.typeRef e).apply args, true))
      (.ok ((env'.typeRef (e.rename ρ)).apply (args.map (Ty.rename ρ)), true)) := by
    intro args
    rw [h.typeRef_apply he]
    exact .ok ((env.typeRef e).apply args, true)
  unfold Match.instantiateHead
  simp only [Site.subject_rename, TypeEntry.typeParams_rename, List.isEmpty_map, h.expand, h.entry?, Ty.isAny_rename, Ty.isNil_rename,
    Site.explicitArgs?_rename hsite]
  rw [hany (fun k => k.name == (e.rename ρ).name && k.package == (e.rename ρ).package) (fun _ => rfl),
    hany (fun k => k.kind == .interface) (fun _ => rfl)]
  refine .ite (.ok _) (.ite (.ite (hhead []) ?_) (.raise _ _ _))
  cases site.explicitArgs? e.typeParams with
  | some args => exact hhead args
  | none => exact .raise _ _ _

theorem structuralMatch :
    Checked.Maps (Match.Extraction.rename ρ) (Match.structuralMatch env e site)
      (Match.structuralMatch env' (e.rename ρ) (site.rename ρ)) := by
  unfold Match.structuralMatch
  refine .guard ((h.instantiateHead hsite he).bind fun p => ?_)
  obtain ⟨head, downcast⟩ := p
  refine Checked.Maps.bind (f := List.map (Match.FieldRead.rename ρ)) (.mapM (fun name => ?_) _) fun fields => .ok _
  simp only [h.field?]
  cases env.field? head name with
  | none => exact .raise _ _ _
  | some info => exact .ok _

theorem sequenceMatch :
    Checked.Maps (Match.Extraction.rename ρ) (Match.sequenceMatch env e site)
      (Match.sequenceMatch env' (e.rename ρ) (site.rename ρ)) := by
  refine (Checked.Maps.same (Match.restPosition site)).bind fun rest =>
    (h.instantiateHead hsite he).bind fun p => .guard ?_
  obtain ⟨seq, downcast⟩ := p
  have helem : ((env'.methodSignature? (seq.rename ρ) "Get").map (·.result)).getD Ty.any =
      (((env.methodSignature? seq "Get").map (·.result)).getD Ty.any).rename ρ := by
    rw [h.methodSignature?]
    cases env.methodSignature? seq "Get" <;> rfl
  simp only [helem]
  exact .ok (Match.Extraction.sequence seq (((env.methodSignature? seq "Get").map (·.result)).getD .any) rest)

omit h he hsite

theorem isSequence : Match.isSequence (e.rename ρ) = Match.isSequence e := by
  unfold Match.isSequence
  simp only [TypeEntry.method?_rename, Option.isSome_map]

theorem isDirect (m : Method) : Match.isDirect (m.rename ρ) = Match.isDirect m := by
  unfold Match.isDirect Method.rename
  simp only [List.length_map, Ty.isBool_rename, Ty.isOption_rename]

include h hsite

theorem resolve :
    Checked.Maps (Match.Extraction.rename ρ) (Match.resolve env site) (Match.resolve env' (site.rename ρ)) := by
  unfold Match.resolve
  simp only [Site.head_rename, h.types]
  cases htype : env.type? site.head with
  | none => exact .raise _ _ _
  | some e =>
    have he := (h.type_stays _ e htype).2
    have hkind : (e.rename ρ).kind = e.kind := rfl
    have hfields : (e.rename ρ).fields = e.fields := rfl
    have hrest : (site.rename ρ).hasRest = site.hasRest := rfl
    simp only [Option.map_some, TypeEntry.method?_rename, hkind, hfields, hrest, isSequence, h.settings]
    cases e.method? "Unapply" with
    | some unapply =>
      simp only [Option.map_some, isDirect]
      exact .ite (h.directUnapply hsite he unapply) (.ite (h.reflectiveUnapply hsite he) (.raise _ _ _))
    | none =>
      exact .ite (h.structuralMatch hsite he) (.ite (h.sequenceMatch hsite he) (.ite (.raise _ _ _) (.raise _ _ _)))

end Env.Respelled

/-! ## Patterns -/

namespace Match

def renameBindings (ρ : Renaming) (bindings : List (String × Ty)) : List (String × Ty) :=
  bindings.map fun b => (b.1, b.2.rename ρ)

def Spot.rename (ρ : Renaming) : Spot → Spot
  | .value ty => .value (ty.rename ρ)
  | .suffix ty => .suffix (ty.rename ρ)

theorem Extraction.spots_rename (arity : Nat) (x : Extraction) :
    (x.rename ρ).spots arity = (x.spots arity).map (Spot.rename ρ) := by
  cases x with
  | unapply companion param shape =>
    cases shape with
    | bool => rfl
    | option payload expand =>
      cases expand with
      | none => rfl
      | some types => simp [Extraction.rename, UnapplyShape.rename, spots, Spot.rename]
  | structural head fields cast => simp [Extraction.rename, spots, FieldRead.rename, Spot.rename]
  | sequence seq elem rest =>
    simp only [Extraction.rename, spots, List.map_map]
    refine List.map_congr_left fun i _ => ?_
    simp only [Function.comp]
    split <;> rfl
  | reflective head => simp [Extraction.rename, spots, Spot.rename, Ty.rename]

def Renames (ρ : Renaming) (x x' : Naming Unit) : Prop :=
  ∀ bindings, Checked.Maps (fun r => (r.1, renameBindings ρ r.2)) (x bindings) (x' (renameBindings ρ bindings))

namespace Renames

variable {x x' y y' : Naming Unit}

theorem pure : Renames ρ (Pure.pure ()) (Pure.pure ()) := fun bindings => .ok ((), bindings)

theorem bind (hx : Renames ρ x x') (hy : Renames ρ y y') : Renames ρ (x >>= fun _ => y) (x' >>= fun _ => y') :=
  fun bindings => (hx bindings).bind fun r => hy r.2

theorem after {α β : Type} {f : α → β} {c : Checked α} {c' : Checked β} {k : α → Naming Unit} {k' : β → Naming Unit}
    (hc : Checked.Maps f c c') (hk : ∀ a, Renames ρ (k a) (k' (f a))) : Renames ρ (liftM c >>= k) (liftM c' >>= k') := by
  intro bindings
  cases hc with
  | ok a => exact hk a bindings
  | error d d' => exact .error d d'

theorem ite {c : Prop} [Decidable c] (hx : Renames ρ x x') (hy : Renames ρ y y') :
    Renames ρ (if c then x else y) (if c then x' else y') := by
  split
  · exact hx
  · exact hy

theorem bindOnce (name : String) (ty : Ty) (span : Span) :
    Renames ρ (bindOnce name ty span) (Match.bindOnce name (ty.rename ρ) span) := by
  intro bindings
  have hbound : (renameBindings ρ bindings).any (·.1 == name) = bindings.any (·.1 == name) := by
    rw [renameBindings, List.any_map]
    rfl
  have hadded : renameBindings ρ bindings ++ [(name, ty.rename ρ)] = renameBindings ρ (bindings ++ [(name, ty)]) := by
    simp [renameBindings]
  simp only [Match.bindOnce, hbound, hadded]
  exact .ite (.error _ _) (.ok ((), bindings ++ [(name, ty)]))

theorem bindRest (p : Located Pattern) {ty : Ty} : Renames ρ (bindRest p ty) (Match.bindRest p (ty.rename ρ)) := by
  unfold Match.bindRest
  split
  · exact .bindOnce _ _ _
  · exact .pure

end Renames

end Match

def Renaming.stays (ρ : Renaming) : Rule where
  ty t := t.rename ρ = t

namespace Env.Respelled

open Match (Renames Site Spot)

variable {env env' : Env} (h : env.Respelled ρ env')
include h

theorem tupleTypes {elems : List (Located Pattern)} (span : Span) {ty : Ty} :
    Checked.Maps (List.map (Ty.rename ρ)) (Match.tupleTypes env elems span ty)
      (Match.tupleTypes env' elems span (ty.rename ρ)) := by
  unfold Match.tupleTypes
  rw [h.settings, h.expand, Ty.tupleArity?_rename, Ty.args_rename]
  refine .ite (.raise _ _ _) (.ite (.raise _ _ _) ?_)
  cases (env.expand ty).tupleArity? with
  | some n => exact .ite (.ok _) (.raise _ _ _)
  | none => exact .raise _ _ _

theorem namesCompanion (name : String) : Match.namesCompanion env' name = Match.namesCompanion env name := by
  unfold Match.namesCompanion
  rw [h.types]
  cases env.type? name <;> rfl

omit h

mutual

theorem bindInto (h : env.Respelled ρ env') : ∀ (p : Located Pattern) (ty : Ty), ρ.stays.Permits p.val.items →
    Renames ρ (Match.bindInto env p ty) (Match.bindInto env' p (ty.rename ρ))
  | ⟨.wildcard, _⟩, _, _ | ⟨.literal _, _⟩, _, _ => by
    simp only [Match.bindInto]
    exact .pure
  | ⟨.ident name, span⟩, ty, _ => by
    simp only [Match.bindInto, h.namesCompanion, Ty.unwrap_rename]
    refine .ite ?_ (.bindOnce _ _ _)
    have hsite : ∀ t ∈ (⟨⟨name, [], []⟩, ty.unwrap, span⟩ : Site).call.typeArgs, t.rename ρ = t := by simp
    exact .after (h.resolve hsite) fun _ => .pure
  | ⟨.typed name wanted, span⟩, ty, hitems => by
    have hw : wanted.rename ρ = wanted := hitems (.ty wanted) (.tail _ (.head _))
    have hsame : (wanted == ty.unwrap.rename ρ) = (wanted == ty.unwrap) := by
      rw [← Ty.beq_rename ρ wanted ty.unwrap, hw]
    simp only [Match.bindInto, Ty.unwrap_rename, hsame]
    refine .ite .pure ?_
    split
    · exact .bindOnce _ _ _
    · have hbind := Renames.bindOnce (ρ := ρ) name wanted span
      rwa [hw] at hbind
  | ⟨.extractor head typeArgs args, span⟩, ty, hitems => by
    obtain ⟨htypeArgs, hargs⟩ := Rule.permits_append.mp hitems
    have hsite : ∀ t ∈ (⟨⟨head, typeArgs, args⟩, ty.unwrap, span⟩ : Site).call.typeArgs, t.rename ρ = t :=
      Rule.permits_tys.mp htypeArgs
    simp only [Match.bindInto, Ty.unwrap_rename]
    refine .after (h.resolve hsite) fun x => ?_
    rw [Match.Extraction.spots_rename]
    exact bindSpots h args _ hargs
  | ⟨.tuple elems, span⟩, ty, hitems => by
    simp only [Match.bindInto, Ty.unwrap_rename]
    refine .after (h.tupleTypes span) fun types => ?_
    have hspots : (types.map (Ty.rename ρ)).map Spot.value = (types.map Spot.value).map (Spot.rename ρ) := by
      simp [Spot.rename]
    rw [hspots]
    exact bindSpots h elems _ hitems
  | ⟨.rest _, span⟩, _, _ => by
    simp only [Match.bindInto]
    exact fun _ => .error _ _

theorem bindSpots (h : env.Respelled ρ env') : ∀ (ps : List (Located Pattern)) (spots : List Spot),
    ρ.stays.Permits (Pattern.itemsOf ps) →
    Renames ρ (Match.bindSpots env ps spots) (Match.bindSpots env' ps (spots.map (Spot.rename ρ)))
  | [], _, _ | _ :: _, [], _ => by
    simp only [Match.bindSpots, List.map_nil]
    exact .pure
  | p :: ps, .value ty :: spots, hitems => by
    obtain ⟨hpattern, hrest⟩ := Rule.permits_append.mp hitems
    simp only [Match.bindSpots, List.map_cons, Spot.rename]
    exact (bindInto h p ty hpattern).bind (bindSpots h ps spots hrest)
  | p :: ps, .suffix ty :: spots, hitems => by
    simp only [Match.bindSpots, List.map_cons, Spot.rename]
    exact (Renames.bindRest p).bind (bindSpots h ps spots (Rule.permits_append.mp hitems).2)

end

theorem bindingTypes (h : env.Respelled ρ env') {p : Located Pattern} (hitems : ρ.stays.Permits p.val.items) (ty : Ty) :
    Match.bindingTypes env' p (ty.rename ρ) = Match.renameBindings ρ (Match.bindingTypes env p ty) := by
  have hbound : Checked.Maps _ (Match.bindInto env p ty []) (Match.bindInto env' p (ty.rename ρ) []) :=
    h.bindInto p ty hitems []
  rw [Match.bindingTypes_eq, Match.bindingTypes_eq]
  generalize Match.bindInto env p ty [] = r at hbound
  generalize Match.bindInto env' p (ty.rename ρ) [] = r' at hbound
  cases hbound with
  | ok r | error d d' => rfl

end Env.Respelled

/-! ## Scopes -/

namespace Scope

def seen? (s : Scope) (x : String) : Option (Bool × Ty) := (s.find? x).map fun b => (b.ty.isNil, b.ty.unwrap)

def Shows (ρ : Renaming) (s s' : Scope) (x : String) : Prop :=
  s'.seen? x = (s.seen? x).map fun v => (v.1, v.2.rename ρ)

theorem contains_eq (s : Scope) (x : String) : s.contains x = (s.seen? x).isSome := by
  rw [contains, seen?, Option.isSome_map]

theorem unwrap_typeOf (s : Scope) (x : String) : (s.typeOf x).unwrap = ((s.seen? x).map (·.2)).getD .nil := by
  unfold typeOf seen?
  cases s.find? x <;> rfl

theorem isNil_typeOf (s : Scope) (x : String) : (s.typeOf x).isNil = ((s.seen? x).map (·.1)).getD true := by
  unfold typeOf seen?
  cases s.find? x <;> rfl

namespace Shows

variable {s s' : Scope} {x : String}

theorem contains (h : Shows ρ s s' x) : s'.contains x = s.contains x := by
  rw [contains_eq, contains_eq, h, Option.isSome_map]

theorem unwrap_typeOf (h : Shows ρ s s' x) : (s'.typeOf x).unwrap = (s.typeOf x).unwrap.rename ρ := by
  rw [Scope.unwrap_typeOf, Scope.unwrap_typeOf, h]
  cases s.seen? x <;> rfl

theorem isNil_typeOf (h : Shows ρ s s' x) : (s'.typeOf x).isNil = (s.typeOf x).isNil := by
  rw [Scope.isNil_typeOf, Scope.isNil_typeOf, h]
  cases s.seen? x <;> rfl

theorem refl (h : ∀ b, s.find? x = some b → b.ty.rename ρ = b.ty) : Shows ρ s s x := by
  unfold Shows seen?
  cases hb : s.find? x with
  | none => rfl
  | some b =>
    simp only [Option.map_some]
    rw [← Ty.unwrap_rename, h b hb]

theorem enter (h : Shows ρ s s' x) : Shows ρ s.enter s'.enter x := by
  exact h

theorem bind {y : String} (h : x ≠ y → Shows ρ s s' x) {m m' : Mutability} {ty : Ty} :
    Shows ρ (s.bind y m ty) (s'.bind y m' (ty.rename ρ)) x := by
  unfold Shows seen?
  rw [find?_bind, find?_bind]
  by_cases hx : x = y
  · rw [if_pos hx, if_pos hx]
    simp only [Option.map_some, Ty.isNil_rename, Ty.unwrap_rename]
  · rw [if_neg hx, if_neg hx]
    exact h hx

theorem bindAll (h : Shows ρ s s' x) (bindings : List (String × Ty)) :
    Shows ρ (s.bindAll bindings) (s'.bindAll (Match.renameBindings ρ bindings)) x := by
  induction bindings generalizing s s' with
  | nil => exact h
  | cons b bindings ih => exact ih (bind (fun _ => h))

end Shows

end Scope

/-! ## Expressions -/

theorem Ty.isReference_rename (typeParams : List String) (t : Ty) :
    (t.rename ρ).isReference (typeParams.map ρ.name) = t.isReference typeParams := by
  unfold isReference
  rw [isConcrete_rename, isAny_rename, isParam_rename]

namespace Inference

def renamed (ρ : Renaming) (inf : Inference) (env' : Env) : Inference := ⟨env', inf.typeParams.map ρ.name⟩

theorem matchResult_rename {inf : Inference} (env' : Env) (declared : Option Ty) (types : List Ty) :
    (inf.renamed ρ env').matchResult (declared.map (Ty.rename ρ)) (types.map (Ty.rename ρ)) =
      (inf.matchResult declared types).rename ρ := by
  unfold matchResult Match.reference? renamed
  simp only [List.isEmpty_map, List.all_map, List.find?_map, Option.filter_map, Function.comp_def, Ty.isVoid_rename,
    Ty.isReference_rename]
  split
  · rfl
  · cases declared.filter (Ty.isReference inf.typeParams) with
    | some t => rfl
    | none => cases types.find? (Ty.isReference inf.typeParams) <;> rfl

theorem arithmeticType_rename (left right : Expr) (l r : Ty) :
    arithmeticType left right (l.rename ρ) (r.rename ρ) = (arithmeticType left right l r).rename ρ := by
  unfold arithmeticType
  rw [Ty.isNumeric_rename, Ty.isNil_rename]
  split
  · rfl
  · split <;> rfl

theorem argTyping_rename {e : Expr} {plain plain' : Unit → Ty} {lambda lambda' : List Ty → Ty}
    (hplain : plain' () = (plain ()).rename ρ)
    (hlambda : ∀ expected, lambda' (expected.map (Ty.rename ρ)) = (lambda expected).rename ρ) :
    argTyping e plain' lambda' = (argTyping e plain lambda).rename ρ := by
  have hlambda' : lambda' = fun expected => (lambda (expected.map (Ty.rename ρ))).rename ρ := by
    funext expected
    rw [← hlambda, Ty.map_rename_rename]
  have hplain' : plain' = fun _ => (plain ()).rename ρ := funext fun _ => hplain
  cases e with
  | lambda params body => exact congrArg ArgTyping.lambda hlambda'
  | caseFunction clauses => rfl
  | _ => exact congrArg ArgTyping.plain hplain'

variable {params : List Source.LambdaParam}

theorem lambdaParamTypes_rename (hparams : ∀ p ∈ params, ∀ t ∈ p.ty, t.rename ρ = t) (expected : List Ty) :
    lambdaParamTypes params (expected.map (Ty.rename ρ)) = (lambdaParamTypes params expected).map (Ty.rename ρ) := by
  unfold lambdaParamTypes
  apply List.ext_getElem?
  intro i
  rw [List.getElem?_map, List.getElem?_mapIdx, List.getElem?_mapIdx]
  cases hp : params[i]? with
  | none => rfl
  | some p =>
    simp only [Option.map_some, List.getElem?_map]
    cases hty : p.ty with
    | some t => exact congrArg some (hparams p (List.mem_of_getElem? hp) t hty).symm
    | none => cases expected[i]? <;> rfl

theorem lambdaOf_rename (hparams : ∀ p ∈ params, ∀ t ∈ p.ty, t.rename ρ = t) (expected : List Ty) {scope scope' : Scope}
    {body body' : Scope → Ty} {uses : String → Prop} (hscope : ∀ x, uses x → scope.Shows ρ scope' x)
    (hbody : ∀ s s', (∀ x, uses x → s.Shows ρ s' x) → body' s' = (body s).rename ρ) :
    lambdaOf params (expected.map (Ty.rename ρ)) scope' body' = (lambdaOf params expected scope body).rename ρ := by
  have htypes := lambdaParamTypes_rename hparams expected
  have hzip : (params.map (·.name)).zip ((lambdaParamTypes params expected).map (Ty.rename ρ)) =
      Match.renameBindings ρ ((params.map (·.name)).zip (lambdaParamTypes params expected)) := by
    rw [List.zip_map_right]
    rfl
  unfold lambdaOf
  simp only [htypes, hzip]
  rw [hbody _ _ fun x hx => (hscope x hx).enter.bindAll _, Ty.rename, Ty.renameList_eq, Ty.renameList_eq,
    Ty.results_rename]

end Inference

namespace Env.Respelled

variable {env env' : Env} (h : env.Respelled ρ env')
include h

variable {scope scope' : Scope} {x : String} {target callee : Expr} {own target' own' : Unit → Ty}

theorem identType (hx : scope.Shows ρ scope' x) :
    Lowering.identType env' scope' x = (Lowering.identType env scope x).rename ρ := by
  unfold Lowering.identType
  simp only [hx.isNil_typeOf, hx.unwrap_typeOf, h.namedFunctionType]
  split <;> rfl

theorem packageOf? (hscope : ∀ x, target.references x = true → scope.Shows ρ scope' x) :
    Lowering.packageOf? env' scope' target = Lowering.packageOf? env scope target := by
  cases target with
  | ident name =>
    have hshows := hscope name (by simp [Expr.references])
    simp only [Lowering.packageOf?, hshows.contains, h.isPackage]
  | _ => rfl

theorem calleeOf (hscope : ∀ x, callee.references x = true → scope.Shows ρ scope' x) {target : Unit → Ty}
    (htarget : target' () = (target ()).rename ρ) (hown : own' () = (own ()).rename ρ) :
    Lowering.calleeOf env' scope' callee target' own' = (Lowering.calleeOf env scope callee target own).rename ρ := by
  cases callee with
  | ident name =>
    have hshows := hscope name (by simp [Expr.references])
    simp only [Lowering.calleeOf, hshows.contains, hshows.unwrap_typeOf, h.namedCallee]
    split <;> rfl
  | select object member =>
    have hpackage : Lowering.packageOf? env' scope' object.val = Lowering.packageOf? env scope object.val :=
      h.packageOf? hscope
    simp only [Lowering.calleeOf, hpackage, htarget, Ty.unwrap_rename, h.namedCallee, h.memberCallee]
    cases Lowering.packageOf? env scope object.val <;> rfl
  | _ => exact congrArg Callee.value hown

omit h in
theorem typeRef_of_callee (h : env.Respelled ρ env') {target : Unit → Ty} {e : TypeEntry}
    (he : Lowering.calleeOf env scope callee target own = .constructor e) :
    (env.typeRef e).rename ρ = env.typeRef e := by
  cases Lower.calledAs he with
  | name hnamed | qualified hnamed =>
    cases hnamed with
    | constructor htype => exact (h.type_stays _ _ htype).2
  | member hmember => cases hmember

theorem callOf (hscope : ∀ x, callee.references x = true → scope.Shows ρ scope' x) {target : Unit → Ty}
    (htarget : target' () = (target ()).rename ρ) (hown : own' () = (own ()).rename ρ) {explicit : List Ty}
    (hexplicit : ∀ t ∈ explicit, t.rename ρ = t) {args args' : List (NamedArg ArgTyping)}
    (hargs : args' = args.map fun a => (a.1, a.2.rename ρ)) (expected : Option Ty) (span : Span) :
    Lowering.callResult env' (Lowering.calleeOf env' scope' callee target' own') explicit args'
        (expected.map (Ty.rename ρ)) span =
      (Lowering.callResult env (Lowering.calleeOf env scope callee target own) explicit args expected span).rename ρ := by
  have hsame : explicit.map (Ty.rename ρ) = explicit := (List.map_congr_left hexplicit).trans (List.map_id _)
  have hresult := h.callResult
    (fun e (he : Lowering.calleeOf env scope callee target own = .constructor e) => typeRef_of_callee h he)
    explicit args expected span
  rw [hsame] at hresult
  rw [h.calleeOf hscope htarget hown, hargs, hresult]

theorem selectType (inf : Inference) (henv : inf.env = env)
    (hscope : ∀ x, target.references x = true → scope.Shows ρ scope' x) (member : String) {type type' : Unit → Ty}
    (htype : type' () = (type ()).rename ρ) :
    (inf.renamed ρ env').selectType scope' target member type' = (inf.selectType scope target member type).rename ρ := by
  subst henv
  unfold Inference.selectType Inference.renamed
  simp only [h.packageOf? hscope, htype, Ty.unwrap_rename, h.namedFunctionType, h.memberType]
  split <;> rfl

theorem elementType (inf : Inference) (henv : inf.env = env) (target : Ty) :
    (inf.renamed ρ env').elementType (target.rename ρ) = (inf.elementType target).rename ρ := by
  subst henv
  have hget : ∀ t : Ty, (if (t.rename ρ).isString then .basic "byte"
      else (((env'.methodSignature? (t.rename ρ) "Get").filter (·.params.length == 1)).map (·.result)).getD Ty.nil) =
      (if t.isString then .basic "byte"
      else (((inf.env.methodSignature? t "Get").filter (·.params.length == 1)).map (·.result)).getD Ty.nil).rename ρ := by
    intro t
    rw [Ty.isString_rename, h.methodSignature?]
    split
    · exact (Ty.builtin_rename ρ (by decide)).symm
    · have hlength : ∀ m : Method, (m.rename ρ).params.length = m.params.length := fun _ => List.length_map _
      simp only [Option.filter_map, Function.comp_def, hlength]
      cases (inf.env.methodSignature? t "Get").filter (·.params.length == 1) <;> rfl
  unfold Inference.elementType Inference.renamed
  rw [Ty.unwrap_rename]
  cases hu : target.unwrap with
  | array elem | map key elem => rfl
  | _ => exact hget _

theorem clauseScope (inf : Inference) (henv : inf.env = env) (hx : scope.Shows ρ scope' x) {p : Located Pattern}
    (hitems : ρ.stays.Permits p.val.items) (subject : Ty) :
    (inf.clauseScope scope subject p).Shows ρ ((inf.renamed ρ env').clauseScope scope' (subject.rename ρ) p) x := by
  subst henv
  unfold Inference.clauseScope Inference.renamed
  rw [h.bindingTypes hitems]
  exact hx.enter.bindAll _

omit h

/-- What is typed where the names that it uses show the same and its types stay. -/
structure Typed (env env' : Env) (ρ : Renaming) (scope scope' : Scope) (uses : String → Bool)
    (items : List Source.Item) : Prop where
  env : env.Respelled ρ env'
  shows : ∀ x, uses x = true → scope.Shows ρ scope' x
  stays : ρ.stays.Permits items

section

variable {uses uses' : String → Bool} {items items' : List Source.Item}

theorem Typed.left (hs : Typed env env' ρ scope scope' (fun x => uses x || uses' x) (items ++ items')) :
    Typed env env' ρ scope scope' uses items := ⟨hs.env, (forall_or hs.shows).1, (Rule.permits_append.mp hs.stays).1⟩

theorem Typed.right (hs : Typed env env' ρ scope scope' (fun x => uses x || uses' x) (items ++ items')) :
    Typed env env' ρ scope scope' uses' items' := ⟨hs.env, (forall_or hs.shows).2, (Rule.permits_append.mp hs.stays).2⟩

theorem Typed.after (hs : Typed env env' ρ scope scope' uses (items ++ items')) : Typed env env' ρ scope scope' uses items' :=
  ⟨hs.env, hs.shows, (Rule.permits_append.mp hs.stays).2⟩

end

variable (tps : List String)

mutual

/-- The type of an expression where the names in all declarations are exchanged. The scopes need to
    agree on the names that it mentions only. -/
theorem typeOf : ∀ (e : Located Expr) {scope scope'}, Typed env env' ρ scope scope' (fun x => e.val.references x) e.val.items →
    ((⟨env, tps⟩ : Inference).renamed ρ env').typeOf scope' e = ((⟨env, tps⟩ : Inference).typeOf scope e).rename ρ
  | ⟨.lit value, _⟩, scope, scope', _ => by
    simp only [Inference.typeOf]
    cases value <;> exact (Ty.builtin_rename ρ (by decide)).symm
  | ⟨.nil, _⟩, _, _, _ | ⟨.caseFunction _, _⟩, _, _, _ | ⟨.ifElse _ _ none, _⟩, _, _, _ => by
    simp only [Inference.typeOf]
    rfl
  | ⟨.ident name, _⟩, scope, scope', hs => by
    simp only [Inference.typeOf]
    exact hs.env.identType (hs.shows name (by simp [Expr.references]))
  | ⟨.call callee typeArgs args, _⟩, scope, scope', hs => by
    obtain ⟨htypeArgs, -⟩ := Rule.permits_append.mp (Rule.permits_append.mp hs.stays).1
    have hcallee := hs.left.after
    simp only [Inference.typeOf]
    refine hs.env.callOf hcallee.shows ?_ ?_ (Rule.permits_tys.mp htypeArgs) ?_ none callee.span
    · exact targetTypeOf callee hcallee
    · exact typeOf callee hcallee
    · exact argTypings args hs.right
  | ⟨.select target member, _⟩, scope, scope', hs => by
    have htarget : Typed env env' ρ scope scope' (fun x => target.val.references x) _ := hs.after
    simp only [Inference.typeOf]
    refine hs.env.selectType ⟨env, tps⟩ rfl htarget.shows member.val ?_
    exact typeOf target htarget
  | ⟨.index target index, _⟩, scope, scope', hs => by
    simp only [Inference.typeOf]
    rw [typeOf target hs.left]
    exact hs.env.elementType ⟨env, tps⟩ rfl _
  | ⟨.binary left op right, _⟩, scope, scope', hs => by
    simp only [Inference.typeOf]
    rw [typeOf left hs.left, typeOf right hs.right, Inference.arithmeticType_rename]
    split
    · exact (Ty.builtin_rename ρ (by decide)).symm
    · rfl
  | ⟨.unary op operand, _⟩, scope, scope', hs => by
    simp only [Inference.typeOf]
    rw [typeOf operand hs]
    split
    · exact (Ty.builtin_rename ρ (by decide)).symm
    · rfl
  | ⟨.lambda params body, _⟩, scope, scope', hs => by
    obtain ⟨hparams, hbody⟩ := Rule.permits_append.mp hs.stays
    simp only [Inference.typeOf]
    exact Inference.lambdaOf_rename (fun p hp => (Rule.permits_lambdaParams.mp hparams p hp).2) [] hs.shows
      fun s s' hshows => typeOf body ⟨hs.env, hshows, hbody⟩
  | ⟨.ifElse cond thenBranch (some elseBranch), _⟩, scope, scope', hs => by
    simp only [Inference.typeOf]
    rw [typeOf thenBranch hs.left.right, typeOf elseBranch hs.right, Ty.isNil_rename]
    split <;> rfl
  | ⟨.matchOn subject clauses, _⟩, scope, scope', hs => by
    simp only [Inference.typeOf]
    rw [typeOf subject hs.left, clauseTypes clauses _ hs.right]
    exact Inference.matchResult_rename env' none _
  | ⟨.tuple elems, _⟩, scope, scope', hs => by
    simp only [Inference.typeOf]
    rw [typesOf elems hs]
    exact hs.env.tupleType _
  | ⟨.block stmts, _⟩, scope, scope', hs => by
    simp only [Inference.typeOf]
    exact stmtsType stmts .void ⟨hs.env, fun x hx => (hs.shows x hx).enter, hs.stays⟩

theorem typesOf : ∀ (es : List (Located Expr)) {scope scope'},
    Typed env env' ρ scope scope' (fun x => Expr.anyReferences x es) (Expr.itemsOf es) →
    ((⟨env, tps⟩ : Inference).renamed ρ env').typesOf scope' es =
      ((⟨env, tps⟩ : Inference).typesOf scope es).map (Ty.rename ρ)
  | [], _, _, _ => by simp [Inference.typesOf]
  | e :: es, scope, scope', hs => by
    simp only [Inference.typesOf, List.map_cons]
    rw [typeOf e hs.left, typesOf es hs.right]

theorem targetTypeOf : ∀ (e : Located Expr) {scope scope'},
    Typed env env' ρ scope scope' (fun x => e.val.references x) e.val.items →
    ((⟨env, tps⟩ : Inference).renamed ρ env').targetTypeOf scope' e =
      ((⟨env, tps⟩ : Inference).targetTypeOf scope e).rename ρ
  | ⟨e, _⟩, scope, scope', hs => by
    cases e with
    | select target member =>
      simp only [Inference.targetTypeOf]
      exact typeOf target hs.after
    | _ =>
      simp only [Inference.targetTypeOf]
      rfl

theorem lambdaTypeOf : ∀ (e : Located Expr) {scope scope'} (expected : List Ty),
    Typed env env' ρ scope scope' (fun x => e.val.references x) e.val.items →
    ((⟨env, tps⟩ : Inference).renamed ρ env').lambdaTypeOf scope' (expected.map (Ty.rename ρ)) e =
      ((⟨env, tps⟩ : Inference).lambdaTypeOf scope expected e).rename ρ
  | ⟨e, _⟩, scope, scope', expected, hs => by
    cases e with
    | lambda params body =>
      obtain ⟨hparams, hbody⟩ := Rule.permits_append.mp hs.stays
      simp only [Inference.lambdaTypeOf]
      exact Inference.lambdaOf_rename (fun p hp => (Rule.permits_lambdaParams.mp hparams p hp).2) expected hs.shows
        fun s s' hshows => typeOf body ⟨hs.env, hshows, hbody⟩
    | _ =>
      simp only [Inference.lambdaTypeOf]
      rfl

theorem argTypings : ∀ (args : List Arg) {scope scope'},
    Typed env env' ρ scope scope' (fun x => Arg.anyReferences x args) (Arg.itemsOf args) →
    ((⟨env, tps⟩ : Inference).renamed ρ env').argTypings scope' args =
      ((⟨env, tps⟩ : Inference).argTypings scope args).map fun a => (a.1, a.2.rename ρ)
  | [], _, _, _ => by simp [Inference.argTypings]
  | ⟨name, value⟩ :: args, scope, scope', hs => by
    have hvalue : Typed env env' ρ scope scope' (fun x => value.val.references x) _ := hs.left
    simp only [Inference.argTypings, List.map_cons]
    rw [argTypings args hs.right]
    refine congrArg (fun typing => (name, typing) :: _) (Inference.argTyping_rename ?_ fun expected => ?_)
    · exact typeOf value hvalue
    · exact lambdaTypeOf value expected hvalue

theorem clauseTypes : ∀ (cs : List Clause) {scope scope'} (subject : Ty),
    Typed env env' ρ scope scope' (fun x => Clause.anyReferences x cs) (Clause.itemsOf cs) →
    ((⟨env, tps⟩ : Inference).renamed ρ env').clauseTypes scope' (subject.rename ρ) cs =
      ((⟨env, tps⟩ : Inference).clauseTypes scope subject cs).map (Ty.rename ρ)
  | [], _, _, _, _ => by simp [Inference.clauseTypes]
  | ⟨pattern, guard, body⟩ :: cs, scope, scope', subject, hs => by
    have hclause : Typed env env' ρ scope scope' (fun x => Clause.references x ⟨pattern, guard, body⟩) _ := hs.left
    obtain ⟨hpattern, hbody⟩ := Rule.permits_clause hclause.stays
    have hshows : ∀ x, body.val.references x = true → scope.Shows ρ scope' x := fun x hx => by
      cases guard <;> exact hclause.shows x (by simp [Clause.references, hx])
    simp only [Inference.clauseTypes, Inference.clauseType, List.map_cons]
    rw [clauseTypes cs subject hs.right, typeOf body
      ⟨hs.env, fun x hx => hs.env.clauseScope ⟨env, tps⟩ rfl (hshows x hx) hpattern subject, hbody⟩]

theorem stmtsType : ∀ (ss : List (Located Stmt)) {scope scope'} (last : Ty),
    Typed env env' ρ scope scope' (fun x => Stmt.anyReferences x ss) (Stmt.itemsOf ss) →
    ((⟨env, tps⟩ : Inference).renamed ρ env').stmtsType scope' (last.rename ρ) ss =
      ((⟨env, tps⟩ : Inference).stmtsType scope last ss).rename ρ
  | [], _, _, _, _ => by simp only [Inference.stmtsType]
  | ⟨.val ⟨name, mutable, some ty, value⟩, _⟩ :: ss, scope, scope', last, hs => by
    have hty : ty.rename ρ = ty := hs.left.stays (.ty ty) (.tail _ (.head _))
    have hrest : ∀ x, Stmt.anyReferences x ss = true →
        (scope.bind name.val (Inference.valMutability mutable) ty).Shows ρ
          (scope'.bind name.val (Inference.valMutability mutable) (ty.rename ρ)) x :=
      fun x hx => .bind (fun _ => hs.right.shows x hx)
    rw [hty] at hrest
    simp only [Inference.stmtsType]
    exact stmtsType ss .void ⟨hs.env, hrest, hs.right.stays⟩
  | ⟨.val ⟨name, mutable, none, value⟩, _⟩ :: ss, scope, scope', last, hs => by
    simp only [Inference.stmtsType]
    rw [typeOf value ⟨hs.env, hs.left.shows, (Rule.permits_cons.mp hs.left.stays).2⟩]
    exact stmtsType ss .void ⟨hs.env, fun x hx => .bind (fun _ => hs.right.shows x hx), hs.right.stays⟩
  | ⟨.expr e, _⟩ :: ss, scope, scope', last, hs => by
    simp only [Inference.stmtsType]
    rw [typeOf e hs.left]
    exact stmtsType ss _ hs.right
  | ⟨.assign _ _ _, _⟩ :: ss, scope, scope', last, hs
  | ⟨.ret _, _⟩ :: ss, scope, scope', last, hs
  | ⟨.loop _ _, _⟩ :: ss, scope, scope', last, hs => by
    simp only [Inference.stmtsType]
    exact stmtsType ss .void hs.right

end

theorem callType (h : env.Respelled ρ env') {tps : List String} (htps : ∀ p ∈ tps, ρ.name p = p)
    (hscope : ∀ x, scope.Shows ρ scope' x) {callee : Located Expr} (hcallee : ρ.stays.Permits callee.val.items)
    {typeArgs : List Ty} (hexplicit : ∀ t ∈ typeArgs, t.rename ρ = t) {args : List Arg}
    (hargs : ρ.stays.Permits (Arg.itemsOf args)) {expected : Option Ty}
    (hexpected : ∀ t ∈ expected, t.rename ρ = t) :
    (⟨env', tps⟩ : Inference).callType scope' callee typeArgs args expected =
      ((⟨env, tps⟩ : Inference).callType scope callee typeArgs args expected).rename ρ := by
  have hinf : (⟨env', tps⟩ : Inference) = (⟨env, tps⟩ : Inference).renamed ρ env' :=
    congrArg (Inference.mk env') ((List.map_congr_left htps).trans (List.map_id _)).symm
  have hwanted : expected.map (Ty.rename ρ) = expected := by
    cases expected with
    | none => rfl
    | some t => exact congrArg some (hexpected t rfl)
  have hcall : ∀ wanted, wanted = expected.map (Ty.rename ρ) →
      ((⟨env, tps⟩ : Inference).renamed ρ env').callType scope' callee typeArgs args wanted =
        ((⟨env, tps⟩ : Inference).callType scope callee typeArgs args expected).rename ρ := by
    rintro _ rfl
    refine h.callOf (fun x _ => hscope x) ?_ ?_ hexplicit ?_ expected callee.span
    · exact targetTypeOf tps callee ⟨h, fun x _ => hscope x, hcallee⟩
    · exact typeOf tps callee ⟨h, fun x _ => hscope x, hcallee⟩
    · exact argTypings tps args ⟨h, fun x _ => hscope x, hargs⟩
  rw [hinf]
  exact hcall expected hwanted.symm

end Env.Respelled

end Lowering
