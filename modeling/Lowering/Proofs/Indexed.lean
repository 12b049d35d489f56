/-
  Indexed — what a program's declarations put into the index.

  The index is built declaration by declaration, so what each of them keeps holds of the whole index
  (`build_induction`).
-/

import Lowering.Lower.Program
import Lowering.Proofs.Frame
import Lowering.Proofs.Written

namespace Lowering

open Source (Program StructDecl SealedDecl FuncDecl Variant)

variable {α β : Type} {I : β → Prop} {l : List α}

theorem foldlM_checked {f : β → α → Checked β}
    (hf : ∀ b a b', a ∈ l → I b → f b a = .ok b' → I b') (hb : I b) (h : l.foldlM f b = .ok b') : I b' := by
  induction l generalizing b with
  | nil =>
    cases h
    exact hb
  | cons a l ih =>
    obtain ⟨b1, hb1, h⟩ := checked_bind_ok h
    exact ih (fun b a b' ha => hf b a b' (.tail _ ha)) (hf b a b1 (.head _) hb hb1) h

theorem Env.ofProgram_ok {catalog : Catalog} {settings : Settings} {env : Env}
    (h : Env.ofProgram program catalog settings = .ok env) :
    ∃ index, Index.build program settings.runtimePackage = .ok index ∧ env = ⟨index, catalog, settings⟩ :=
  checked_map_ok h

/-! ## Entries -/

namespace TypeEntry

def ofStruct (d : StructDecl) : TypeEntry := d.fields.foldl addField (ofDecl d.name.val .struct d.typeParams)

def sealedStart (d : SealedDecl) : TypeEntry := ofDecl d.name.val .sealedType d.typeParams

def withMethod (e : TypeEntry) (d : FuncDecl) (receiver : Ty) : TypeEntry :=
  let names := receiverParams receiver
  let e := if e.typeParams.isEmpty && e.kind == .opaqueType then { e with typeParams := names } else e
  let rename := Substitution.ofParams names (e.typeParams.map .basic)
  e.addMethod d.name.val
    ⟨d.params.map (·.ty.subst rename), (d.result.getD .void).subst rename, Source.typeParamNames d.typeParams, false⟩

variable {e : TypeEntry} {P : TypeEntry → Prop}

theorem addVariantField_ok {e' : TypeEntry} (h : e.addVariantField f = .ok e') :
    e' = e ∨ e' = e.addField f := by
  unfold addVariantField at h
  split at h
  · cases h
    exact .inr rfl
  · split at h
    · cases h
      exact .inl rfl
    · cases h

theorem ofStruct_induction {d : StructDecl} (hstart : P (ofDecl d.name.val .struct d.typeParams))
    (hfield : ∀ e, ∀ f ∈ d.fields, P e → P (e.addField f)) :
    P (ofStruct d) := List.foldlRecOn _ _ hstart fun e he f hf => hfield e f hf he

variable {d : SealedDecl}

theorem sealed_induction (h : d.variants.foldlM addVariant (sealedStart d) = .ok e) (hstart : P (sealedStart d))
    (hvariant : ∀ e, ∀ v ∈ d.variants, P e → P { e with variants := e.variants ++ [v.name.val] })
    (hfield : ∀ e, ∀ v ∈ d.variants, ∀ f ∈ v.fields, P e → P (e.addField f)) : P e := by
  refine foldlM_checked (fun e v e' hv he hs => ?_) hstart h
  refine foldlM_checked (fun e f e' hf he hs => ?_) (hvariant e v hv he) hs
  rcases addVariantField_ok hs with rfl | rfl
  · exact he
  · exact hfield e v hv f hf he

theorem ofStruct_name {d : StructDecl} : (ofStruct d).name = d.name.val :=
  ofStruct_induction (P := fun e => e.name = d.name.val) rfl fun _ _ _ he => he

theorem sealed_name (h : d.variants.foldlM addVariant (sealedStart d) = .ok e) : e.name = d.name.val :=
  sealed_induction (P := fun e => e.name = d.name.val) h rfl (fun _ _ _ he => he) fun _ _ _ _ _ he => he

end TypeEntry

/-! ## The index -/

namespace Index

variable {program : Program} {runtime : String} {index : Index}

theorem build_induction {P : Index → Prop} (h : build program runtime = .ok index) (hempty : P empty)
    (hdecl : ∀ i d i', d ∈ program.decls → P i → addDecl runtime i d = .ok i' → P i')
    (hcode : ∀ i d, d ∈ program.decls → P i → P (addCode i d)) : P index := by
  obtain ⟨index1, hdecls, rfl⟩ := checked_map_ok h
  exact List.foldlRecOn _ _ (foldlM_checked hdecl hempty hdecls) fun i hi d hd => hcode i d hd hi

def Declared (program : Program) (d : Source.Decl) : Prop := ∃ span, (⟨d, span⟩ : Located Source.Decl) ∈ program.decls

theorem declared_of_mem {d : Located Source.Decl} (h : d ∈ program.decls) : Declared program d.val := ⟨d.span, h⟩

theorem mem_items_of_declared (hd : Declared program d) (hi : i ∈ d.items) :
    i ∈ program.items := by
  obtain ⟨span, hmem⟩ := hd
  exact List.mem_flatMap.mpr ⟨_, hmem, hi⟩

theorem addSealed_ok {i i' : Index} (h : i.addSealed runtime d = .ok i') :
    ∃ e, d.variants.foldlM TypeEntry.addVariant (.sealedStart d) = .ok e ∧
      i' = (d.variants.foldl (fun i v => i.addCompanion runtime (.sealedStart d) v) i).addType e := by
  obtain ⟨e, he, rfl⟩ := checked_map_ok h
  exact ⟨e, he, rfl⟩

theorem addCompanions_code (runtime : String) (e : TypeEntry) (variants : List Variant) (i : Index) :
    (variants.foldl (fun i v => i.addCompanion runtime e v) i).functions = i.functions ∧
      (variants.foldl (fun i v => i.addCompanion runtime e v) i).aliases = i.aliases := by
  induction variants generalizing i with
  | nil => exact ⟨rfl, rfl⟩
  | cons v variants ih => exact ih (i.addCompanion runtime e v)

/-- Every entry has a property that structs, sealed types and variants have at first and that
    methods keep. -/
theorem types_induction {P : String → TypeEntry → Prop} (h : build program runtime = .ok index)
    (hstruct : ∀ d, Declared program (.struct d) → P d.name.val (.ofStruct d))
    (hcompanion : ∀ d, Declared program (.sealedType d) → ∀ v ∈ d.variants,
      P v.name.val ((TypeEntry.sealedStart d).variantCompanion runtime v))
    (hsealed : ∀ d, Declared program (.sealedType d) → ∀ e,
      d.variants.foldlM TypeEntry.addVariant (.sealedStart d) = .ok e → P d.name.val e)
    (hmethod : ∀ d receiver, Declared program (.func d) → d.receiver = some receiver → ∀ e,
      P receiver.ty.baseName e ∨ e = .new "" receiver.ty.baseName .opaqueType →
      P receiver.ty.baseName (e.withMethod d receiver.ty)) :
    ∀ name e, index.types.find? name = some e → P name e := by
  refine build_induction (P := fun i => ∀ name e, i.types.find? name = some e → P name e) h ?_ ?_ ?_
  · intro name e he
    cases he
  · intro i d i' hd hi hs
    have hdecl := declared_of_mem hd
    obtain ⟨d, span⟩ := d
    cases d with
    | struct d =>
      cases hs
      refine Table.forall_find?_insert hi ?_
      rw [show (d.fields.foldl TypeEntry.addField (.ofDecl d.name.val .struct d.typeParams)).name = d.name.val from
        TypeEntry.ofStruct_name]
      exact hstruct d hdecl
    | sealedType d =>
      obtain ⟨e, he, rfl⟩ := addSealed_ok hs
      refine Table.forall_find?_insert ?_ (TypeEntry.sealed_name he ▸ hsealed d hdecl e he)
      exact List.foldlRecOn (motive := fun i : Index => ∀ name e, i.types.find? name = some e → P name e) _ _ hi
        fun i hi v hv => Table.forall_find?_insert hi (hcompanion d hdecl v hv)
    | typeAlias d | func d | val d =>
      cases hs
      exact hi
  · intro i d hd hi
    have hdecl := declared_of_mem hd
    obtain ⟨d, span⟩ := d
    cases d with
    | func d =>
      simp only [addCode]
      split
      · rename_i receiver hreceiver
        refine Table.forall_find?_insert hi (hmethod d receiver hdecl hreceiver _ ?_)
        cases hfind : i.types.find? receiver.ty.baseName with
        | none => exact .inr rfl
        | some e => exact .inl (hi _ e hfind)
      · exact hi
    | _ => exact hi

/-- Functions and aliases are those declared. -/
structure DeclaredIn (program : Program) (i : Index) : Prop where
  functions : ∀ name f, i.functions.find? name = some f → ∃ d : FuncDecl, Declared program (.func d) ∧ d.name.val = name ∧
    f = ⟨"", d.name.val, d.params.map (·.ty), d.result.getD .void, Source.typeParamNames d.typeParams⟩
  aliases : ∀ name a, i.aliases.find? name = some a → ∃ d : Source.AliasDecl, Declared program (.typeAlias d) ∧
    d.name.val = name ∧ a = ⟨Source.typeParamNames d.typeParams, d.ty⟩

theorem build_declared (h : build program runtime = .ok index) : DeclaredIn program index := by
  refine build_induction h ⟨nofun, nofun⟩ (fun i d i' hd hi hs => ?_) fun i d hd hi => ?_
  · have hdecl := declared_of_mem hd
    obtain ⟨d, span⟩ := d
    cases d with
    | sealedType d =>
      obtain ⟨e, he, rfl⟩ := addSealed_ok hs
      obtain ⟨hfunctions, haliases⟩ := addCompanions_code runtime (.sealedStart d) d.variants i
      exact ⟨fun name f hf => hi.functions name f (hfunctions ▸ hf), fun name a ha => hi.aliases name a (haliases ▸ ha)⟩
    | typeAlias d =>
      cases hs
      exact ⟨hi.functions, Table.forall_find?_insert hi.aliases ⟨d, hdecl, rfl, rfl⟩⟩
    | struct d | func d | val d =>
      cases hs
      exact ⟨hi.functions, hi.aliases⟩
  · have hdecl := declared_of_mem hd
    obtain ⟨d, span⟩ := d
    cases d with
    | func d =>
      simp only [addCode]
      split
      · exact ⟨hi.functions, hi.aliases⟩
      · exact ⟨Table.forall_find?_insert hi.functions ⟨d, hdecl, rfl, rfl⟩, hi.aliases⟩
    | _ => exact hi

end Index

/-! ## Lowering declaration by declaration -/

namespace Lower

theorem mapM_cons_still {α β : Type} {f : α → Lower β} {a : α} {b : β} {l : List α} {bs : List β} {s : LowerState}
    (h : f a s = .ok b s) (hl : l.mapM f s = .ok bs s) : (a :: l).mapM f s = .ok (b :: bs) s := by
  rw [List.mapM_cons]
  simp only [Bind.bind, EStateM.bind, h, hl]
  rfl

theorem lowerProgram_of_lowered {program : Source.Program} {catalog : Catalog} {settings : Settings} {env : Env}
    {s s' : LowerState} {lowered : List (List Target.Decl)} (hcheck : program.checkTypes = .ok ())
    (henv : Env.ofProgram program catalog settings = .ok env)
    (hbound : bindGlobals env program.decls (.start env) = .ok () s)
    (hlowered : program.decls.mapM (lowerDecl env) s = .ok lowered s') : lowerProgram program catalog settings =
      .ok ⟨program.package, collectImports env lowered.flatten s'.dotUsed, lowered.flatten⟩ := by
  have hdecls : lowerDecls env program.decls (.start env) = .ok lowered.flatten s' := by
    simp only [lowerDecls, Bind.bind, EStateM.bind, hbound, hlowered]
    rfl
  rw [lowerProgram, hcheck, henv]
  simp only [Bind.bind, Except.bind, hdecls]
  rfl

end Lower

end Lowering
