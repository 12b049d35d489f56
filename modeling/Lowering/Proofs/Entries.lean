/-
  Entries — what the index makes of types that a program writes.

  The entry of a declared type has the types that are written in its declaration, and the companion of a variant
  two more signatures, over the sealed type and over an option of the fields.
-/

import Lowering.Proofs.Indexed
import Lowering.Proofs.Resolved

namespace Lowering

open Source (StructField Variant FuncDecl SealedDecl TypeParam)

/-- What is written in the program is within the rule, and so is what the index puts together from it. -/
structure Rule.Indexes (R : Rule) (program : Source.Program) (runtime : String) : Prop where
  ty : ∀ {t : Ty}, .ty t ∈ program.items → R.ty t
  param : ∀ {x : String}, .param x ∈ program.items → R.param x
  leaf : ∀ x : String, R.ty (.basic x)
  self : ∀ {d : SealedDecl}, Index.Declared program (.sealedType d) → R.ty ((TypeEntry.sealedStart d).selfType "")
  option : ∀ {t : Ty}, R.ty t → R.ty (.generic (.named runtime "Option") [t])
  tuple : ∀ {elems : List Ty}, (∀ t ∈ elems, R.ty t) → R.ty (.tuple runtime elems)
  subst : ∀ {s : Substitution} {t : Ty}, R.Substitutes s → R.ty t → R.ty (t.subst s)

namespace Rule.Entry

variable {R : Rule} {e : TypeEntry}

theorem ofDecl {name : String} {kind : TypeKind} {tps : List TypeParam}
    (h : ∀ p ∈ Source.typeParamNames tps, R.param p) : R.Entry (.ofDecl name kind tps) where
  typeParams := h
  fieldTypes := by simp [TypeEntry.ofDecl, TypeEntry.new]
  methods _ _ hm := nomatch hm

theorem new (package name : String) (kind : TypeKind) : R.Entry (.new package name kind) where
  typeParams := by simp [TypeEntry.new]
  fieldTypes := by simp [TypeEntry.new]
  methods _ _ hm := nomatch hm

theorem addField (he : R.Entry e) {f : StructField} (hf : R.ty f.ty) : R.Entry (e.addField f) where
  typeParams := he.typeParams
  fieldTypes := by
    intro t ht
    rcases List.mem_append.mp ht with ht | ht
    · exact he.fieldTypes t ht
    · rw [List.mem_singleton.mp ht]
      exact hf
  methods := he.methods

end Rule.Entry

namespace Rule.Indexes

variable {R : Rule} {program : Source.Program} {runtime : String} (h : R.Indexes program runtime)
include h

/-! ## Declarations -/

variable {v : Variant} {e : TypeEntry}

theorem typeParams {d : Source.Decl} (hd : Index.Declared program d) {tps : List TypeParam}
    (hitems : ∀ i ∈ tps.flatMap TypeParam.items, i ∈ d.items) : ∀ p ∈ Source.typeParamNames tps, R.param p := by
  intro p hp
  obtain ⟨tp, htp, rfl⟩ := List.mem_map.mp hp
  exact h.param (Index.mem_items_of_declared hd (hitems _ (List.mem_flatMap.mpr ⟨tp, htp, .head _⟩)))

theorem variant {d : SealedDecl} (hd : Index.Declared program (.sealedType d)) (hv : v ∈ d.variants) :
    ∀ f ∈ v.fields, R.ty f.ty := by
  intro f hf
  refine h.ty (Index.mem_items_of_declared hd (.tail _ (List.mem_append_right _ ?_)))
  exact List.mem_flatMap.mpr ⟨v, hv, .tail _ (List.mem_map.mpr ⟨f, hf, rfl⟩)⟩

variable {d : FuncDecl} {name : String}

theorem func (hd : Index.Declared program (.func d)) :
    R.Signature (Source.typeParamNames d.typeParams) (d.params.map (·.ty)) (d.result.getD .void) := by
  refine ⟨h.typeParams hd fun i hi => ?_, List.forall_mem_map.mpr fun p hp => ?_, ?_⟩
  · simp only [Source.Decl.items, List.mem_cons, List.mem_append]
    exact .inr (.inl (.inl (.inl (.inl hi))))
  · refine h.ty (Index.mem_items_of_declared hd ?_)
    simp only [Source.Decl.items, List.mem_cons, List.mem_append, List.mem_flatMap]
    exact .inr (.inl (.inl (.inr ⟨p, hp, .inr (.inl rfl)⟩)))
  · cases hresult : d.result with
    | none => exact .inl rfl
    | some t => exact .inr (h.ty (Index.mem_items_of_declared hd (by simp [Source.Decl.items, hresult])))

/-! ## Entries -/

theorem unapplyResult {fields : List Ty} (hfields : ∀ t ∈ fields, R.ty t) :
    R.ty (Lowering.unapplyResult runtime fields) := by
  match fields with
  | [] => exact h.leaf _
  | [field] => exact h.option (hfields field (.head _))
  | field :: field' :: fields => exact h.option (h.tuple hfields)

theorem companion {d : SealedDecl} (hd : Index.Declared program (.sealedType d)) (hv : v ∈ d.variants) :
    R.Entry ((TypeEntry.sealedStart d).variantCompanion runtime v) where
  typeParams := h.typeParams hd fun i hi => .tail _ (List.mem_append_left _ hi)
  fieldTypes := by simp [TypeEntry.variantCompanion, TypeEntry.new]
  methods := by
    intro name m hm
    have hfields : ∀ t ∈ v.fields.map (·.ty), R.ty t := List.forall_mem_map.mpr (h.variant hd hv)
    have hmem := Table.mem_of_find?_ofList (show (Table.ofList _).find? name = some m from hm)
    simp only [List.mem_cons, List.not_mem_nil, or_false, Prod.mk.injEq] at hmem
    rcases hmem with ⟨-, rfl⟩ | ⟨-, rfl⟩
    · exact ⟨by simp [Method.plain], hfields, .inr (h.self hd)⟩
    · exact ⟨by simp [Method.plain], List.forall_mem_singleton.mpr (h.self hd), .inr (h.unapplyResult hfields)⟩

theorem withMethod (he : R.Entry e) (hd : Index.Declared program (.func d)) {receiver : Source.Receiver}
    (hreceiver : d.receiver = some receiver) : R.Entry (e.withMethod d receiver.ty) := by
  have hnames : ∀ x ∈ receiverParams receiver.ty, R.param x := by
    intro x hx
    refine h.param (Index.mem_items_of_declared hd ?_)
    simp [Source.Decl.items, hreceiver, Source.Receiver.items, hx]
  let e' := if e.typeParams.isEmpty && e.kind == .opaqueType then { e with typeParams := receiverParams receiver.ty } else e
  have he' : R.Entry e' := by
    show R.Entry (if _ then _ else _)
    split
    · exact ⟨hnames, he.fieldTypes, he.methods⟩
    · exact he
  have hrename : R.Substitutes (.ofParams (receiverParams receiver.ty) (e'.typeParams.map .basic)) :=
    Rule.substitutes_ofParams hnames (List.forall_mem_map.mpr fun x _ => h.leaf x)
  obtain ⟨htypeParams, hparams, hresult⟩ := h.func hd
  refine ⟨he'.typeParams, he'.fieldTypes, Table.forall_find?_insert he'.methods ⟨htypeParams, ?_, ?_⟩⟩
  · exact List.forall_mem_map.mpr fun p hp => h.subst hrename (hparams _ (List.mem_map_of_mem hp))
  · rcases hresult with hvoid | hresult
    · exact .inl (by rw [hvoid]; rfl)
    · exact .inr (h.subst hrename hresult)

/-! ## The index -/

variable {index : Index} (hindex : Index.build program runtime = .ok index)
include hindex

theorem entry (he : index.types.find? name = some e) : R.Entry e := by
  have hstart : ∀ {d}, Index.Declared program (.sealedType d) → R.Entry (.sealedStart d) := fun hd =>
    .ofDecl (h.typeParams hd fun i hi => .tail _ (List.mem_append_left _ hi))
  refine Index.types_induction (P := fun _ e => R.Entry e) hindex ?_ (fun d hd v hv => h.companion hd hv) ?_ ?_ name e he
  · intro d hd
    refine TypeEntry.ofStruct_induction (.ofDecl (h.typeParams hd fun i hi => ?_)) fun e f hf he => ?_
    · exact .tail _ (List.mem_append_left _ hi)
    · refine he.addField (h.ty (Index.mem_items_of_declared hd ?_))
      exact .tail _ (List.mem_append_right _ (List.mem_map.mpr ⟨f, hf, rfl⟩))
  · intro d hd e he
    refine TypeEntry.sealed_induction he (hstart hd) ?_ fun e v hv f hf he => he.addField (h.variant hd hv f hf)
    exact fun e _ _ he => ⟨he.typeParams, he.fieldTypes, he.methods⟩
  · intro d receiver hd hreceiver e he
    refine h.withMethod ?_ hd hreceiver
    rcases he with he | rfl
    · exact he
    · exact .new _ _ _

theorem function {f : FunctionEntry} (hf : index.functions.find? name = some f) :
    R.Signature f.typeParams f.params f.result := by
  obtain ⟨d, hd, -, rfl⟩ := (Index.build_declared hindex).functions _ f hf
  exact h.func hd

theorem expansion {a : AliasInfo} (ha : index.aliases.find? name = some a) :
    (∀ p ∈ a.typeParams, R.param p) ∧ R.ty a.target := by
  obtain ⟨d, hd, -, rfl⟩ := (Index.build_declared hindex).aliases _ _ ha
  refine ⟨h.typeParams hd fun i hi => .tail _ (List.mem_append_left _ hi), ?_⟩
  exact h.ty (Index.mem_items_of_declared hd (.tail _ (List.mem_append_right _ (.head _))))

end Rule.Indexes

end Lowering
