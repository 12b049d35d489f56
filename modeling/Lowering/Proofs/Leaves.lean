/-
  Leaves — what is settled at the leaves of a type.

  Many properties hold of a type just if they hold of its leaves (`Leafwise`), and substitutions and renamings
  change a type at its leaves only (`KeepsShape`).
-/

import Lowering.Ty.Substitution

namespace Lowering

namespace Ty

/-! ## Parts -/

mutual

/-- The type and everything inside it. -/
@[simp] def parts : Ty → List Ty
  | .generic base params => .generic base params :: (base.parts ++ partsOf params)
  | .array elem => .array elem :: elem.parts
  | .pointer elem => .pointer elem :: elem.parts
  | .map key elem => .map key elem :: (key.parts ++ elem.parts)
  | .func params results => .func params results :: (partsOf params ++ partsOf results)
  | leaf => [leaf]

@[simp] def partsOf : List Ty → List Ty
  | [] => []
  | t :: ts => t.parts ++ partsOf ts

end

def isLeaf : Ty → Bool
  | .basic _ | .named _ _ | .any | .nil | .void => true
  | _ => false

theorem forall_mem_partsOf {P : Ty → Prop} : (∀ p ∈ partsOf ts, P p) ↔ ∀ t ∈ ts, ∀ p ∈ t.parts, P p := by
  induction ts with
  | nil => simp [partsOf]
  | cons t ts ih => simp only [partsOf, List.forall_mem_append, List.forall_mem_cons, ih]

def Every (P : Ty → Prop) (t : Ty) : Prop := ∀ p ∈ t.parts, P p

instance {P : Ty → Prop} [DecidablePred P] (t : Ty) : Decidable (t.Every P) :=
  inferInstanceAs (Decidable (∀ p ∈ t.parts, P p))

section

variable {P : Ty → Prop}

variable {params : List Ty} {elem : Ty}

theorem Every.self (h : t.Every P) : P t := by
  cases t <;> exact h _ (.head _)

theorem every_generic {base : Ty} :
    (generic base params).Every P ↔ P (.generic base params) ∧ base.Every P ∧ ∀ t ∈ params, t.Every P := by
  simp only [Every, parts, List.forall_mem_cons, List.forall_mem_append, forall_mem_partsOf]

theorem every_array : (array elem).Every P ↔ P (.array elem) ∧ elem.Every P := by
  simp only [Every, parts, List.forall_mem_cons]

theorem every_pointer : (pointer elem).Every P ↔ P (.pointer elem) ∧ elem.Every P := by
  simp only [Every, parts, List.forall_mem_cons]

theorem every_map {key : Ty} : (map key elem).Every P ↔ P (.map key elem) ∧ key.Every P ∧ elem.Every P := by
  simp only [Every, parts, List.forall_mem_cons, List.forall_mem_append]

theorem every_func {results : List Ty} : (func params results).Every P ↔
      P (.func params results) ∧ (∀ t ∈ params, t.Every P) ∧ ∀ t ∈ results, t.Every P := by
  simp only [Every, parts, List.forall_mem_cons, List.forall_mem_append, forall_mem_partsOf]

theorem every_leaf (h : t.isLeaf = true) : t.Every P ↔ P t := by
  cases t <;> simp [isLeaf] at h <;> simp only [Every, parts, List.forall_mem_singleton]

end

/-! ## Induction -/

@[elab_as_elim] theorem induct {motive : Ty → Prop} (leaf : ∀ t, t.isLeaf = true → motive t)
    (generic : ∀ base params, motive base → (∀ t ∈ params, motive t) → motive (.generic base params))
    (array : ∀ elem, motive elem → motive (.array elem)) (pointer : ∀ elem, motive elem → motive (.pointer elem))
    (map : ∀ key elem, motive key → motive elem → motive (.map key elem))
    (func : ∀ params results, (∀ t ∈ params, motive t) → (∀ t ∈ results, motive t) → motive (.func params results))
    (t : Ty) : motive t :=
  @Ty.rec motive (fun ts => ∀ t ∈ ts, motive t) (fun _ => leaf _ rfl) (fun _ _ => leaf _ rfl) generic array pointer map
    func (leaf _ rfl) (leaf _ rfl) (leaf _ rfl) (List.forall_mem_nil _) (fun _ _ ht hts => List.forall_mem_cons.mpr ⟨ht, hts⟩) t

/-! ## Properties of leaves -/

/-- The property holds of a type just if it holds of what is directly inside. -/
structure Leafwise (P : Ty → Prop) : Prop where
  generic : ∀ base params, P (.generic base params) ↔ P base ∧ ∀ t ∈ params, P t
  array : ∀ elem, P (.array elem) ↔ P elem
  pointer : ∀ elem, P (.pointer elem) ↔ P elem
  map : ∀ key elem, P (.map key elem) ↔ P key ∧ P elem
  func : ∀ params results, P (.func params results) ↔ (∀ t ∈ params, P t) ∧ ∀ t ∈ results, P t

/-- The map replaces leaves and keeps everything above them. -/
structure KeepsShape (f : Ty → Ty) : Prop where
  generic : ∀ base params, f (.generic base params) = .generic (f base) (params.map f)
  array : ∀ elem, f (.array elem) = .array (f elem)
  pointer : ∀ elem, f (.pointer elem) = .pointer (f elem)
  map : ∀ key elem, f (.map key elem) = .map (f key) (f elem)
  func : ∀ params results, f (.func params results) = .func (params.map f) (results.map f)

variable {P Q : Ty → Prop} {f g : Ty → Ty}

namespace Leafwise

theorem all (hP : Leafwise P) (h : ∀ l, l.isLeaf = true → P l) (t : Ty) : P t := by
  induction t using induct with
  | leaf t ht => exact h t ht
  | generic base params hbase hparams => exact (hP.generic _ _).mpr ⟨hbase, hparams⟩
  | array elem helem => exact (hP.array _).mpr helem
  | pointer elem helem => exact (hP.pointer _).mpr helem
  | map key elem hkey helem => exact (hP.map _ _).mpr ⟨hkey, helem⟩
  | func params results hparams hresults => exact (hP.func _ _).mpr ⟨hparams, hresults⟩

theorem imp (hP : Leafwise P) (hQ : Leafwise Q) (h : ∀ l, l.isLeaf = true → P l → Q l) (t : Ty) : P t → Q t := by
  induction t using induct with
  | leaf t ht => exact h t ht
  | generic base params hbase hparams =>
    rw [hP.generic, hQ.generic]
    exact And.imp hbase fun hp t ht => hparams t ht (hp t ht)
  | array elem helem => rwa [hP.array, hQ.array]
  | pointer elem helem => rwa [hP.pointer, hQ.pointer]
  | map key elem hkey helem =>
    rw [hP.map, hQ.map]
    exact And.imp hkey helem
  | func params results hparams hresults =>
    rw [hP.func, hQ.func]
    exact And.imp (fun hp t ht => hparams t ht (hp t ht)) fun hr t ht => hresults t ht (hr t ht)

theorem iff (hP : Leafwise P) (hQ : Leafwise Q) (h : ∀ l, l.isLeaf = true → (P l ↔ Q l)) (t : Ty) : P t ↔ Q t :=
  ⟨hP.imp hQ (fun l hl => (h l hl).mp) t, hQ.imp hP (fun l hl => (h l hl).mpr) t⟩

theorem comp (hP : Leafwise P) (hf : KeepsShape f) : Leafwise fun t => P (f t) where
  generic _ _ := by rw [hf.generic, hP.generic, List.forall_mem_map]
  array _ := by rw [hf.array, hP.array]
  pointer _ := by rw [hf.pointer, hP.pointer]
  map _ _ := by rw [hf.map, hP.map]
  func _ _ := by rw [hf.func, hP.func, List.forall_mem_map, List.forall_mem_map]

theorem and (hP : Leafwise P) (hQ : Leafwise Q) : Leafwise fun t => P t ∧ Q t where
  generic _ _ := by
    rw [hP.generic, hQ.generic]
    grind
  array _ := and_congr (hP.array _) (hQ.array _)
  pointer _ := and_congr (hP.pointer _) (hQ.pointer _)
  map _ _ := by rw [hP.map, hQ.map, and_and_and_comm]
  func _ _ := by
    rw [hP.func, hQ.func]
    grind

theorem args (hP : Leafwise P) (h : P t) : ∀ a ∈ t.args, P a := by
  cases t with
  | generic base params => exact ((hP.generic _ _).mp h).2
  | _ => exact List.forall_mem_nil _

theorem apply (hP : Leafwise P) {base : Ty} {args : List Ty} (hbase : P base) (hargs : ∀ a ∈ args, P a) :
    P (base.apply args) := by
  unfold Ty.apply
  split
  · exact hbase
  · exact (hP.generic _ _).mpr ⟨hbase, hargs⟩

theorem every (h : ∀ t, t.isLeaf = false → P t) : Leafwise (Every P) where
  generic _ _ := every_generic.trans (and_iff_right (h _ rfl))
  array _ := every_array.trans (and_iff_right (h _ rfl))
  pointer _ := every_pointer.trans (and_iff_right (h _ rfl))
  map _ _ := every_map.trans (and_iff_right (h _ rfl))
  func _ _ := every_func.trans (and_iff_right (h _ rfl))

end Leafwise

theorem KeepsShape.id : KeepsShape fun t => t where
  generic _ _ := by rw [List.map_id']
  array _ := rfl
  pointer _ := rfl
  map _ _ := rfl
  func _ _ := by rw [List.map_id', List.map_id']

theorem KeepsShape.comp (hg : KeepsShape g) (hf : KeepsShape f) : KeepsShape fun t => g (f t) where
  generic _ _ := by rw [hf.generic, hg.generic, List.map_map]; rfl
  array _ := by rw [hf.array, hg.array]
  pointer _ := by rw [hf.pointer, hg.pointer]
  map _ _ := by rw [hf.map, hg.map]
  func _ _ := by rw [hf.func, hg.func, List.map_map, List.map_map]; rfl

theorem KeepsShape.eq (hf : KeepsShape f) (hg : KeepsShape g) : Leafwise fun t => f t = g t where
  generic _ _ := by rw [hf.generic, hg.generic, generic.injEq, List.map_inj_left]
  array _ := by rw [hf.array, hg.array, array.injEq]
  pointer _ := by rw [hf.pointer, hg.pointer, pointer.injEq]
  map _ _ := by rw [hf.map, hg.map, map.injEq]
  func _ _ := by rw [hf.func, hg.func, func.injEq, List.map_inj_left, List.map_inj_left]

/-! ## Walks and substitutions -/

variable {params : List String} {s : Substitution}

theorem anyMentions_eq_false : anyMentions params ts = false ↔ ∀ t ∈ ts, t.mentions params = false := by
  induction ts with
  | nil => simp [anyMentions]
  | cons t ts ih => rw [anyMentions, Bool.or_eq_false_iff, ih, List.forall_mem_cons]

theorem allConcrete_iff : allConcrete ts = true ↔ ∀ t ∈ ts, t.isConcrete = true := by
  induction ts with
  | nil => simp [allConcrete]
  | cons t ts ih => rw [allConcrete, Bool.and_eq_true, ih, List.forall_mem_cons]

theorem substList_eq (ts : List Ty) : substList s ts = ts.map (subst s) := by
  induction ts with
  | nil => rfl
  | cons t ts ih => rw [substList, ih, List.map_cons]

theorem leafwise_unmentioned : Leafwise fun t => t.mentions params = false where
  generic _ _ := by rw [mentions, Bool.or_eq_false_iff, anyMentions_eq_false]
  array _ := .rfl
  pointer _ := .rfl
  map _ _ := by rw [mentions, Bool.or_eq_false_iff]
  func _ _ := by rw [mentions, Bool.or_eq_false_iff, anyMentions_eq_false, anyMentions_eq_false]

theorem leafwise_concrete : Leafwise fun t => t.isConcrete = true where
  generic _ _ := by rw [isConcrete, Bool.and_eq_true, allConcrete_iff]
  array _ := .rfl
  pointer _ := .rfl
  map _ _ := by rw [isConcrete, Bool.and_eq_true]
  func _ _ := by rw [isConcrete, Bool.and_eq_true, allConcrete_iff, allConcrete_iff]

theorem keepsShape_subst : KeepsShape (subst s) where
  generic _ _ := by rw [subst, substList_eq]
  array _ := rfl
  pointer _ := rfl
  map _ _ := rfl
  func _ _ := by rw [subst, substList_eq, substList_eq]

theorem subst_leaf {l : Ty} (hl : l.isLeaf = true) : l.subst s = (l.leafName?.bind s.find?).getD l := by
  cases l with
  | named package name =>
    simp only [subst, leafName?]
    split <;> rfl
  | basic | any | nil | void => rfl
  | _ => cases hl

theorem of_subst_leaf {l : Ty} (hl : l.isLeaf = true) (hs : ∀ x t, s.find? x = some t → P t) (h : P l) :
    P (l.subst s) := by
  rw [subst_leaf hl]
  cases hfind : l.leafName?.bind s.find? with
  | none => exact h
  | some a =>
    obtain ⟨x, -, hx⟩ := Option.bind_eq_some_iff.mp hfind
    exact hs x a hx

theorem mentions_leaf {l : Ty} (hl : l.isLeaf = true) : l.mentions params = l.leafName?.any params.contains := by
  cases l with
  | named package name =>
    simp only [mentions, leafName?]
    split <;> simp_all
  | basic | any | nil | void => rfl
  | _ => cases hl

theorem subst_of_unmentioned (hs : ∀ x, x ∉ params → s.find? x = none) {t : Ty} :
    t.mentions params = false → t.subst s = t := by
  refine leafwise_unmentioned.imp (keepsShape_subst.eq .id) (fun l hl h => ?_) t
  rw [mentions_leaf hl] at h
  rw [subst_leaf hl]
  cases hx : l.leafName? with
  | none => rfl
  | some x =>
    have hfind : s.find? x = none := hs x (by simpa [hx] using h)
    simp [hfind]

theorem Leafwise.subst (hP : Leafwise P) (hs : ∀ x t, s.find? x = some t → P t) (t : Ty) (ht : P t) : P (t.subst s) :=
  hP.imp (hP.comp keepsShape_subst) (fun _ hl => of_subst_leaf hl hs) t ht

theorem Every.subst (hs : ∀ x t, s.find? x = some t → t.Every P)
    (hP : ∀ t : Ty, t.isLeaf = false → t.Every P → P (t.subst s)) (t : Ty) (h : t.Every P) : (t.subst s).Every P := by
  induction t using induct with
  | leaf t ht => exact of_subst_leaf ht hs h
  | generic base args ihbase ihargs =>
    obtain ⟨-, hbase, hargs⟩ := every_generic.mp h
    have hnode := hP _ rfl h
    rw [keepsShape_subst.generic] at hnode ⊢
    exact every_generic.mpr ⟨hnode, ihbase hbase, List.forall_mem_map.mpr fun t ht => ihargs t ht (hargs t ht)⟩
  | array elem ih => exact every_array.mpr ⟨hP _ rfl h, ih (every_array.mp h).2⟩
  | pointer elem ih => exact every_pointer.mpr ⟨hP _ rfl h, ih (every_pointer.mp h).2⟩
  | map key elem ihkey ihelem =>
    obtain ⟨-, hkey, helem⟩ := every_map.mp h
    exact every_map.mpr ⟨hP _ rfl h, ihkey hkey, ihelem helem⟩
  | func params results ihparams ihresults =>
    obtain ⟨-, hparams, hresults⟩ := every_func.mp h
    have hnode := hP _ rfl h
    rw [keepsShape_subst.func] at hnode ⊢
    exact every_func.mpr ⟨hnode, List.forall_mem_map.mpr fun t ht => ihparams t ht (hparams t ht),
      List.forall_mem_map.mpr fun t ht => ihresults t ht (hresults t ht)⟩

end Ty

end Lowering
