/-
  Copied — the fields of a copied struct.

  A copy goes through the fields of a struct and takes the override of each out of a list, which is reordered
  every time. Nothing but membership in that list matters.
-/

import Lowering.Proofs.Frame
import Mathlib.Data.List.Nodup
import Mathlib.Data.List.Perm.Basic

namespace Lowering.Storage

open Target (Expr Element)

variable {env : Env} {owner : TypeEntry} {receiver copy : Expr} {ty : Ty} {span : Span} {field : String} {position : Nat}
  {fields : List String} {o : Override} {overrides others left : List Override} {element : Element}
  {elements : List Element} {p : String × Nat}

/-! ## One override -/

theorem swapRemove_perm {i : Nat} (hi : overrides[i]? = some o) {last : Override} (hlast : overrides.getLast? = some last) :
    (o :: (overrides.set i last).dropLast).Perm overrides := by
  obtain ⟨init, rfl⟩ := List.getLast?_eq_some_iff.mp hlast
  obtain ⟨hlt, rfl⟩ := List.getElem?_eq_some_iff.mp hi
  by_cases hlater : i < init.length
  · -- the last override takes the place of the one that is taken out
    have hset : (init.set i last).Perm (last :: init.eraseIdx i) := by
      have h := List.getElem_cons_eraseIdx_perm (l := init.set i last) (n := i) (by simpa using hlater)
      rwa [List.getElem_set_self, List.eraseIdx_set_eq, List.perm_comm] at h
    rw [List.set_append_left _ _ hlater, List.dropLast_concat, List.getElem_append_left hlater]
    calc init[i] :: init.set i last
      _ |>.Perm (init[i] :: last :: init.eraseIdx i) := hset.cons _
      _ |>.Perm (last :: init[i] :: init.eraseIdx i) := .swap ..
      _ |>.Perm (last :: init) := (List.getElem_cons_eraseIdx_perm hlater).cons _
      _ |>.Perm (init ++ [last]) := (List.perm_append_singleton _ _).symm
  · obtain rfl : i = init.length := by simp at hlt; omega
    simpa using (List.perm_append_singleton last init).symm

theorem takeOverride_some (h : takeOverride field overrides = some (o, others)) :
    o.field = field ∧ (o :: others).Perm overrides := by
  simp only [takeOverride, Option.bind_eq_bind, Option.bind_eq_some_iff, Option.some.injEq, Prod.mk.injEq] at h
  obtain ⟨i, hi, taken, htaken, last, hlast, rfl, rfl⟩ := h
  obtain ⟨hlt, hfield, -⟩ := List.findIdx?_eq_some_iff_getElem.mp hi
  obtain rfl : overrides[i] = taken := by simpa [hlt] using htaken
  exact ⟨by simpa using hfield, swapRemove_perm htaken hlast⟩

theorem takeOverride_none (h : takeOverride field overrides = none) (ho : o ∈ overrides) : o.field ≠ field := by
  intro hfield
  cases hi : overrides.findIdx? (·.field == field) with
  | none =>
    have hne := List.findIdx?_eq_none_iff.mp hi o ho
    simp [hfield] at hne
  | some i =>
    obtain ⟨hlt, -, -⟩ := List.findIdx?_eq_some_iff_getElem.mp hi
    have hlast : overrides ≠ [] := List.ne_nil_of_mem ho
    simp [takeOverride, hi, hlt, List.getLast?_eq_some_getLast hlast] at h

/-! ## One field -/

/-- An element that a copy has for the field at a position: the override's value, stored, or the receiver's own. -/
inductive CopiedAs (env : Env) (owner : TypeEntry) (receiver : Expr) (ty : Ty) (span : Span) (overrides : List Override) :
    String × Nat → Element → Prop
  | stored {o : Override} {position : Nat} {element : Element} (ho : o ∈ overrides)
      (h : storeField env owner ty position o.value o.wrapperRead span = .ok element) :
      CopiedAs env owner receiver ty span overrides (o.field, position) element
  | kept {field : String} {position : Nat} {info : FieldInfo} (hkept : ∀ o ∈ overrides, o.field ≠ field)
      (hinfo : env.field? ty field = some info) :
      CopiedAs env owner receiver ty span overrides (field, position) ⟨some field, if info.wrapped
        then .call (.qualified env.runtime "Copy") [info.ty] [.selector receiver field] else .selector receiver field⟩

theorem CopiedAs.of_mem (h : CopiedAs env owner receiver ty span overrides p element)
    (hmem : ∀ o : Override, o.field = p.1 → (o ∈ overrides ↔ o ∈ others)) :
    CopiedAs env owner receiver ty span others p element := by
  cases h with
  | stored ho h => exact .stored ((hmem _ rfl).mp ho) h
  | kept hkept hinfo => exact .kept (fun o ho hfield => hkept o ((hmem o hfield).mpr ho) hfield) hinfo

theorem forall₂_copiedAs {l : List (String × Nat)}
    (h : List.Forall₂ (CopiedAs env owner receiver ty span overrides) l elements)
    (hmem : ∀ p ∈ l, ∀ o : Override, o.field = p.1 → (o ∈ overrides ↔ o ∈ others)) :
    List.Forall₂ (CopiedAs env owner receiver ty span others) l elements := by
  induction h with
  | nil => exact .nil
  | cons hhead _ ih =>
    obtain ⟨hp, hl⟩ := List.forall_mem_cons.mp hmem
    exact .cons (hhead.of_mem hp) (ih hl)

theorem copiedAs_of_taken (hnodup : (overrides.map (·.field)).Nodup)
    (htake : takeOverride field overrides = some (o, others)) :
    CopiedAs env owner receiver ty span overrides (field, position) element ↔
      storeField env owner ty position o.value o.wrapperRead span = .ok element := by
  obtain ⟨rfl, hperm⟩ := takeOverride_some htake
  have ho : o ∈ overrides := hperm.mem_iff.mp (.head _)
  constructor
  · generalize hp : (o.field, position) = p
    rintro (⟨ho', h⟩ | ⟨hkept, -⟩)
    · obtain ⟨hfield, rfl⟩ := Prod.mk.inj hp
      rwa [List.inj_on_of_nodup_map hnodup ho ho' hfield]
    · exact absurd (Prod.mk.inj hp).1 (hkept o ho)
  · exact .stored ho

theorem copiedAs_of_left (htake : takeOverride field overrides = none) :
    CopiedAs env owner receiver ty span overrides (field, position) element ↔
      copyField env receiver ty field span = .ok element := by
  have hkept : ∀ o ∈ overrides, o.field ≠ field := fun o ho => takeOverride_none htake ho
  unfold copyField fieldInfo
  constructor
  · generalize hp : (field, position) = p
    rintro (⟨ho, -⟩ | ⟨-, hinfo⟩)
    · exact absurd (Prod.mk.inj hp).1.symm (hkept _ ho)
    · obtain ⟨rfl, rfl⟩ := Prod.mk.inj hp
      rw [hinfo]
      rfl
  · cases hinfo : env.field? ty field with
    | none => exact fun h => by cases h
    | some info =>
      rintro ⟨⟩
      exact .kept hkept hinfo

theorem storeField_key (hfield : owner.fields[position]? = some field) {value : Expr} {wrapperRead : Bool}
    (h : storeField env owner ty position value wrapperRead span = .ok element) : element.key = some field := by
  unfold storeField at h
  rw [hfield] at h
  obtain ⟨info, -, h⟩ := checked_bind_ok h
  extract_lets finish at h
  have hfinish : ∀ x : Checked Expr, (x >>= finish) = .ok element → element.key = some field := by
    intro x hx
    obtain ⟨stored, -, hx⟩ := checked_bind_ok hx
    cases hx
    rfl
  split at h <;> exact hfinish _ h

theorem CopiedAs.key (h : CopiedAs env owner receiver ty span overrides p element) (hp : owner.fields[p.2]? = some p.1) :
    element.key = some p.1 := by
  cases h with
  | kept => rfl
  | stored ho h => exact storeField_key hp h

/-! ## All fields -/

theorem mem_others (hnodup : (overrides.map (·.field)).Nodup) (htake : takeOverride field overrides = some (o, others))
    (other : Override) : other ∈ others ↔ other ∈ overrides ∧ other.field ≠ field := by
  obtain ⟨rfl, hperm⟩ := takeOverride_some htake
  have hnot : o.field ∉ others.map (·.field) := (List.nodup_cons.mp ((hperm.map _).nodup_iff.mpr hnodup)).1
  rw [← hperm.mem_iff, List.mem_cons]
  constructor
  · intro hother
    exact ⟨.inr hother, fun hfield => hnot (List.mem_map.mpr ⟨other, hother, hfield⟩)⟩
  · rintro ⟨rfl | hother, hfield⟩
    · exact absurd rfl hfield
    · exact hother

theorem others_nodup (hnodup : (overrides.map (·.field)).Nodup)
    (htake : takeOverride field overrides = some (o, others)) : (others.map (·.field)).Nodup :=
  (List.nodup_cons.mp (((takeOverride_some htake).2.map _).nodup_iff.mpr hnodup)).2

theorem mem_left (hnodup : (overrides.map (·.field)).Nodup)
    (h : copyFields env owner receiver ty span position fields overrides = .ok (elements, left)) (other : Override) :
    other ∈ left ↔ other ∈ overrides ∧ other.field ∉ fields := by
  induction fields generalizing position overrides elements with
  | nil =>
    cases h
    simp
  | cons field fields ih =>
    unfold copyFields at h
    split at h
    · rename_i htake
      obtain ⟨element, -, h⟩ := checked_bind_ok h
      obtain ⟨rest, hrest, h⟩ := checked_bind_ok h
      cases h
      rw [ih (others_nodup hnodup htake) hrest, mem_others hnodup htake, List.mem_cons, not_or, and_assoc]
    · rename_i htake
      obtain ⟨element, -, h⟩ := checked_bind_ok h
      obtain ⟨rest, hrest, h⟩ := checked_bind_ok h
      cases h
      rw [ih hnodup hrest, List.mem_cons, not_or]
      exact and_congr_right fun hother => (and_iff_right (takeOverride_none htake hother)).symm

theorem copied_cons {head : Checked Element} {rest : Checked (List Element × List Override)} :
    (∃ left, (do let e ← head; let (es, left) ← rest; pure (e :: es, left)) = Except.ok (elements, left)) ↔
      ∃ e es, head = .ok e ∧ (∃ left, rest = .ok (es, left)) ∧ elements = e :: es := by
  constructor
  · rintro ⟨left, h⟩
    obtain ⟨e, he, h⟩ := checked_bind_ok h
    obtain ⟨⟨es, left'⟩, hes, h⟩ := checked_bind_ok h
    cases h
    exact ⟨e, es, he, ⟨_, hes⟩, rfl⟩
  · rintro ⟨e, es, rfl, ⟨left, rfl⟩, rfl⟩
    exact ⟨left, rfl⟩

theorem copyFields_iff (hfields : fields.Nodup) (hnodup : (overrides.map (·.field)).Nodup) :
    (∃ left, copyFields env owner receiver ty span position fields overrides = .ok (elements, left)) ↔
      List.Forall₂ (CopiedAs env owner receiver ty span overrides) (fields.zipIdx position) elements := by
  induction fields generalizing position overrides elements with
  | nil => simp [copyFields, Pure.pure, Except.pure, eq_comm]
  | cons field fields ih =>
    obtain ⟨hfield, hlater⟩ := List.nodup_cons.mp hfields
    rw [List.zipIdx_cons, List.forall₂_cons_left_iff]
    unfold copyFields
    cases htake : takeOverride field overrides with
    | none =>
      refine copied_cons.trans (exists_congr fun e => exists_congr fun es => ?_)
      rw [copiedAs_of_left htake, ih hlater hnodup]
    | some taken =>
      obtain ⟨o, others⟩ := taken
      -- later fields find the same overrides among those that are left
      have hsame : ∀ p ∈ fields.zipIdx (position + 1), ∀ other : Override, other.field = p.1 →
          (other ∈ others ↔ other ∈ overrides) := by
        rintro p hp other hother
        rw [mem_others hnodup htake, and_iff_left]
        rintro rfl
        exact hfield (hother ▸ List.fst_mem_of_mem_zipIdx hp)
      refine copied_cons.trans (exists_congr fun e => exists_congr fun es => ?_)
      rw [copiedAs_of_taken hnodup htake, ih hlater (others_nodup hnodup htake)]
      refine and_congr_right fun _ => and_congr_left fun _ => ⟨fun h => forall₂_copiedAs h hsame, fun h => ?_⟩
      exact forall₂_copiedAs h fun p hp other hother => (hsame p hp other hother).symm

theorem copyStruct_ok_iff (hfields : owner.fields.Nodup) (hnodup : (overrides.map (·.field)).Nodup) :
    copyStruct env owner receiver ty overrides span = .ok copy ↔ (∀ o ∈ overrides, o.field ∈ owner.fields) ∧
      ∃ elements, copy = .composite ty elements ∧
        List.Forall₂ (CopiedAs env owner receiver ty span overrides) owner.fields.zipIdx elements := by
  unfold copyStruct
  constructor
  · intro h
    obtain ⟨⟨elements, left⟩, hrun, h⟩ := checked_bind_ok h
    cases left with
    | cons o left => cases h
    | nil =>
      cases h
      refine ⟨fun o ho => ?_, elements, rfl, (copyFields_iff hfields hnodup).mp ⟨[], hrun⟩⟩
      by_contra hnot
      exact List.not_mem_nil ((mem_left hnodup hrun o).mpr ⟨ho, hnot⟩)
  · rintro ⟨hknown, elements, rfl, hcopied⟩
    obtain ⟨left, hrun⟩ := (copyFields_iff hfields hnodup).mpr hcopied
    obtain rfl : left = [] := List.eq_nil_iff_forall_not_mem.mpr fun o ho => by
      obtain ⟨ho, hnot⟩ := (mem_left hnodup hrun o).mp ho
      exact hnot (hknown o ho)
    rw [hrun]
    rfl

theorem keys_of_copied {l : List (String × Nat)} (hl : ∀ p ∈ l, owner.fields[p.2]? = some p.1)
    (h : List.Forall₂ (CopiedAs env owner receiver ty span overrides) l elements) :
    elements.map (·.key) = l.map (some ∘ Prod.fst) := by
  induction h with
  | nil => rfl
  | cons hhead _ ih =>
    obtain ⟨hp, hl⟩ := List.forall_mem_cons.mp hl
    rw [List.map_cons, List.map_cons, hhead.key hp, ih hl]
    rfl

/-- With distinct fields and overrides of distinct fields: a struct is copied just if every override is of one of its
    fields and the elements for the fields can be told. The literal has an element per field, in the order of the
    fields. Overrides in another order give the same literal, or none. -/
theorem copyStruct_iff {env : Env} {owner : TypeEntry} {overrides : List Override} (hfields : owner.fields.Nodup)
    (hnodup : (overrides.map (·.field)).Nodup) (receiver : Expr) (ty : Ty) (span : Span) :
    (∀ copy, copyStruct env owner receiver ty overrides span = .ok copy ↔ (∀ o ∈ overrides, o.field ∈ owner.fields) ∧
      ∃ elements, copy = .composite ty elements ∧ elements.map (·.key) = owner.fields.map some ∧
        List.Forall₂ (CopiedAs env owner receiver ty span overrides) owner.fields.zipIdx elements) ∧
    ∀ overrides', overrides'.Perm overrides → ∀ copy, copyStruct env owner receiver ty overrides' span = .ok copy ↔
      copyStruct env owner receiver ty overrides span = .ok copy := by
  constructor
  · intro copy
    rw [copyStruct_ok_iff hfields hnodup]
    refine and_congr_right fun _ => exists_congr fun elements => and_congr_right fun _ => (and_iff_right_of_imp ?_).symm
    intro hcopied
    rw [keys_of_copied (fun p hp => List.mem_zipIdx_iff_getElem?.mp hp) hcopied, ← List.map_map, List.zipIdx_map_fst]
  · intro overrides' hperm copy
    have hnodup' : (overrides'.map (·.field)).Nodup := (hperm.map _).nodup_iff.mpr hnodup
    rw [copyStruct_ok_iff hfields hnodup, copyStruct_ok_iff hfields hnodup']
    refine and_congr (by simp only [hperm.mem_iff]) (exists_congr fun elements => and_congr_right fun _ => ⟨?_, ?_⟩)
    · exact fun h => forall₂_copiedAs h fun _ _ _ _ => hperm.mem_iff
    · exact fun h => forall₂_copiedAs h fun _ _ _ _ => hperm.mem_iff.symm

/-- `struct Point { var x int, val y int, var z int }` -/
def point : TypeEntry :=
  { TypeEntry.new "" "Point" .struct with
    fields := ["x", "y", "z"], flags := [false, true, false], fieldTypes := List.replicate 3 (.basic "int") }

def pointsEnv : Env := ⟨{ Index.empty with types := Table.empty.insert "Point" point }, .empty, .standard⟩

/-- `p.Copy(z = 3, x = 1)` and `p.Copy(x = 1, z = 3)`. -/
theorem copyStruct_iff_point : let overrides : List Override := [⟨"z", .int 3, false⟩, ⟨"x", .int 1, false⟩]
    let copy : Expr := .composite (.named "" "Point") [⟨some "x", .int 1⟩,
      ⟨some "y", .call (.qualified "std" "Copy") [.basic "int"] [.selector (.ident "p") "y"]⟩, ⟨some "z", .int 3⟩]
    copyStruct pointsEnv point (.ident "p") (.named "" "Point") overrides .synthetic = .ok copy ∧
      copyStruct pointsEnv point (.ident "p") (.named "" "Point") overrides.reverse .synthetic = .ok copy := by
  intro overrides copy
  have h : copyStruct pointsEnv point (.ident "p") (.named "" "Point") overrides .synthetic = .ok copy := by
    with_unfolding_all rfl
  exact ⟨h, ((copyStruct_iff (by decide) (by decide) _ _ _).2 _ (List.reverse_perm _) _).mpr h⟩

end Lowering.Storage
