/-
  Arranged — arguments by name.

  Named arguments are placed one after the other, each into the slot of the parameter of its name. With distinct
  parameters the slots are the values, at the parameters, of a map from names to what is placed.
-/

import Lowering.Proofs.Frame
import Mathlib.Data.List.Nodup
import Mathlib.Logic.Function.Basic

namespace Lowering

section

variable {α : Type} {names : List String} {args args' : List (NamedArg α)} {slots slots' : List (Option α)}
  {f : String → Option α} {name : Located String} {x : String} {a : α} {span : Span}

def argNames (args : List (NamedArg α)) : List String := args.filterMap fun arg => arg.1.map (·.val)

def argNamed? (args : List (NamedArg α)) (x : String) : Option α :=
  (args.find? fun arg => arg.1.any (·.val == x)).map (·.2)

theorem argNamed?_cons : argNamed? ((some name, a) :: args) x = if name.val = x then some a else argNamed? args x := by
  by_cases h : name.val = x <;> simp [argNamed?, h]

theorem argNamed?_eq_some_iff (h : (argNames args).Nodup) :
    argNamed? args x = some a ↔ ∃ name, (some name, a) ∈ args ∧ name.val = x := by
  induction args with
  | nil => simp [argNamed?]
  | cons arg args ih =>
    obtain ⟨_ | name, b⟩ := arg
    · simpa [argNamed?] using ih (by simpa [argNames] using h)
    · have h : name.val ∉ argNames args ∧ (argNames args).Nodup := by simpa [argNames] using h
      rw [argNamed?_cons]
      by_cases hx : name.val = x
      · have hlater : ∀ other, (some other, a) ∈ args → other.val ≠ x := by
          rintro other hmem rfl
          exact h.1 (List.mem_filterMap.mpr ⟨_, hmem, by rw [hx]; rfl⟩)
        simp only [hx, if_true, Option.some.injEq, List.mem_cons, Prod.mk.injEq]
        constructor
        · rintro rfl
          exact ⟨name, .inl ⟨rfl, rfl⟩, hx⟩
        · rintro ⟨other, ⟨-, rfl⟩ | hmem, hother⟩
          · rfl
          · exact absurd hother (hlater other hmem)
      · rw [if_neg hx, ih h.2]
        refine exists_congr fun other => and_congr_left fun hother => ?_
        rw [List.mem_cons, Prod.mk.injEq, Option.some.injEq]
        exact (or_iff_right (by rintro ⟨rfl, -⟩; exact hx hother)).symm

theorem argNamed?_perm (h : (argNames args).Nodup) (hperm : args'.Perm args) : argNamed? args' = argNamed? args := by
  have h' : (argNames args').Nodup := (hperm.filterMap _).nodup_iff.mpr h
  ext a
  simp only [argNamed?_eq_some_iff h, argNamed?_eq_some_iff h', hperm.mem_iff]

/-! ## One argument -/

theorem map_update (hnames : names.Nodup) {i : Nat} (hi : names[i]? = some x) (b : Option α) :
    names.map (Function.update f x b) = (names.map f).set i b := by
  obtain ⟨hlt, rfl⟩ := List.getElem?_eq_some_iff.mp hi
  refine List.ext_getElem (by simp) fun j hj _ => ?_
  simp [List.getElem_set, Function.update_apply, hnames.getElem_inj_iff, eq_comm]

theorem placeArg_iff (hnames : names.Nodup) : placeArg names (names.map f) name a = .ok slots ↔
    (name.val ∈ names ∧ f name.val = none) ∧ slots = names.map (Function.update f name.val (some a)) := by
  unfold placeArg
  cases hfind : names.findIdx? (· == name.val) with
  | none =>
    have hnot : name.val ∉ names := fun hmem => by simpa using List.findIdx?_eq_none_iff.mp hfind _ hmem
    simp [hnot, Fault.raise]
  | some i =>
    have hi : names[i]? = some name.val := by
      obtain ⟨hlt, heq, -⟩ := List.findIdx?_eq_some_iff_getElem.mp hfind
      simpa [hlt] using heq
    simp only [List.getElem?_map, hi, Option.map_some, List.mem_of_getElem? hi, true_and, map_update hnames hi]
    cases f name.val with
    | none => simp [Pure.pure, Except.pure, eq_comm]
    | some b => simp [Fault.raise]

theorem filled_set {i : Nat} (h : slots[i]? = some none) :
    ((slots.set i (some a)).filterMap id).Perm (a :: slots.filterMap id) := by
  induction slots generalizing i with
  | nil => cases h
  | cons slot slots ih =>
    cases i with
    | zero =>
      cases h
      exact .refl _
    | succ i =>
      have hrest := ih h
      cases slot with
      | none => exact hrest
      | some b => exact (hrest.cons b).trans (.swap a b _)

theorem placeArg_filled (h : placeArg names slots name a = .ok slots') :
    (slots'.filterMap id).Perm (a :: slots.filterMap id) := by
  unfold placeArg at h
  split at h
  · cases h
  · split at h
    · rename_i hslot
      cases h
      exact filled_set hslot
    · cases h

/-! ## All arguments -/

theorem placeArgs_iff (hnames : names.Nodup) (hargs : ∀ arg ∈ args, arg.1.isSome = true) :
    placeArgs names (names.map f) args = .ok slots ↔ (∀ x ∈ argNames args, x ∈ names ∧ f x = none) ∧
      (argNames args).Nodup ∧ slots = names.map fun x => (f x).or (argNamed? args x) := by
  induction args generalizing f with
  | nil => simp [placeArgs, argNames, argNamed?, Pure.pure, Except.pure, eq_comm]
  | cons arg args ih =>
    obtain ⟨hnamed, hlater⟩ := List.forall_mem_cons.mp hargs
    obtain ⟨_ | name, a⟩ := arg
    · cases hnamed
    have hnames' : argNames ((some name, a) :: args) = name.val :: argNames args := rfl
    simp only [placeArgs, except_bind_ok, placeArg_iff hnames, hnames', List.forall_mem_cons, List.nodup_cons]
    -- what the later arguments find empty is what they found empty before, but for this one's slot
    have hempty : ∀ x, Function.update f name.val (some a) x = none ↔ x ≠ name.val ∧ f x = none := by
      intro x
      by_cases hx : x = name.val <;> simp [hx]
    have hvalue : f name.val = none → (fun x => (Function.update f name.val (some a) x).or (argNamed? args x)) =
        fun x => (f x).or (argNamed? ((some name, a) :: args) x) := by
      intro hnone
      funext x
      rw [argNamed?_cons]
      by_cases hx : name.val = x
      · subst hx
        simp [hnone]
      · simp [Ne.symm hx, hx]
    constructor
    · rintro ⟨_, ⟨⟨hmem, hnone⟩, rfl⟩, hrest⟩
      obtain ⟨hall, hnodup, rfl⟩ := (ih hlater).mp hrest
      rw [hvalue hnone]
      refine ⟨⟨⟨hmem, hnone⟩, fun x hx => ⟨(hall x hx).1, ((hempty x).mp (hall x hx).2).2⟩⟩, ⟨fun hx => ?_, hnodup⟩, rfl⟩
      exact ((hempty _).mp (hall _ hx).2).1 rfl
    · rintro ⟨⟨⟨hmem, hnone⟩, hall⟩, ⟨hnot, hnodup⟩, rfl⟩
      refine ⟨_, ⟨⟨hmem, hnone⟩, rfl⟩, (ih hlater).mpr ⟨fun x hx => ⟨(hall x hx).1, (hempty x).mpr ⟨?_, (hall x hx).2⟩⟩,
        hnodup, by rw [hvalue hnone]⟩⟩
      rintro rfl
      exact hnot hx

theorem placeArgs_filled (hargs : ∀ arg ∈ args, arg.1.isSome = true) (h : placeArgs names slots args = .ok slots') :
    (slots'.filterMap id).Perm (args.map (·.2) ++ slots.filterMap id) := by
  induction args generalizing slots with
  | nil =>
    cases h
    exact .refl _
  | cons arg args ih =>
    obtain ⟨hnamed, hlater⟩ := List.forall_mem_cons.mp hargs
    obtain ⟨_ | name, a⟩ := arg
    · cases hnamed
    obtain ⟨slots1, hplace, hrest⟩ := checked_bind_ok h
    have hone := (placeArg_filled hplace).append_left (args.map (·.2))
    exact (ih hlater hrest).trans (hone.trans List.perm_middle)

theorem arrange_iff (hnames : names.Nodup) (hnamed : ∃ arg ∈ args, arg.1.isSome = true) :
    arrange names args span = .ok slots ↔ (∀ arg ∈ args, arg.1.isSome = true) ∧ (∀ x ∈ argNames args, x ∈ names) ∧
      (argNames args).Nodup ∧ slots = names.map (argNamed? args) := by
  have hsome : args.all (·.1.isNone) = false := by
    obtain ⟨arg, hmem, hnamed⟩ := hnamed
    exact List.all_eq_false.mpr ⟨arg, hmem, by simp [Option.isSome_iff_ne_none.mp hnamed]⟩
  unfold arrange
  rw [hsome]
  by_cases hall : ∀ arg ∈ args, arg.1.isSome = true
  · have hnone : args.any (·.1.isNone) = false := by simpa [Option.isSome_iff_ne_none] using hall
    have hstart : List.replicate names.length none = names.map fun _ => (none : Option α) := by simp
    rw [hnone, hstart, if_neg (by simp), if_neg (by simp), placeArgs_iff hnames hall, and_iff_right hall]
    simp
  · have hmixed : args.any (·.1.isNone) = true := by simpa [Option.isSome_iff_ne_none] using hall
    rw [hmixed]
    simp only [hall, Fault.raise, Bool.false_eq_true, if_false, if_true, reduceCtorEq, false_and]

end

/-- With distinct parameters and a named argument: the arguments are arranged just if all are named, each by a
    parameter and no two alike. Then each slot holds the argument named like its parameter, if there is one, the
    slots hold each argument once, and arguments in another order are arranged alike. -/
theorem arrange_named {α : Type} {names : List String} {args : List (NamedArg α)} (hnames : names.Nodup)
    (hnamed : ∃ arg ∈ args, arg.1.isSome = true) (span : Span) :
    ((∃ slots, arrange names args span = .ok slots) ↔
      (∀ arg ∈ args, arg.1.isSome = true) ∧ (∀ x ∈ argNames args, x ∈ names) ∧ (argNames args).Nodup) ∧
    ∀ slots, arrange names args span = .ok slots →
      slots = names.map (argNamed? args) ∧ (slots.filterMap id).Perm (args.map (·.2)) ∧
        ∀ args', args'.Perm args → arrange names args' span = .ok slots := by
  refine ⟨⟨?_, ?_⟩, fun slots h => ?_⟩
  · rintro ⟨slots, h⟩
    obtain ⟨hall, hknown, hnodup, -⟩ := (arrange_iff hnames hnamed).mp h
    exact ⟨hall, hknown, hnodup⟩
  · rintro ⟨hall, hknown, hnodup⟩
    exact ⟨_, (arrange_iff hnames hnamed).mpr ⟨hall, hknown, hnodup, rfl⟩⟩
  · obtain ⟨hall, hknown, hnodup, rfl⟩ := (arrange_iff hnames hnamed).mp h
    have hplaced : placeArgs names (names.map fun _ => none) args = .ok (names.map (argNamed? args)) :=
      (placeArgs_iff hnames hall).mpr ⟨fun x hx => ⟨hknown x hx, rfl⟩, hnodup, by simp⟩
    refine ⟨rfl, by simpa using placeArgs_filled hall hplaced, fun args' hperm => ?_⟩
    obtain ⟨arg, hmem, hsome⟩ := hnamed
    have hnodup' : (argNames args').Nodup := (hperm.filterMap _).nodup_iff.mpr hnodup
    refine (arrange_iff hnames ⟨arg, hperm.mem_iff.mpr hmem, hsome⟩).mpr ⟨fun arg harg => hall arg (hperm.mem_iff.mp harg),
      fun x hx => hknown x ((hperm.filterMap _).mem_iff.mp hx), hnodup', ?_⟩
    rw [argNamed?_perm hnodup hperm]

/-- Two of three parameters, given the other way round. -/
theorem arrange_named_two : let args : List (NamedArg Nat) :=
      [(some ⟨"z", .synthetic⟩, 1), (some ⟨"x", .synthetic⟩, 2)]
    arrange ["x", "y", "z"] args .synthetic = .ok [some 2, none, some 1] ∧
      arrange ["x", "y", "z"] args.reverse .synthetic = .ok [some 2, none, some 1] :=
  ⟨rfl, ((arrange_named (by decide) ⟨_, .head _, rfl⟩ _).2 _ rfl).2.2 _ (List.reverse_perm _)⟩

end Lowering
