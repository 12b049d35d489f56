/-
  Text.Order — the order of names.

  Names are ordered by their code points, first difference first; a name stands before its own extensions. The
  order is strict and total (`before_trans`, `before_total`).
-/

namespace Lowering.Text

def charsBefore : List Char → List Char → Bool
  | _, [] => false
  | [], _ :: _ => true
  | a :: as, b :: bs => a.toNat < b.toNat || (a == b && charsBefore as bs)

def before (s t : String) : Bool := charsBefore s.toList t.toList

theorem charsBefore_irrefl (as : List Char) : charsBefore as as = false := by
  induction as with
  | nil => rfl
  | cons a as ih => simp [charsBefore, ih]

theorem charsBefore_trans {as bs cs : List Char} (hab : charsBefore as bs = true)
    (hbc : charsBefore bs cs = true) : charsBefore as cs = true := by
  induction as generalizing bs cs with
  | nil =>
    cases bs with
    | nil => simp [charsBefore] at hab
    | cons b bs =>
      cases cs with
      | nil => simp [charsBefore] at hbc
      | cons c cs => rfl
  | cons a as ih =>
    cases bs with
    | nil => simp [charsBefore] at hab
    | cons b bs =>
      cases cs with
      | nil => simp [charsBefore] at hbc
      | cons c cs =>
        simp only [charsBefore, Bool.or_eq_true, decide_eq_true_eq, Bool.and_eq_true, beq_iff_eq] at hab hbc ⊢
        rcases hab with hab | ⟨rfl, hab⟩
        · rcases hbc with hbc | ⟨rfl, _⟩
          · exact .inl (Nat.lt_trans hab hbc)
          · exact .inl hab
        · rcases hbc with hbc | ⟨rfl, hbc⟩
          · exact .inl hbc
          · exact .inr ⟨rfl, ih hab hbc⟩

theorem charsBefore_total {as bs : List Char} (h : charsBefore as bs = false) (hne : as ≠ bs) :
    charsBefore bs as = true := by
  induction as generalizing bs with
  | nil =>
    cases bs with
    | nil => exact absurd rfl hne
    | cons b bs => simp [charsBefore] at h
  | cons a as ih =>
    cases bs with
    | nil => rfl
    | cons b bs =>
      simp only [charsBefore, Bool.or_eq_false_iff, decide_eq_false_iff_not, Bool.and_eq_false_iff,
        Bool.or_eq_true, decide_eq_true_eq, Bool.and_eq_true, beq_iff_eq] at h ⊢
      by_cases hab : a = b
      · subst hab
        refine .inr ⟨rfl, ih ?_ (fun he => hne (by rw [he]))⟩
        rcases h.2 with h2 | h2
        · simp at h2
        · exact h2
      · refine .inl (Nat.lt_of_le_of_ne (Nat.le_of_not_lt h.1) (fun he => hab ?_))
        exact (Char.ext (UInt32.toNat_inj.mp he)).symm

theorem before_irrefl (s : String) : before s s = false := charsBefore_irrefl _

theorem before_trans {s t u : String} (hst : before s t = true) (htu : before t u = true) :
    before s u = true := charsBefore_trans hst htu

theorem before_total {s t : String} (h : before s t = false) (hne : s ≠ t) : before t s = true :=
  charsBefore_total h (fun he => hne (String.toList_inj.mp he))

end Lowering.Text
