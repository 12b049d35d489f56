/-
  Substituted — the laws of substitution.

  Two substitutions after one another are one (`Substitution.comp`), and a substitution touches only what it has keys for.
-/

import Lowering.Proofs.Respelled

namespace Lowering

/-- First `s`, then `r`: a key of `s` goes to its image under `r`, every other key where `r` sends it. -/
def Substitution.comp (s r : Substitution) : Substitution := Table.onto r (s.map (Ty.subst r))

namespace Ty

variable {s r : Substitution}

theorem subst_leaf_comp {l : Ty} (hl : l.isLeaf = true) : (l.subst s).subst r = l.subst (s.comp r) := by
  rw [subst_leaf hl, subst_leaf hl]
  cases hx : l.leafName? with
  | none => simp [subst_leaf hl, hx]
  | some x =>
    simp only [Option.bind_some, Substitution.comp, Table.find?_onto, Table.find?_map]
    cases hfind : s.find? x with
    | none => simp [subst_leaf hl, hx]
    | some u => rfl

theorem subst_leaf_unmentioned (hs : ∀ x u, s.find? x = some u → u.mentions s.keys = false) {l : Ty}
    (hl : l.isLeaf = true) : (l.subst s).mentions s.keys = false := by
  rw [subst_leaf hl]
  cases hfind : l.leafName?.bind s.find? with
  | some u =>
    obtain ⟨x, -, hx⟩ := Option.bind_eq_some_iff.mp hfind
    exact hs x u hx
  | none =>
    rw [Option.getD_none, mentions_leaf hl]
    cases hx : l.leafName? with
    | none => rfl
    | some x => simpa [hx, Table.find?_eq_none] using hfind

/-- Two substitutions in a row are their composition. One that mentions nothing of the type leaves it alone, and after
    one that puts in none of the names it replaces, none of them is left. -/
theorem subst_laws (t : Ty) (s r : Substitution) :
    (t.subst s).subst r = t.subst (s.comp r) ∧ (t.mentions s.keys = false → t.subst s = t) ∧
      ((∀ x u, s.find? x = some u → u.mentions s.keys = false) → (t.subst s).mentions s.keys = false) := by
  refine ⟨?_, subst_of_unmentioned (fun x hx => Table.find?_eq_none.mpr hx), fun hs => ?_⟩
  · exact ((keepsShape_subst.comp keepsShape_subst).eq keepsShape_subst).all (fun l hl => subst_leaf_comp hl) t
  · exact (leafwise_unmentioned.comp keepsShape_subst).all (fun l hl => subst_leaf_unmentioned hs hl) t

/-- A type parameter that is replaced by what the next substitution replaces. -/
theorem subst_laws_chained :
    let s := Substitution.ofParams ["K", "T"] [.any, .array (.basic "U")]
    let r := Substitution.ofParams ["K", "U"] [.basic "int", .basic "string"]
    let t := Ty.map (.named "" "K") (.generic (.named "std" "T") [.basic "T"])
    (∀ x u, s.find? x = some u → u.mentions s.keys = false) ∧ (t.subst s).mentions s.keys = false ∧
      (t.subst s).subst s = t.subst s ∧ (t.subst s).subst r = t.subst (s.comp r) := by
  intro s r t
  have hs : ∀ entry ∈ s.entries, entry.2.mentions s.keys = false := by decide +kernel
  have himages : ∀ x u, s.find? x = some u → u.mentions s.keys = false := fun x u h => hs _ (Table.mem_entries h)
  have hclean := (subst_laws t s r).2.2 himages
  exact ⟨himages, hclean, (subst_laws (t.subst s) s r).2.1 hclean, (subst_laws t s r).1⟩

end Ty

end Lowering
