/-
  Supply — the names that lowering makes up.

  Temporaries are a stem from the settings and a number, the flags of matches `_matched` and a number. Each
  counter only moves on, so two temporaries are never the same name and neither are two flags.
-/

import Lowering.Proofs.FirstMatch
import Lowering.Proofs.Lowered

namespace Lowering

open Lower (flagName unlocated)
open Target (Node Stmt)

/-! ## Drawing names -/

namespace NameSupply

/-- The names drawn from the supply on the way to another, temporaries first. -/
def drawn (s s' : NameSupply) : List String :=
  (List.range' s.next (s'.next - s.next)).map (fun n => s.stem ++ toString n) ++
    (List.range' s.matched (s'.matched - s.matched)).map flagName

theorem drawn_self : drawn s s = [] := by simp [drawn]

theorem drawn_fresh (s : NameSupply) : drawn s s.fresh.2 = [s.fresh.1] := by simp [drawn, fresh]

theorem drawn_freshFlag : drawn s s.freshFlag.2 = [s.freshFlag.1] := by
  simp [drawn, freshFlag, flagName]

variable {s : NameSupply} {x : String}

theorem mem_drawn {s' : NameSupply} (hx : x ∈ drawn s s') :
    (∃ n, s.next ≤ n ∧ x = s.stem ++ toString n) ∨ ∃ n, s.matched ≤ n ∧ x = flagName n := by
  rcases List.mem_append.mp hx with hx | hx
  · obtain ⟨n, hn, rfl⟩ := List.mem_map.mp hx
    exact .inl ⟨n, (List.mem_range'_1.mp hn).1, rfl⟩
  · obtain ⟨n, hn, rfl⟩ := List.mem_map.mp hx
    exact .inr ⟨n, (List.mem_range'_1.mp hn).1, rfl⟩

theorem range'_split {a b c : Nat} (hab : a ≤ b) (hbc : b ≤ c) :
    List.range' a (c - a) = List.range' a (b - a) ++ List.range' b (c - b) := by
  have happend := List.range'_append_1 (s := a) (m := b - a) (n := c - b)
  rw [show a + (b - a) = b by omega, show b - a + (c - b) = c - a by omega] at happend
  exact happend.symm

theorem drawn_perm {s1 s2 : NameSupply} (h : Grows s s1) (h' : Grows s1 s2) :
    (drawn s s2).Perm (drawn s s1 ++ drawn s1 s2) := by
  simp only [drawn, h.stem, range'_split h.next h'.next, range'_split h.matched h'.matched, List.map_append]
  simp only [List.append_assoc]
  refine (List.Perm.refl _).append ?_
  rw [← List.append_assoc, ← List.append_assoc]
  exact List.perm_append_comm.append (List.Perm.refl _)

def Apart (stem : String) : Prop := ∀ i j : Nat, stem ++ toString i ≠ flagName j

theorem nodup_drawn (h : Apart s.stem) (s' : NameSupply) : (drawn s s').Nodup := by
  refine List.nodup_append.mpr ⟨?_, ?_, ?_⟩
  · exact List.pairwise_map.mpr (List.Pairwise.imp (fun hne heq => hne (numbered_inj heq)) List.nodup_range')
  · exact List.pairwise_map.mpr (List.Pairwise.imp (fun hne heq => hne (Lower.flagName_inj heq)) List.nodup_range')
  · intro x hx y hy
    obtain ⟨i, -, rfl⟩ := List.mem_map.mp hx
    obtain ⟨j, -, rfl⟩ := List.mem_map.mp hy
    exact h i j

def IsNumbered (stem x : String) : Prop := ∃ n : Nat, x = stem ++ toString n ∨ x = flagName n

theorem isNumbered_of_mem_drawn {s' : NameSupply} (hx : x ∈ drawn s s') : IsNumbered s.stem x := by
  rcases mem_drawn hx with ⟨n, -, rfl⟩ | ⟨n, -, rfl⟩
  · exact ⟨n, .inl rfl⟩
  · exact ⟨n, .inr rfl⟩

end NameSupply

/-! ## The names of a lowered file -/

def Source.Program.Introduces (program : Source.Program) (x : String) : Prop :=
  ∃ i ∈ program.items, i.introduces x = true

def IsKnown (program : Source.Program) (stem x : String) : Prop :=
  x = "_" ∨ program.Introduces x ∨ NameSupply.IsNumbered stem x

section

variable {program : Source.Program} {stem : String}

variable {x : String} {n : Node}

end

theorem apart_standard : NameSupply.Apart Settings.standard.tempStem := by
  intro i j heq
  have hhead := Lower.flagName_head j
  rw [← heq] at hhead
  simp [Settings.standard] at hhead

theorem blank_of_isNumbered (h : NameSupply.IsNumbered Settings.standard.tempStem x) : x.toList.head? = some '_' := by
  obtain ⟨n, rfl | rfl⟩ := h <;> simp [Settings.standard, flagName]

end Lowering
