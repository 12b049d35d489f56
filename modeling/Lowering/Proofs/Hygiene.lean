/-
  Hygiene — how a generic callee spells its type parameters.

  The type parameters of a callee, those of the function being lowered and the arguments of a receiver are leaves
  of the same kind, told apart by their spelling only.
-/

import Lowering.Proofs.Spelling
import Lowering.Proofs.Wrappers

namespace Lowering

variable {ρ : Renaming} {env : Env} {own : List String} {name : String}

/-! ## Environments -/

/-- The declarations of a program and of the catalog, each changed in some way. -/
def Env.change (onType : TypeEntry → TypeEntry) (onFunction : FunctionEntry → FunctionEntry) (env : Env) : Env where
  index := { env.index with types := env.index.types.map onType, functions := env.index.functions.map onFunction }
  catalog := { env.catalog with
    types := env.catalog.types.map onType
    functions := env.catalog.functions.map onFunction }
  settings := env.settings

namespace Callee

/-- The callee's signature with the names in its types exchanged, if it is this function. -/
def renameFunction (ρ : Renaming) : Callee → FunctionEntry → FunctionEntry
  | .function f, g => if g.qualifiedName = f.qualifiedName then g.rename ρ else g
  | _, g => g

/-- The same if it is a method of this type. Its fields and its other methods are left alone. -/
def renameMethod (ρ : Renaming) : Callee → TypeEntry → TypeEntry
  | .method _ owner name _, e =>
    match e.methods.find? name with
    | some m => if e.qualifiedName = owner.qualifiedName then { e with methods := e.methods.insert name (m.rename ρ) } else e
    | none => e
  | _, e => e

end Callee

/-- Names that something is looked up by stay, and so do aliases. -/
structure Env.Stays (ρ : Renaming) (env : Env) : Prop where
  runtime : ρ.name env.runtime = env.runtime
  types : ∀ name e, env.type? name = some e → ρ.name name = name ∧ (env.typeRef e).rename ρ = env.typeRef e
  targets : ∀ name c, env.companion? name = some c → ρ.name (Text.bareName c.target) = Text.bareName c.target
  aliases : ∀ name a, env.index.aliases.find? name = some a →
    ρ.name name = name ∧ a.typeParams.map ρ.name = a.typeParams ∧ a.target.rename ρ = a.target

/-- No declaration but that of the callee has a name in it that is exchanged. -/
structure Env.Spares (ρ : Renaming) (callee : Callee) (env : Env) : Prop where
  types : ∀ name e, env.type? name = some e → e.rename ρ = callee.renameMethod ρ e
  functions : ∀ name f, env.function? name = some f → f.rename ρ = callee.renameFunction ρ f

section

variable {onType : TypeEntry → TypeEntry} {onFunction : FunctionEntry → FunctionEntry}

end

def Unifier.Apart (params : List String) (s : Substitution) : Prop := ∀ x t, s.find? x = some t → t.mentions params = false

variable {args : List (Option ArgTyping)} {explicit params : List Ty}

namespace Ty

/-- At this very node the names stay, or one is among `own`. -/
def Settled (ρ : Renaming) (own : List String) : Ty → Prop
  | .basic name => ρ.name name = name ∨ name ∈ own
  | .named package name => ρ.name package = package ∧ ρ.name name = name ∨ package = "" ∧ name ∈ own
  | _ => True

/-- Every name in the type stays, apart from those among `own`. -/
def Within (ρ : Renaming) (own : List String) (t : Ty) : Prop := t.Every (Settled ρ own)

variable {own : List String} {s : Substitution}

theorem leafwise_within : Leafwise (Within ρ own) :=
  .every fun t ht => by
    cases t with
    | generic | array | pointer | map | func => trivial
    | _ => cases ht

theorem within_of_stays (t : Ty) : t.rename ρ = t → t.Within ρ own := by
  refine ((keepsShape_rename ρ).eq .id).imp leafwise_within (fun l hl h => (every_leaf hl).mpr ?_) t
  cases l with
  | basic name => exact .inl (basic.inj h)
  | named package name => exact .inl (named.inj h)
  | any | nil | void => trivial
  | _ => cases hl

end Ty

def Renaming.within (ρ : Renaming) (own : List String) : Rule := { ρ.stays with ty := Ty.Within ρ own }

/-- Names that a renaming moves occur in declarations only where they are among `own`. -/
structure Env.Within (ρ : Renaming) (own : List String) (env : Env) : Prop where
  types : ∀ name e, env.type? name = some e → (ρ.within own).Entry e
  functions : ∀ name f, env.function? name = some f → (ρ.within own).Signature f.typeParams f.params f.result

theorem Env.Stays.closed (h : env.Stays ρ) (hwithin : env.Within ρ own) : (ρ.within own).Closed env where
  builtin _ hname := Ty.within_of_stays _ (Ty.builtin_rename ρ hname)
  any := Ty.within_of_stays _ rfl
  nil := Ty.within_of_stays _ rfl
  void := Ty.within_of_stays _ rfl
  args := Ty.leafwise_within.args
  array := (Ty.leafwise_within.array _).mp
  pointer := (Ty.leafwise_within.pointer _).mp
  map := (Ty.leafwise_within.map _ _).mp
  func := Ty.leafwise_within.func _ _
  tuple {elems} helems := by
    have hbase : (Ty.named env.runtime (Ty.tupleName elems.length)).rename ρ =
        .named env.runtime (Ty.tupleName elems.length) :=
      congrArg₂ Ty.named h.runtime (ρ.name_reserved (.inr ⟨_, rfl⟩))
    exact Ty.leafwise_within.apply (Ty.within_of_stays _ hbase) helems
  built {name e args} he _ hargs := Ty.leafwise_within.apply (Ty.within_of_stays _ (h.types name e he).2) hargs
  subst hs ht := Ty.leafwise_within.subst (fun x a ha => (hs x a ha).2) _ ht
  entry he := hwithin.types _ _ he
  function _ hf := hwithin.functions _ _ hf
  expansion ha := ⟨fun _ _ => trivial, Ty.within_of_stays _ (h.aliases _ _ ha).2.2⟩

/-! ## Calls -/

def Callee.ownParams : Callee → Option (List String)
  | .function f => some f.typeParams
  | .method _ _ _ m => some m.typeParams
  | _ => none

theorem Substitution.find?_ofParams {params : List String} {args : List Ty} (h : args.length = params.length)
    {x : String} (hx : x ∈ params) : ((Substitution.ofParams params args).find? x).isSome := by
  have hfold : ∀ (pairs : List (String × Ty)) (s : Substitution), (∃ p ∈ pairs, p.1 = x) ∨ (s.find? x).isSome →
      ((pairs.foldl (fun t pair => t.insert pair.1 pair.2) s).find? x).isSome := by
    intro pairs
    induction pairs with
    | nil =>
      rintro s (⟨p, hp, -⟩ | hs)
      · cases hp
      · exact hs
    | cons pair pairs ih =>
      intro s hs
      refine ih _ ?_
      rcases hs with ⟨p, hp, rfl⟩ | hs
      · rcases List.mem_cons.mp hp with rfl | hp
        · exact .inr (by simp)
        · exact .inl ⟨p, hp, rfl⟩
      · by_cases hpair : x = pair.1
        · exact .inr (by simp [hpair])
        · exact .inr (by simpa [hpair] using hs)
  refine hfold _ _ (.inl ?_)
  obtain ⟨i, hi, rfl⟩ := List.mem_iff_getElem.mp hx
  refine ⟨(params[i], args[i]), ?_, rfl⟩
  rw [List.mem_iff_getElem]
  exact ⟨i, by simpa [h] using hi, by simp⟩

section

variable {own : List String}

end

theorem Text.unseparated_of_all {word : List Char} (h : word.all (fun c => !Text.isSeparator c) = true) :
    ∀ c ∈ word, Text.isSeparator c = false := by
  simpa using h

theorem Ty.Reserved.unseparated (h : Reserved name) : ∀ c ∈ name.toList, Text.isSeparator c = false := by
  rcases h with h | ⟨arity, rfl⟩
  · refine Text.unseparated_of_all ?_
    revert name
    decide
  · have hdigits : ∀ c ∈ (toString arity).toList, Text.isSeparator c = false := by
      intro c hc
      rw [Nat.toString_eq_repr, Nat.toList_repr] at hc
      exact Text.isSeparator_of_isDigit (Nat.isDigit_of_mem_toDigits (by decide) (by decide) hc)
    unfold tupleName
    split
    · exact Text.unseparated_of_all (by decide)
    · rw [String.toList_append, List.forall_mem_append]
      exact ⟨Text.unseparated_of_all (by decide), hdigits⟩

section

end

end Lowering
