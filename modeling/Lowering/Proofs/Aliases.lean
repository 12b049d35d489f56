/-
  Aliases — members of a type that an alias stands for.

  Patterns expand the aliases at the head of a type before they look at it. Fields and methods are looked up under
  the name at the head as it is written, and the name of an alias finds no type, so none of them is seen
  (`behindAlias_unseen`).
-/

import Lowering.Proofs.Reordered

namespace Lowering

namespace Env

open Lower (unlocated)

variable {env : Env} {t : Ty}

def AliasesApart (env : Env) : Prop := ∀ name a, env.index.aliases.find? name = some a → env.type? name = none

theorem entry?_expanded (henv : env.AliasesApart) (h : env.expandOnce t ≠ none) : env.entry? t = none := by
  obtain ⟨t', ht⟩ := Option.ne_none_iff_exists'.mp h
  simp only [expandOnce, Option.bind_eq_bind, Option.bind_eq_some_iff] at ht
  obtain ⟨name, hname, a, ha, -⟩ := ht
  have hbase : env.entry? t.base = none := by
    generalize t.base = base at hname
    cases base with
    | basic x =>
      cases hname
      exact henv _ a ha
    | named package x =>
      simp only [Ty.leafName?] at hname
      split at hname
      · rename_i hpackage
        cases hname
        simpa [Env.entry?, Text.qualify, hpackage] using henv _ a ha
      · cases hname
    | _ => cases hname
  cases t with
  | generic base args => exact hbase
  | _ => exact hbase

theorem members_none (h : env.entry? t = none) (name : String) :
    env.field? t name = none ∧ env.methodSignature? t name = none := by
  simp only [field?, methodSignature?, method?, h, Option.bind_eq_bind, Option.bind_none, and_self]

/-! ## Programs -/

variable {program : Source.Program} {catalog : Catalog} {settings : Settings}

/-- The aliases of the program are plain names, and neither its types, variants and receivers of methods have one of
    them, nor types of other packages that are seen without a qualifier. -/
def NamesApart (env : Env) (program : Source.Program) : Prop := ∀ name ∈ program.aliasNames,
  Text.splitQualifier name = none ∧ name ∉ program.typeNames ∧ (∀ m ∈ program.methods, m.1 ≠ name) ∧
    ∀ package ∈ env.runtime :: env.dotPackages, env.catalog.type? package name = none

theorem typeNames_of_index {runtime : String} {index : Index} (h : Index.build program runtime = .ok index) :
    ∀ name e, index.types.find? name = some e → name ∈ program.typeNames ∨ ∃ m ∈ program.methods, m.1 = name := by
  have hnamed : ∀ {d : Source.Decl} {name : String}, Index.Declared program d → name ∈ d.typeNames →
      name ∈ program.typeNames := fun ⟨span, hd⟩ hname => List.mem_flatMap.mpr ⟨_, hd, hname⟩
  refine Index.types_induction h ?_ ?_ ?_ ?_
  · exact fun d hd => .inl (hnamed hd (.head _))
  · exact fun d hd v hv => .inl (hnamed hd (.tail _ (List.mem_map.mpr ⟨v, hv, rfl⟩)))
  · exact fun d hd e _ => .inl (hnamed hd (.head _))
  · rintro d receiver ⟨span, hd⟩ hreceiver e -
    refine .inr ⟨(receiver.ty.baseName, d.name.val), List.mem_flatMap.mpr ⟨_, hd, ?_⟩, rfl⟩
    simp [Source.Decl.methods, hreceiver]

theorem aliasesApart (henv : Env.ofProgram program catalog settings = .ok env) (h : env.NamesApart program) :
    env.AliasesApart := by
  intro name a ha
  obtain ⟨index, hindex, rfl⟩ := Env.ofProgram_ok henv
  obtain ⟨d, ⟨span, hd⟩, rfl, -⟩ := (Index.build_declared hindex).aliases name a ha
  obtain ⟨hplain, htypes, hmethods, hpackages⟩ := h d.name.val (List.mem_flatMap.mpr ⟨_, hd, .head _⟩)
  have hindexed : index.types.find? d.name.val = none := by
    refine Option.eq_none_iff_forall_ne_some.mpr fun e he => ?_
    rcases typeNames_of_index hindex _ e he with hname | ⟨m, hm, hname⟩
    · exact htypes hname
    · exact hmethods m hm hname
  simp only [type?, hplain, hindexed, List.findSome?_eq_none_iff.mpr hpackages]
  rfl

/-- A field is found alike in a type and in its expansion just if no alias is expanded or the expansion does not have
    the field, and the same holds of methods. -/
theorem members_expand_iff (henv : Env.ofProgram program catalog settings = .ok env) (h : env.NamesApart program)
    (t : Ty) (name : String) :
    (env.field? t name = env.field? (env.expand t) name ↔ env.expand t = t ∨ env.field? (env.expand t) name = none) ∧
      (env.methodSignature? t name = env.methodSignature? (env.expand t) name ↔
        env.expand t = t ∨ env.methodSignature? (env.expand t) name = none) := by
  by_cases hexpand : env.expand t = t
  · rw [hexpand]
    exact ⟨⟨fun _ => .inl rfl, fun _ => rfl⟩, fun _ => .inl rfl, fun _ => rfl⟩
  · -- an alias was expanded, so nothing is found under the name that is written
    have hentry := entry?_expanded (aliasesApart henv h) fun honce => hexpand (expand_eq honce)
    obtain ⟨hfield, hmethod⟩ := members_none hentry name
    rw [hfield, hmethod]
    exact ⟨⟨fun heq => .inr heq.symm, fun heq => (heq.resolve_left hexpand).symm⟩,
      fun heq => .inr heq.symm, fun heq => (heq.resolve_left hexpand).symm⟩

/-- `struct Point { x: int }`, `type P = Point` and `func (p Point) norm() int` -/
def pointAlias : Source.Program :=
  ⟨"main", [unlocated (.struct ⟨unlocated "Point", [], [⟨unlocated "x", .int, false⟩], .synthetic⟩),
    unlocated (.typeAlias ⟨unlocated "P", [], .own "Point"⟩),
    unlocated (.func ⟨unlocated "norm", [], some ⟨"p", .own "Point"⟩, [], some .int, unlocated (.lit (.int 1)), .synthetic⟩)]⟩

def pointEnv : Env := ⟨(Index.build pointAlias "std").toOption.getD .empty, .empty, .standard⟩

theorem ofProgram_pointAlias : Env.ofProgram pointAlias .empty .standard = .ok pointEnv := by with_unfolding_all rfl

theorem expand_point : pointEnv.expand (.own "P") = .own "Point" := by
  have honce : pointEnv.expandOnce (.own "P") = some (.own "Point") := by with_unfolding_all rfl
  have hdone : pointEnv.expandOnce (.own "Point") = none := by with_unfolding_all rfl
  simp only [expand, honce, expansions_done hdone]
  rfl

theorem namesApart_point : pointEnv.NamesApart pointAlias := by
  intro name hname
  obtain rfl : name = "P" := by simpa [Source.Program.aliasNames, pointAlias, Source.Decl.aliasNames, unlocated] using hname
  refine ⟨by decide, by decide, by decide, fun package _ => rfl⟩

/-- A field that the point does not have is not found behind the alias either. -/
theorem members_expand_iff_point : pointEnv.field? (.own "P") "y" = pointEnv.field? (pointEnv.expand (.own "P")) "y" ∧
    pointEnv.methodSignature? (.own "Point") "norm" =
      pointEnv.methodSignature? (pointEnv.expand (.own "Point")) "norm" := by
  have hmembers := members_expand_iff ofProgram_pointAlias namesApart_point
  exact ⟨(hmembers (.own "P") "y").1.mpr (.inr (by rw [expand_point]; with_unfolding_all rfl)),
    (hmembers (.own "Point") "norm").2.mpr (.inl (by with_unfolding_all rfl))⟩

/-- The fields and methods of the point are not seen behind its alias. -/
theorem behindAlias_unseen : Env.ofProgram pointAlias .empty .standard = .ok pointEnv ∧
    pointEnv.expand (.own "P") = .own "Point" ∧ pointEnv.expandOnce (.own "Point") = none ∧
    pointEnv.field? (.own "P") "x" = none ∧ (pointEnv.field? (.own "Point") "x").isSome ∧
    pointEnv.methodSignature? (.own "P") "norm" = none ∧ (pointEnv.methodSignature? (.own "Point") "norm").isSome := by
  refine ⟨ofProgram_pointAlias, expand_point, ?_, ?_, ?_, ?_, ?_⟩ <;> with_unfolding_all rfl

end Env

end Lowering
