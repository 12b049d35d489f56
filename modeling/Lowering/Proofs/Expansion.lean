/-
  Expansion — expanding aliases to the end.

  A step replaces the parameters of the alias by the arguments of the type, so the next alias at the head may be
  one that the target writes or one that an argument brings along.
-/

import Lowering.Lower.Program
import Lowering.Proofs.Leaves
import Mathlib.Order.WellFoundedSet

namespace Lowering

namespace Env

variable {env env' : Env} {t : Ty} {ts : List Ty}

/-! ## Steps -/

theorem expand_eq (h : env.expandOnce t = none) : env.expand t = t := by
  unfold expand
  rw [h]

theorem expansions_done (h : env.expandOnce t = none) : env.expansions t = some [t] := by
  rw [expansions, Ty.expansions, h]

theorem expansions_step (h : env.expandOnce t = some next) :
    env.expansions t = (env.expansions next).map (t :: ·) := by
  rw [expansions, Ty.expansions, h]
  exact Option.map_eq_bind.symm

theorem expansions_induction {motive : Ty → List Ty → Prop} (done : ∀ t, env.expandOnce t = none → motive t [t])
    (step : ∀ t next later, env.expandOnce t = some next → motive next later → motive t (t :: later))
    (h : env.expansions t = some ts) : motive t ts := by
  refine Ty.expansions.partial_correctness (fun t env' ts => env' = env → motive t ts) ?_ t env ts h rfl
  rintro expansions ih t _ ts hrun rfl
  split at hrun
  · rename_i honce
    cases hrun
    exact done t honce
  · rename_i next honce
    obtain ⟨later, hlater, hrun⟩ := Option.bind_eq_some_iff.mp hrun
    cases hrun
    exact step t next later honce (ih next _ later hlater rfl)

theorem expand_of_expansions (h : env.expansions t = some ts) :
    ts.getLast? = some (env.expand t) ∧ env.expandOnce (env.expand t) = none := by
  suffices ∃ last, ts.getLast? = some last ∧ env.expandOnce last = none ∧ env.expand t = last by
    obtain ⟨last, hlast, hdone, rfl⟩ := this
    exact ⟨hlast, hdone⟩
  refine expansions_induction (motive := fun t ts => env.expansions t = some ts →
    ∃ last, ts.getLast? = some last ∧ env.expandOnce last = none ∧ env.expand t = last) ?_ ?_ h h
  · exact fun t honce _ => ⟨t, rfl, honce, expand_eq honce⟩
  · intro t next later honce ih h
    rw [expansions_step honce] at h
    obtain ⟨later', hlater, heq⟩ := Option.map_eq_some_iff.mp h
    cases heq
    obtain ⟨last, hlast, hdone, -⟩ := ih hlater
    refine ⟨last, by simp [List.getLast?_cons, hlast], hdone, ?_⟩
    simp only [expand, honce, hlater, Option.bind_some, hlast, Option.getD_some]

theorem expand_induction {P : Ty → Prop} (hstep : ∀ t next, env.expandOnce t = some next → P t → P next)
    (ht : P t) : P (env.expand t) := by
  have hall : ∀ {t ts}, env.expansions t = some ts → P t → ∀ u ∈ ts, P u := by
    intro t ts h
    refine expansions_induction (motive := fun t ts => P t → ∀ u ∈ ts, P u) ?_ ?_ h
    · exact fun t _ ht => List.forall_mem_singleton.mpr ht
    · exact fun t next later honce ih ht => List.forall_mem_cons.mpr ⟨ht, ih (hstep t next honce ht)⟩
  cases hts : env.expansions t with
  | some ts => exact hall hts ht _ (List.mem_of_getLast? (expand_of_expansions hts).1)
  | none =>
    unfold expand
    split
    · exact ht
    · rename_i next honce
      rw [expansions_step honce, Option.map_eq_none_iff] at hts
      rw [hts]
      exact ht

section

variable {f : Ty → Ty} (hf : ∀ t, env'.expandOnce (f t) = (env.expandOnce t).map f)
include hf

theorem expansions_map (t : Ty) : env'.expansions (f t) = (env.expansions t).map (List.map f) := by
  have hto : ∀ {t ts}, env.expansions t = some ts → env'.expansions (f t) = some (ts.map f) := by
    intro t ts h
    refine expansions_induction (motive := fun t ts => env'.expansions (f t) = some (ts.map f)) ?_ ?_ h
    · exact fun t honce => expansions_done (by rw [hf, honce]; rfl)
    · intro t next later honce ih
      rw [expansions_step ((hf t).trans (congrArg _ honce)), ih]
      rfl
  have hfrom : ∀ {u us}, env'.expansions u = some us → ∀ t, u = f t → env.expansions t ≠ none := by
    intro u us h
    refine expansions_induction (motive := fun u _ => ∀ t, u = f t → env.expansions t ≠ none) ?_ ?_ h
    · rintro _ honce t rfl
      rw [hf, Option.map_eq_none_iff] at honce
      rw [expansions_done honce]
      nofun
    · rintro _ next later honce ih t rfl
      rw [hf] at honce
      obtain ⟨t', ht', rfl⟩ := Option.map_eq_some_iff.mp honce
      rw [expansions_step ht', ne_eq, Option.map_eq_none_iff]
      exact ih t' rfl
  cases h : env.expansions t with
  | some ts => exact hto h
  | none =>
    refine Option.eq_none_iff_forall_ne_some.mpr fun us hus => ?_
    exact hfrom hus t rfl h

theorem expand_map : env'.expand (f t) = f (env.expand t) := by
  unfold expand
  rw [hf]
  cases env.expandOnce t with
  | none => rfl
  | some next =>
    simp only [Option.map_some, expansions_map hf]
    cases env.expansions next with
    | none => rfl
    | some ts =>
      simp only [Option.map_some, Option.bind_some, List.getLast?_map]
      cases ts.getLast? <;> rfl

end

end Env

namespace Ty

def applies (params : List String) : Ty → Bool
  | .generic base _ => base.isParam params
  | _ => false

theorem base_leaf {t : Ty} (h : t.isLeaf = true) : t.base = t := by
  cases t <;> first | rfl | cases h

theorem args_leaf {t : Ty} (h : t.isLeaf = true) : t.args = [] := by
  cases t <;> first | rfl | cases h

theorem mentions_leafName {t : Ty} (h : t.leafName? = some name) : t.mentions [name] = true := by
  cases t with
  | basic =>
    cases h
    simp [mentions]
  | named =>
    simp only [leafName?, Option.ite_none_right_eq_some, Option.some.injEq] at h
    simp [mentions, h]
  | _ => cases h

theorem leafName?_of_subst {base : Ty} {name : String}
    (hs : ∀ x u, s.find? x = some u → x ∈ params) (hbase : base.isParam params = false)
    (h : (base.subst s).leafName? = some name) : base.leafName? = some name := by
  cases hleaf : base.isLeaf with
  | false =>
    cases base with
    | generic | array | pointer | map | func => cases h
    | _ => cases hleaf
  | true =>
    rw [subst_leaf hleaf] at h
    cases hfind : base.leafName?.bind s.find? with
    | none => rwa [hfind] at h
    | some u =>
      obtain ⟨x, hx, hu⟩ := Option.bind_eq_some_iff.mp hfind
      simp [isParam, hx, hs x u hu] at hbase

end Ty

namespace Env

variable {env : Env} {t : Ty}

/-! ## Aliases that lead to one another -/

/-- The target of the alias `a` mentions the alias `b`. -/
def LeadsTo (env : Env) (a b : String) : Prop :=
  ∃ d, env.index.aliases.find? a = some d ∧ d.target.mentions [b] = true ∧ env.index.aliases.find? b ≠ none

def AliasesAcyclic (env : Env) : Prop := ∀ a, ¬ Relation.TransGen env.LeadsTo a a

def ParamsUnapplied (env : Env) : Prop :=
  ∀ a d, env.index.aliases.find? a = some d → d.target.Every (·.applies d.typeParams = false)

theorem AliasesAcyclic.of_rank (rank : String → Nat) (h : ∀ p ∈ env.index.aliases.entries,
    ∀ q ∈ env.index.aliases.entries, p.2.target.mentions [q.1] = true → rank q.1 < rank p.1) : env.AliasesAcyclic := by
  have hstep : ∀ {a b}, env.LeadsTo a b → rank b < rank a := by
    rintro a b ⟨d, hd, hmentions, hb⟩
    obtain ⟨e, he⟩ := Option.ne_none_iff_exists'.mp hb
    exact h _ (Table.mem_entries hd) _ (Table.mem_entries he) hmentions
  have hrank : ∀ {a b}, Relation.TransGen env.LeadsTo a b → rank b < rank a := by
    intro a b hab
    induction hab with
    | single hlast => exact hstep hlast
    | tail _ hlast ih => exact (hstep hlast).trans ih
  exact fun a ha => (hrank ha).false

theorem AliasesAcyclic.wellFounded (h : env.AliasesAcyclic) : WellFounded fun b a => env.LeadsTo a b := by
  let below := fun b a => Relation.TransGen env.LeadsTo a b
  have : IsStrictOrder String below :=
    { irrefl := h, trans := fun _ _ _ hab hbc => hbc.trans hab }
  let names : Set String := { a | env.index.aliases.find? a ≠ none }
  have hfinite : names.Finite := by
    refine (List.finite_toSet env.index.aliases.keys).subset fun a ha => ?_
    obtain ⟨d, hd⟩ := Option.ne_none_iff_exists'.mp ha
    exact List.mem_map.mpr ⟨(a, d), Table.mem_entries hd, rfl⟩
  refine Subrelation.wf ?_ (Set.wellFoundedOn_iff.mp (hfinite.wellFoundedOn (r := below)))
  rintro b a ⟨d, hd, hmentions, hb⟩
  exact ⟨.single ⟨d, hd, hmentions, hb⟩, hb, by simp [names, hd]⟩

/-! ## The end of it -/

def Ends (env : Env) (t : Ty) : Prop := env.expansions t ≠ none

/-- Expanding the target of the alias ends, whatever arguments it gets, if expanding each of them does. -/
def AliasEnds (env : Env) (a : String) : Prop :=
  ∀ d, env.index.aliases.find? a = some d → ∀ args, (∀ u ∈ args, env.Ends u) →
    env.Ends (d.target.subst (.ofParams d.typeParams args))

theorem Ends.of_head (hhead : ∀ a, t.base.leafName? = some a → env.AliasEnds a) (hargs : ∀ u ∈ t.args, env.Ends u) :
    env.Ends t := by
  unfold Ends
  cases honce : env.expandOnce t with
  | none =>
    rw [expansions_done honce]
    nofun
  | some next =>
    rw [expansions_step honce, ne_eq, Option.map_eq_none_iff]
    obtain ⟨a, ha, d, hd, rfl⟩ : ∃ a, t.base.leafName? = some a ∧ ∃ d, env.index.aliases.find? a = some d ∧
        d.target.subst (.ofParams d.typeParams t.args) = next := by
      simpa [expandOnce, Option.bind_eq_some_iff] using honce
    exact hhead a ha d hd t.args hargs

/-- A part of a target with the arguments put in: an alias at its head comes from the target or is the head
    of an argument. -/
theorem Ends.subst {params : List String} (hs : ∀ x u, s.find? x = some u → x ∈ params ∧ env.Ends u)
    (haliases : ∀ a, t.mentions [a] = true → env.AliasEnds a) (happlies : t.Every (·.applies params = false)) :
    env.Ends (t.subst s) := by
  induction t using Ty.induct with
  | leaf l hl =>
    rw [Ty.subst_leaf hl]
    cases hfind : l.leafName?.bind s.find? with
    | some u =>
      obtain ⟨x, -, hx⟩ := Option.bind_eq_some_iff.mp hfind
      exact (hs x u hx).2
    | none =>
      refine .of_head (fun a ha => haliases a (Ty.mentions_leafName ?_)) ?_
      · rwa [Option.getD_none, Ty.base_leaf hl] at ha
      · rw [Option.getD_none, Ty.args_leaf hl]
        exact List.forall_mem_nil _
  | generic base args _ hargs =>
    rw [Ty.keepsShape_subst.generic]
    obtain ⟨hbase, -, hevery⟩ := Ty.every_generic.mp happlies
    refine .of_head (fun a ha => haliases a ?_) (List.forall_mem_map.mpr fun u hu => ?_)
    · -- the base is no parameter, so the alias is one that the target mentions
      have hname := Ty.leafName?_of_subst (fun x u hx => (hs x u hx).1) hbase ha
      simp [Ty.mentions, Ty.mentions_leafName hname]
    · refine hargs u hu (fun a ha => haliases a ?_) (hevery u hu)
      by_contra hmentions
      rw [Bool.not_eq_true] at hmentions
      have := (Ty.leafwise_unmentioned.generic _ _).mp hmentions
      simp [this.2 u hu] at ha
  | array | pointer | map | func => exact .of_head (fun _ h => by cases h) (List.forall_mem_nil _)

theorem aliasEnds (hacyclic : env.AliasesAcyclic) (hparams : env.ParamsUnapplied) (a : String) : env.AliasEnds a := by
  induction a using hacyclic.wellFounded.induction with
  | _ a ih =>
    intro d hd args hargs
    refine Ends.subst (fun x u hx => ?_) (fun b hb => ?_) (hparams a d hd)
    · have hmem := List.of_mem_zip (Table.mem_of_find?_ofList hx)
      exact ⟨hmem.1, hargs u hmem.2⟩
    · intro d' hd'
      exact ih b ⟨d, hd, hb, by simp [hd']⟩ d' hd'

/-- Expanding ends for every type, and what is left has no alias at its head. -/
theorem expansions_end (hacyclic : env.AliasesAcyclic) (hparams : env.ParamsUnapplied) (t : Ty) :
    (∃ ts, env.expansions t = some ts ∧ ts.getLast? = some (env.expand t)) ∧
      env.expandOnce (env.expand t) = none ∧ env.expand (env.expand t) = env.expand t := by
  have hends : env.Ends t := by
    induction t using Ty.induct with
    | generic base args _ hargs => exact .of_head (fun a _ => aliasEnds hacyclic hparams a) hargs
    | leaf l hl =>
      refine .of_head (fun a _ => aliasEnds hacyclic hparams a) ?_
      rw [Ty.args_leaf hl]
      exact List.forall_mem_nil _
    | array | pointer | map | func => exact .of_head (fun _ h => by cases h) (List.forall_mem_nil _)
  obtain ⟨ts, hts⟩ := Option.ne_none_iff_exists'.mp hends
  obtain ⟨hlast, hdone⟩ := expand_of_expansions hts
  exact ⟨⟨ts, hts, hlast⟩, hdone, expand_eq hdone⟩

/-- `type Id[T] = T` and `type Nest[T] = Id[Id[T]]` -/
def nested : Source.Program :=
  ⟨"main", [⟨.typeAlias ⟨⟨"Id", .synthetic⟩, [⟨"T", none⟩], .own "T"⟩, .synthetic⟩,
    ⟨.typeAlias ⟨⟨"Nest", .synthetic⟩, [⟨"T", none⟩], .generic (.own "Id") [.generic (.own "Id") [.own "T"]]⟩, .synthetic⟩]⟩

def nestedEnv : Env := ⟨(Index.build nested "std").toOption.getD .empty, .empty, .standard⟩

/-- `Nest[Nest[int]]`, where the argument of an alias is headed by one. -/
theorem expansions_end_nested : let t : Ty := .generic (.own "Nest") [.generic (.own "Nest") [.int]]
    nestedEnv.AliasesAcyclic ∧ nestedEnv.ParamsUnapplied ∧ nestedEnv.expand t = .int ∧
      ∃ ts, nestedEnv.expansions t = some ts ∧ ts.getLast? = some (nestedEnv.expand t) := by
  have hacyclic : nestedEnv.AliasesAcyclic := .of_rank String.length (by with_unfolding_all decide)
  have hparams : nestedEnv.ParamsUnapplied := by
    have hall : ∀ p ∈ nestedEnv.index.aliases.entries, p.2.target.Every (·.applies p.2.typeParams = false) := by
      with_unfolding_all decide
    exact fun a d hd => hall _ (Table.mem_entries hd)
  have hid : ∀ t, nestedEnv.expandOnce (.generic (.own "Id") [t]) = some t := fun _ => by with_unfolding_all rfl
  have hnest : ∀ t, nestedEnv.expandOnce (.generic (.own "Nest") [t]) =
      some (.generic (.own "Id") [.generic (.own "Id") [t]]) := fun _ => by with_unfolding_all rfl
  have hint : nestedEnv.expandOnce .int = none := by with_unfolding_all rfl
  refine ⟨hacyclic, hparams, ?_, (expansions_end hacyclic hparams _).1⟩
  simp [expand, hnest, expansions_step (hid _), expansions_step (hnest _), expansions_done hint]

/-- `type App[F] = F[F]` -/
def selfApplied : Source.Program :=
  ⟨"main", [⟨.typeAlias ⟨⟨"App", .synthetic⟩, [⟨"F", none⟩], .generic (.own "F") [.own "F"]⟩, .synthetic⟩]⟩

def selfEnv : Env := ⟨(Index.build selfApplied "std").toOption.getD .empty, .empty, .standard⟩

/-- No target mentions an alias, and still `App[App]` is expanded to itself for ever. -/
theorem selfApplied_endless : Env.ofProgram selfApplied .empty .standard = .ok selfEnv ∧ selfEnv.AliasesAcyclic ∧
    selfEnv.expansions (.generic (.own "App") [.own "App"]) = none ∧
    selfEnv.expandOnce (selfEnv.expand (.generic (.own "App") [.own "App"])) ≠ none := by
  have honce : selfEnv.expandOnce (.generic (.own "App") [.own "App"]) = some (.generic (.own "App") [.own "App"]) := by
    with_unfolding_all rfl
  have hnone : selfEnv.expansions (.generic (.own "App") [.own "App"]) = none := by
    refine Option.eq_none_iff_forall_ne_some.mpr fun ts hts => ?_
    refine expansions_induction (motive := fun t _ => t ≠ .generic (.own "App") [.own "App"]) ?_ ?_ hts rfl
    · rintro _ hdone rfl
      cases honce.symm.trans hdone
    · rintro _ next later hnext ih rfl
      exact ih (Option.some.inj (hnext.symm.trans honce))
  refine ⟨by with_unfolding_all rfl, .of_rank String.length (by with_unfolding_all decide), hnone, ?_⟩
  have hexpand : selfEnv.expand (.generic (.own "App") [.own "App"]) = .generic (.own "App") [.own "App"] := by
    simp only [expand, honce, hnone, Option.bind_none, Option.getD_none]
  rw [hexpand, honce]
  nofun

end Env

end Lowering
