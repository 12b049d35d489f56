/-
  Meetings — unification as a list of meetings.

  Walking down a pattern and a known type together, unification comes to the places where the pattern is a
  parameter. Which places these are, and what stands there on the known side, depends on the two types only
  (`meetings`).
-/

import Lowering.Proofs.Frame
import Lowering.Proofs.Leaves

namespace Lowering

/-- The parts that unification goes down to are such types as well. -/
structure Ty.Hereditary (Q : Ty → Prop) : Prop where
  args : ∀ {base : Ty} {args : List Ty}, Q (.generic base args) → ∀ a ∈ args, Q a
  array : ∀ {elem : Ty}, Q (.array elem) → Q elem
  pointer : ∀ {elem : Ty}, Q (.pointer elem) → Q elem
  map : ∀ {key elem : Ty}, Q (.map key elem) → Q key ∧ Q elem
  func : ∀ {params results : List Ty}, Q (.func params results) → (∀ t ∈ params, Q t) ∧ ∀ t ∈ results, Q t

namespace Ty

variable {Q : Ty → Prop}

theorem Hereditary.true : Hereditary fun _ => True :=
  ⟨fun _ _ _ => trivial, fun _ => trivial, fun _ => trivial, fun _ => ⟨trivial, trivial⟩,
    fun _ => ⟨fun _ _ => trivial, fun _ _ => trivial⟩⟩

theorem Leafwise.hereditary (h : Leafwise Q) : Hereditary Q :=
  ⟨fun hq => ((h.generic _ _).mp hq).2, (h.array _).mp, (h.pointer _).mp, (h.map _ _).mp, (h.func _ _).mp⟩

theorem Hereditary.orGeneric (h : Hereditary Q) {base : Ty} {args : List Ty} (hargs : ∀ a ∈ args, Q a) :
    Hereditary fun t => Q t ∨ t = .generic base args where
  args ht a ha := .inl <| ht.elim (h.args · a ha) fun heq => hargs a (by cases heq; exact ha)
  array ht := .inl (h.array (ht.resolve_right nofun))
  pointer ht := .inl (h.pointer (ht.resolve_right nofun))
  map ht := (h.map (ht.resolve_right nofun)).imp .inl .inl
  func ht := (h.func (ht.resolve_right nofun)).imp (fun hp t ht => .inl (hp t ht)) fun hr t ht => .inl (hr t ht)

end Ty

namespace Unifier

/-! ## Meetings -/

def metOr (params : List String) (pattern known : Ty) (inside : List (String × Ty)) : List (String × Ty) :=
  (param? params pattern).elim inside fun name => [(name, known)]

mutual

/-- The parameters that are met, each with the part of the known type it meets, in order. -/
def meetings (params : List String) (pattern : Ty) : (known : Ty) → List (String × Ty)
  | .nil | .void => []
  | .generic base args =>
    match base.baseName == Ty.wrapperName && !pattern.isWrapper, args with
    | true, [inner] => meetings params pattern inner
    | _, args =>
      metOr params pattern (.generic base args) <|
        if pattern.base.baseName == base.baseName && pattern.args.length == args.length then
          meetingsOf params (fun _ => true) pattern.args args
        else []
  | .func ins outs =>
    metOr params pattern (.func ins outs) <|
      match pattern with
      | .func pins pouts =>
        meetingsOf params (fun _ => true) pouts outs ++
          if pins.length == ins.length then meetingsOf params Ty.isConcrete pins ins else []
      | _ => []
  | .pointer elem =>
    metOr params pattern (.pointer elem) <|
      match pattern with
      | .pointer pelem => meetings params pelem elem
      | _ => []
  | .array elem =>
    metOr params pattern (.array elem) <|
      match pattern with
      | .array pelem => meetings params pelem elem
      | _ => []
  | .map key elem =>
    metOr params pattern (.map key elem) <|
      match pattern with
      | .map pkey pelem => meetings params pkey key ++ meetings params pelem elem
      | _ => []
  | leaf => metOr params pattern leaf []

/-- The same for lists, of which only some known types are looked at. -/
def meetingsOf (params : List String) (keep : Ty → Bool) (patterns : List Ty) : (known : List Ty) → List (String × Ty)
  | [] => []
  | k :: ks =>
    match patterns with
    | [] => []
    | p :: ps => (if keep k then meetings params p k else []) ++ meetingsOf params keep ps ks

end

def meetAll (params : List String) (ms : List (String × Ty)) : Solve Unit := ms.forM fun m => meet params m.1 m.2

section

variable {params : List String} {pattern known inner : Ty}

theorem meetAll_nil : meetAll params [] = pure () := rfl

theorem meetAll_cons (m : String × Ty) :
    meetAll params (m :: ms) = meet params m.1 m.2 >>= fun _ => meetAll params ms := rfl

theorem meetAll_append (ms' : List (String × Ty)) :
    meetAll params (ms ++ ms') = meetAll params ms >>= fun _ => meetAll params ms' :=
  List.forM_append

theorem meetAll_metOr (inside : List (String × Ty)) : meetAll params (metOr params pattern known inside) =
    (param? params pattern).elim (meetAll params inside) fun name => meet params name known := by
  rw [metOr]
  cases param? params pattern with
  | some name => exact bind_pure_unit
  | none => rfl

theorem meetAll_ite (c : Bool) : meetAll params (if c then ms else []) = if c then meetAll params ms else pure () := by
  cases c <;> rfl

theorem meetings_wrapped (h : (base.baseName == Ty.wrapperName && !pattern.isWrapper) = true) :
    meetings params pattern (.generic base [inner]) = meetings params pattern inner := by
  rw [meetings.eq_def]
  simp only [h]

theorem meetings_applied
    (h : ∀ inner, (base.baseName == Ty.wrapperName && !pattern.isWrapper) = true → args ≠ [inner]) :
    meetings params pattern (.generic base args) = metOr params pattern (.generic base args)
      (if pattern.base.baseName == base.baseName && pattern.args.length == args.length then
        meetingsOf params (fun _ => true) pattern.args args
      else []) := by
  rw [meetings.eq_def]
  dsimp only
  split
  · exact absurd rfl (h _ (by assumption))
  · rfl

theorem meetingsOf_nil (keep : Ty → Bool) (known : List Ty) : meetingsOf params keep [] known = [] := by
  cases known <;> rw [meetingsOf]

end

variable {params : List String}

mutual

theorem solve_eq : ∀ pattern known : Ty,
    solve params pattern known = meetAll params (meetings params pattern known)
  | pattern, .nil | pattern, .void => by rw [solve, meetings, meetAll_nil]
  | pattern, .any | pattern, .basic _ | pattern, .named _ _ => by
    simp only [solve, meetings, atLeaf, meetAll_metOr]
    cases param? params pattern <;> rfl
  | pattern, .generic base args => by
    rw [solve.eq_def]
    dsimp only
    split
    · rw [meetings_wrapped (by assumption)]
      exact solve_eq pattern _
    · rename_i args _ _ hplain
      rw [meetings_applied hplain, meetAll_metOr]
      cases param? params pattern with
      | some name => rfl
      | none =>
        rw [Option.elim_none, meetAll_ite]
        cases pattern with
        | generic pbase pargs =>
          simp only [solveList_eq pargs args]
          rfl
        | _ => simp only [Ty.args, meetingsOf_nil, meetAll_nil, ite_self]
  | pattern, .func ins outs => by
    simp only [solve, meetings, meetAll_metOr]
    cases param? params pattern with
    | some name => rfl
    | none =>
      cases pattern with
      | func pins pouts =>
        simp only [Option.elim_none, meetAll_append, meetAll_ite, solveList_eq pouts outs, solveKnown_eq pins ins]
      | _ => rfl
  | pattern, .pointer elem | pattern, .array elem => by
    simp only [solve, meetings, meetAll_metOr]
    cases param? params pattern with
    | some name => rfl
    | none => cases pattern <;> first | rfl | exact solve_eq _ elem
  | pattern, .map key elem => by
    simp only [solve, meetings, meetAll_metOr]
    cases param? params pattern with
    | some name => rfl
    | none =>
      cases pattern with
      | map pkey pelem => simp only [Option.elim_none, meetAll_append, solve_eq pkey key, solve_eq pelem elem]
      | _ => rfl

theorem solveList_eq : ∀ patterns known : List Ty,
    solveList params patterns known = meetAll params (meetingsOf params (fun _ => true) patterns known)
  | _, [] | [], k :: ks => by rw [solveList, meetingsOf, meetAll_nil]
  | p :: ps, k :: ks => by
    rw [solveList, meetingsOf, if_pos rfl, meetAll_append, solve_eq p k, solveList_eq ps ks]

theorem solveKnown_eq : ∀ patterns known : List Ty,
    solveKnown params patterns known = meetAll params (meetingsOf params Ty.isConcrete patterns known)
  | _, [] | [], k :: ks => by rw [solveKnown, meetingsOf, meetAll_nil]
  | p :: ps, k :: ks => by
    rw [solveKnown, meetingsOf, meetAll_append, meetAll_ite, solve_eq p k, solveKnown_eq ps ks]
    cases k.isConcrete <;> rfl

end

/-! ## What is met -/

def Shows (t : Ty) : Prop := t.isNil = false ∧ t.isVoid = false ∧ t.isWrapper = false

section

variable {params : List String} {P Q : Ty → Prop}

theorem forall_metOr {C : String × Ty → Prop}
    (hmet : pattern.isWrapper = false → ∀ name, param? params pattern = some name → C (name, known))
    (hinside : ∀ m ∈ inside, C m) : ∀ m ∈ metOr params pattern known inside, C m := by
  unfold metOr
  cases hparam : param? params pattern with
  | none => exact hinside
  | some name =>
    have hplain : pattern.isWrapper = false := by
      cases pattern with
      | generic base args => cases hparam
      | _ => rfl
    simpa using hmet hplain name hparam

/-- A parameter in a part of the pattern and the part of the known type that it meets. -/
structure Meets (params : List String) (P Q : Ty → Prop) (m : String × Ty) : Prop where
  param : ∃ t, P t ∧ param? params t = some m.1
  known : Q m.2
  shows : Shows m.2

mutual

theorem forall_meetings (hP : Ty.Hereditary P) (hQ : Ty.Hereditary Q) : ∀ pattern known : Ty, P pattern → Q known →
    ∀ m ∈ meetings params pattern known, Meets params P Q m
  | _, .nil, _, _ | _, .void, _, _ => by simp only [meetings, List.not_mem_nil, false_imp_iff, implies_true]
  | _, .any, hp, hk | _, .basic _, hp, hk | _, .named _ _, hp, hk => by
    simp only [meetings]
    exact forall_metOr (fun _ name hname => ⟨⟨_, hp, hname⟩, hk, rfl, rfl, rfl⟩) (List.forall_mem_nil _)
  | pattern, .generic base args, hp, hk => by
    by_cases hw : ∃ inner, (base.baseName == Ty.wrapperName && !pattern.isWrapper) = true ∧ args = [inner]
    · obtain ⟨inner, hw, hargs⟩ := hw
      match args, hargs, hk with
      | [_], rfl, hk =>
        rw [meetings_wrapped hw]
        exact forall_meetings hP hQ pattern inner hp (hQ.args hk inner (.head _))
    · have hplain : ∀ inner, (base.baseName == Ty.wrapperName && !pattern.isWrapper) = true → args ≠ [inner] :=
        fun inner h hargs => hw ⟨inner, h, hargs⟩
      rw [meetings_applied hplain]
      refine forall_metOr (fun hpattern name hname => ⟨⟨_, hp, hname⟩, hk, rfl, rfl, ?_⟩) ?_
      · refine Bool.eq_false_iff.mpr fun hwrapper => ?_
        simp only [Ty.isWrapper, Bool.and_eq_true, beq_iff_eq, List.length_eq_one_iff] at hwrapper
        obtain ⟨hbase, inner, hargs⟩ := hwrapper
        exact hplain inner (by simp [hbase, hpattern]) hargs
      · split
        · refine forall_meetingsOf hP hQ _ _ args ?_ (hQ.args hk)
          cases pattern with
          | generic pbase pargs => exact hP.args hp
          | _ => exact List.forall_mem_nil _
        · exact List.forall_mem_nil _
  | pattern, .func ins outs, hp, hk => by
    simp only [meetings]
    obtain ⟨hins, houts⟩ := hQ.func hk
    refine forall_metOr (fun _ name hname => ⟨⟨_, hp, hname⟩, hk, rfl, rfl, rfl⟩) ?_
    cases pattern with
    | func pins pouts =>
      refine List.forall_mem_append.mpr ⟨forall_meetingsOf hP hQ _ _ outs (hP.func hp).2 houts, ?_⟩
      split
      · exact forall_meetingsOf hP hQ _ _ ins (hP.func hp).1 hins
      · exact List.forall_mem_nil _
    | _ => exact List.forall_mem_nil _
  | pattern, .pointer elem, hp, hk => by
    simp only [meetings]
    refine forall_metOr (fun _ name hname => ⟨⟨_, hp, hname⟩, hk, rfl, rfl, rfl⟩) ?_
    cases pattern with
    | pointer pelem => exact forall_meetings hP hQ pelem elem (hP.pointer hp) (hQ.pointer hk)
    | _ => exact List.forall_mem_nil _
  | pattern, .array elem, hp, hk => by
    simp only [meetings]
    refine forall_metOr (fun _ name hname => ⟨⟨_, hp, hname⟩, hk, rfl, rfl, rfl⟩) ?_
    cases pattern with
    | array pelem => exact forall_meetings hP hQ pelem elem (hP.array hp) (hQ.array hk)
    | _ => exact List.forall_mem_nil _
  | pattern, .map key elem, hp, hk => by
    simp only [meetings]
    refine forall_metOr (fun _ name hname => ⟨⟨_, hp, hname⟩, hk, rfl, rfl, rfl⟩) ?_
    cases pattern with
    | map pkey pelem =>
      exact List.forall_mem_append.mpr ⟨forall_meetings hP hQ pkey key (hP.map hp).1 (hQ.map hk).1,
        forall_meetings hP hQ pelem elem (hP.map hp).2 (hQ.map hk).2⟩
    | _ => exact List.forall_mem_nil _

theorem forall_meetingsOf (hP : Ty.Hereditary P) (hQ : Ty.Hereditary Q) : ∀ (keep : Ty → Bool) (patterns known : List Ty),
    (∀ t ∈ patterns, P t) → (∀ t ∈ known, Q t) → ∀ m ∈ meetingsOf params keep patterns known, Meets params P Q m
  | _, _, [], _, _ | _, [], _ :: _, _, _ => by simp only [meetingsOf, List.not_mem_nil, false_imp_iff, implies_true]
  | keep, p :: ps, k :: ks, hp, hk => by
    rw [meetingsOf]
    refine List.forall_mem_append.mpr ⟨?_, forall_meetingsOf hP hQ keep ps ks (fun t ht => hp t (.tail _ ht))
      fun t ht => hk t (.tail _ ht)⟩
    split
    · exact forall_meetings hP hQ p k (hp p (.head _)) (hk k (.head _))
    · exact List.forall_mem_nil _

end

end

/-! ## Bindings -/

/-- What a parameter may be bound to. -/
structure Bindable (params : List String) (t : Ty) : Prop where
  shows : Shows t
  any : t.isAny = false
  unmentioned : t.mentions params = false

def Preserves (I : Substitution → Prop) (s s' : Substitution) : Prop := I s → I s'

instance (I : Substitution → Prop) : Std.Refl (Preserves I) := ⟨fun _ h => h⟩

instance (I : Substitution → Prop) : IsTrans Substitution (Preserves I) := ⟨fun _ _ _ h h' hs => h' (h hs)⟩

section

variable {I : Substitution → Prop} {Q : Ty → Prop} {params : List String}
  (hbind : ∀ {s : Substitution} {name : String} {known : Ty}, s.find? name = none → name ∈ params → Q known →
    Bindable params known → I s → I (s.insert name known))
include hbind

theorem meet_preserves (hm : Meets params (fun _ => True) Q m) :
    Keeps (Preserves I) (meet params m.1 m.2) := by
  intro s hs
  obtain ⟨⟨_, -, hparam⟩, hknown, hshows⟩ := hm
  have hname : m.1 ∈ params := by simpa using (Option.filter_eq_some_iff.mp hparam).2
  simp only [final, meet]
  by_cases hskip : (m.2.isAny || m.2.mentions params) = true
  · simpa only [hskip, if_true] using hs
  · simp only [hskip, Bool.false_eq_true, if_false]
    cases hfind : s.find? m.1 with
    | some first =>
      by_cases hsame : (first == m.2) = true
      · simpa only [hsame, if_true] using hs
      · simpa only [hsame, Bool.false_eq_true, if_false] using hs
    | none =>
      obtain ⟨hany, hmentions⟩ := Bool.or_eq_false_iff.mp (Bool.eq_false_iff.mpr hskip)
      exact hbind hfind hname hknown ⟨hshows, hany, hmentions⟩ hs

theorem meetAll_preserves (hms : ∀ m ∈ ms, Meets params (fun _ => True) Q m) :
    Keeps (Preserves I) (meetAll params ms) := by
  induction ms with
  | nil => exact .pure
  | cons m ms ih =>
    obtain ⟨hm, hms⟩ := List.forall_mem_cons.mp hms
    exact .bind (meet_preserves hbind hm) fun _ => ih hms

theorem solve_preserves (hQ : Ty.Hereditary Q) {known : Ty} {pattern : Ty} (hk : Q known) :
    Keeps (Preserves I) (solve params pattern known) := by
  rw [solve_eq]
  exact meetAll_preserves hbind (forall_meetings .true hQ pattern known trivial hk)

end

theorem unify?_ok {u u' : Unifier} (h : u.unify? pattern known = some u') :
    u'.params = u.params ∧ final (solve u.params pattern known) u.bound = u'.bound := by
  unfold unify? unify at h
  unfold final
  cases hsolve : solve u.params pattern known u.bound with
  | ok _ bound =>
    rw [hsolve] at h
    cases h
    exact ⟨rfl, rfl⟩
  | error conflict bound =>
    rw [hsolve] at h
    cases h

end Unifier

end Lowering
