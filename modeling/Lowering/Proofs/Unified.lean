/-
  Unified — what unification binds.

  A parameter is bound where it is first met and keeps its binding (`unifyEach_bound`). Later meetings are
  compared with it by their renderings only.
-/

import Lowering.Proofs.Hygiene
import Lowering.Proofs.Reordered

namespace Lowering

namespace Unifier

variable {params : List String} {pairs : List (Ty × Ty)} {u : Unifier}

/-! ## Bindings stay -/

def unifyEach (u : Unifier) (pairs : List (Ty × Ty)) : Unifier := pairs.foldl (fun u pair => (u.unify pair.1 pair.2).1) u

theorem unify_final (pattern known : Ty) :
    (u.unify pattern known).1 = { u with bound := final (solve u.params pattern known) u.bound } := by
  unfold unify final
  cases solve u.params pattern known u.bound <;> rfl

theorem unifyEach_preserves {I : Substitution → Prop} {Q : Ty → Prop} (hQ : Ty.Hereditary Q)
    (hbind : ∀ {s : Substitution} {name : String} {known : Ty}, s.find? name = none → name ∈ params → Q known →
      Bindable params known → I s → I (s.insert name known)) (hknown : ∀ pair ∈ pairs, Q pair.2)
    (hparams : u.params = params) (hu : I u.bound) :
    (u.unifyEach pairs).params = params ∧ I (u.unifyEach pairs).bound := by
  induction pairs generalizing u with
  | nil => exact ⟨hparams, hu⟩
  | cons pair pairs ih =>
    obtain ⟨hpair, hknown⟩ := List.forall_mem_cons.mp hknown
    rw [unifyEach, List.foldl_cons, unify_final]
    refine ih hknown hparams ?_
    rw [hparams]
    exact solve_preserves hbind hQ hpair u.bound hu

theorem hereditary_every (P : Ty → Prop) : Ty.Hereditary (Ty.Every P) where
  args h := (Ty.every_generic.mp h).2.2
  array h := (Ty.every_array.mp h).2
  pointer h := (Ty.every_pointer.mp h).2
  map h := (Ty.every_map.mp h).2
  func h := (Ty.every_func.mp h).2

def Inside (pairs : List (Ty × Ty)) (t : Ty) : Prop := ∃ pair ∈ pairs, t ∈ pair.2.parts

def Sourced (params : List String) (pairs : List (Ty × Ty)) (s : Substitution) : Prop :=
  ∀ x t, s.find? x = some t → x ∈ params ∧ Inside pairs t ∧ Bindable params t

theorem unifyEach_sourced :
    ((new params).unifyEach pairs).params = params ∧ Sourced params pairs ((new params).unifyEach pairs).bound := by
  have hnew : Sourced params pairs (new params).bound := by
    intro x t hx
    cases hx
  refine unifyEach_preserves (I := Sourced params pairs) (hereditary_every (Inside pairs)) ?_ ?_ rfl hnew
  · exact fun _ hname hknown hbindable hs => Table.forall_find?_insert hs ⟨hname, Ty.Every.self hknown, hbindable⟩
  · exact fun pair hpair t ht => ⟨pair, hpair, ht⟩

/-- Over any sequence of pairs, whether or not some of them end in a conflict, only parameters are bound, to
    parts of known types that mention no parameter, have a value, are not any and are no wrappers; and
    no later pair changes a binding. -/
theorem unifyEach_bound (params : List String) (pairs : List (Ty × Ty)) {x : String} {t : Ty}
    (h : ((new params).unifyEach pairs).bound.find? x = some t) :
    x ∈ params ∧ (∃ pair ∈ pairs, t ∈ pair.2.parts) ∧ t.mentions params = false ∧
      (t.isNil = false ∧ t.isVoid = false ∧ t.isAny = false ∧ t.isWrapper = false) ∧
      ∀ later, ((new params).unifyEach (pairs ++ later)).bound.find? x = some t := by
  obtain ⟨hx, hinside, ⟨hnil, hvoid, hwrapper⟩, hany, hmentions⟩ := unifyEach_sourced.2 x t h
  refine ⟨hx, hinside, hmentions, ⟨hnil, hvoid, hany, hwrapper⟩, fun later => ?_⟩
  rw [unifyEach, List.foldl_append]
  refine (unifyEach_preserves (I := fun s => s.find? x = some t) (hereditary_every fun _ => True) ?_
    (fun _ _ _ _ => trivial) rfl h).2
  intro s name known hunbound _ _ _ hs
  rw [Table.find?_insert, if_neg, hs]
  rintro rfl
  cases hunbound.symm.trans hs

/-- A wrapper that is looked through, then a conflict. -/
theorem unifyEach_bound_conflict :
    let pairs : List (Ty × Ty) := [(.basic "T", .generic (.own "Immutable") [.int]), (.basic "T", .string)]
    Ty.int.mentions ["T"] = false ∧
      ∀ later, ((new ["T"]).unifyEach (pairs ++ later)).bound.find? "T" = some .int := by
  intro pairs
  obtain ⟨-, -, hmentions, -, hlater⟩ := unifyEach_bound ["T"] pairs (x := "T") (t := .int) rfl
  exact ⟨hmentions, hlater⟩

/-! ## The order of the pairs -/

def unifyPairs (u : Unifier) (pairs : List (Ty × Ty)) : Option Unifier :=
  pairs.foldlM (fun u pair => u.unify? pair.1 pair.2) u

theorem unifyEach_of_unifyPairs {u' : Unifier} (h : u.unifyPairs pairs = some u') : u.unifyEach pairs = u' := by
  induction pairs generalizing u with
  | nil => exact Option.some.inj h
  | cons pair pairs ih =>
    obtain ⟨u1, hu, h⟩ := Option.bind_eq_some_iff.mp h
    obtain ⟨hparams, hbound⟩ := unify?_ok hu
    have hfirst : (u.unify pair.1 pair.2).1 = u1 := by
      rw [unify_final, hbound, ← hparams]
    rw [unifyEach, List.foldl_cons, hfirst]
    exact ih h

theorem unifyPairs_sourced (h : (new params).unifyPairs pairs = some u) :
    u.params = params ∧ Sourced params pairs u.bound := by
  rw [← unifyEach_of_unifyPairs h]
  exact unifyEach_sourced

def meetText (texts : Table String) (m : String × String) : Option (Table String) :=
  if (texts.find? m.1).all (· == m.2) then some (texts.insert m.1 m.2) else none

theorem meetText_clash (x : String) {a a' : String} (h : a ≠ a') :
    (meetText texts (x, a)).bind (meetText · (x, a')) = none := by
  unfold meetText
  split
  · simp [h]
  · rfl

theorem meetText_comm (m m' : String × String) :
    (meetText texts m).bind (meetText · m') = (meetText texts m').bind (meetText · m) := by
  obtain ⟨x, a⟩ := m
  obtain ⟨x', a'⟩ := m'
  by_cases hx : x = x'
  · subst hx
    by_cases ha : a = a'
    · rw [ha]
    · rw [meetText_clash x ha, meetText_clash x (Ne.symm ha)]
  · simp only [meetText]
    by_cases ha : (texts.find? x).all (· == a) = true
    all_goals
      by_cases ha' : (texts.find? x').all (· == a') = true
      all_goals simp [ha, ha', hx, Ne.symm hx, texts.insert_comm hx]

def texts (s : Substitution) : Table String := s.map Ty.render

theorem find?_texts {s : Substitution} (x : String) :
    (texts s).find? x = (s.find? x).map Ty.render := Table.find?_map _ _ _

def settled : EStateM.Result Conflict Substitution Unit → Option (Table String)
  | .ok _ s => some (texts s)
  | .error _ _ => none

def counts (params : List String) (m : String × Ty) : Bool := !(m.2.isAny || m.2.mentions params)

theorem settled_meet {m : String × Ty} (h : counts params m = true) (s : Substitution) :
    settled (meet params m.1 m.2 s) = meetText (texts s) (m.1, m.2.render) := by
  have hskip : (m.2.isAny || m.2.mentions params) = false := by simpa [counts] using h
  simp only [meet, hskip, Bool.false_eq_true, if_false, meetText, find?_texts]
  cases hfind : s.find? m.1 with
  | none =>
    refine congrArg some (Table.ext_find? fun x => ?_)
    rw [find?_texts, Table.find?_insert, Table.find?_insert, find?_texts]
    split <;> rfl
  | some first =>
    have hbeq : (first == m.2) = (first.render == m.2.render) := rfl
    simp only [hbeq, Option.map_some, Option.all_some]
    by_cases hsame : (first.render == m.2.render) = true
    · rw [if_pos hsame, if_pos hsame]
      refine congrArg some (Table.ext_find? fun x => ?_)
      rw [Table.find?_insert]
      split
      · rename_i hx
        rw [hx, find?_texts, hfind, Option.map_some, beq_iff_eq.mp hsame]
      · rfl
    · rw [if_neg hsame, if_neg hsame]
      rfl

def metTexts (params : List String) (ms : List (String × Ty)) : List (String × String) :=
  (ms.filter (counts params)).map fun m => (m.1, m.2.render)

theorem settled_meetAll (ms : List (String × Ty)) (s : Substitution) :
    settled (meetAll params ms s) = (metTexts params ms).foldlM meetText (texts s) := by
  induction ms generalizing s with
  | nil => rfl
  | cons m ms ih =>
    simp only [meetAll_cons, Bind.bind, EStateM.bind]
    by_cases hcounts : counts params m = true
    · have hmeet := settled_meet hcounts s
      rw [metTexts, List.filter_cons_of_pos hcounts, List.map_cons, List.foldlM_cons, ← hmeet]
      cases meet params m.1 m.2 s with
      | ok _ s1 => exact ih s1
      | error _ s1 => rfl
    · rw [metTexts, List.filter_cons_of_neg hcounts]
      have hskip : (m.2.isAny || m.2.mentions params) = true := by
        simpa only [counts, Bool.not_eq_true', Bool.not_eq_false] using hcounts
      simp only [meet, hskip, if_true]
      exact ih s

theorem unifyPairs_texts (u : Unifier) : (u.unifyPairs pairs).map (fun u => texts u.bound) =
    (pairs.flatMap fun pair => metTexts u.params (meetings u.params pair.1 pair.2)).foldlM meetText (texts u.bound) := by
  induction pairs generalizing u with
  | nil => rfl
  | cons pair pairs ih =>
    have hfirst : (u.unify? pair.1 pair.2).map (fun u => texts u.bound) =
        (metTexts u.params (meetings u.params pair.1 pair.2)).foldlM meetText (texts u.bound) := by
      rw [← settled_meetAll, ← solve_eq]
      unfold unify? unify
      cases solve u.params pair.1 pair.2 u.bound <;> rfl
    rw [List.flatMap_cons, List.foldlM_append, ← hfirst, unifyPairs, List.foldlM_cons]
    cases hu : u.unify? pair.1 pair.2 with
    | none => rfl
    | some u1 =>
      have hrest := ih u1
      rw [(unify?_ok hu).1] at hrest
      exact hrest

theorem unifyPairs_texts_perm (params : List String) {pairs' : List (Ty × Ty)} (h : pairs.Perm pairs') :
    ((new params).unifyPairs pairs).map (fun u => texts u.bound) =
      ((new params).unifyPairs pairs').map (fun u => texts u.bound) := by
  rw [unifyPairs_texts, unifyPairs_texts]
  refine foldlM_perm (I := fun _ => True) (h.flatMap_right _) (fun _ _ _ _ _ _ => trivial) ?_ trivial
  exact List.pairwise_of_forall fun m m' texts _ => meetText_comm m m'

theorem mapM_some_mono {α β : Type} {f g : α → Option β} {l : List α} {l' : List β}
    (h : ∀ a ∈ l, ∀ b, f a = some b → g a = some b) (hf : l.mapM f = some l') : l.mapM g = some l' := by
  induction l generalizing l' with
  | nil => exact hf
  | cons a l ih =>
    obtain ⟨ha, hl⟩ := List.forall_mem_cons.mp h
    rw [List.mapM_cons] at hf ⊢
    obtain ⟨b, hb, hf⟩ := Option.bind_eq_some_iff.mp hf
    obtain ⟨bs, hbs, hf⟩ := Option.bind_eq_some_iff.mp hf
    rw [ha b hb, Option.bind_eq_bind, Option.bind_some, ih hl hbs]
    exact hf

theorem resolve_texts {types : List Ty} (h : u.resolve = some types) :
    u.params.mapM (texts u.bound).find? = some (types.map Ty.render) := by
  have hfind : u.params.mapM u.bound.find? = some types :=
    mapM_some_mono (fun p _ t ht => (Option.filter_eq_some_iff.mp ht).1) h
  rw [funext (find?_texts), mapM_map, hfind, Option.map_some]

/-- In every order of the pairs there is a conflict, or the same parameters are bound to types that render
    alike. So the types that are found render alike where some are found in both orders. That is so
    in both or in neither, if no two types inside the known ones render alike and only one of them is concrete. -/
theorem unifyPairs_perm (params : List String) {pairs pairs' : List (Ty × Ty)} (h : pairs.Perm pairs') :
    ((new params).unifyPairs pairs = none ↔ (new params).unifyPairs pairs' = none) ∧
    ∀ u u', (new params).unifyPairs pairs = some u → (new params).unifyPairs pairs' = some u' →
      (∀ x, (u.bound.find? x).map Ty.render = (u'.bound.find? x).map Ty.render) ∧
      (∀ types types', u.resolve = some types → u'.resolve = some types' →
        types.map Ty.render = types'.map Ty.render) ∧
      ((∀ a b, Inside pairs a → Inside pairs b → a.render = b.render → a.isConcrete = b.isConcrete) →
        u.resolve.map (List.map Ty.render) = u'.resolve.map (List.map Ty.render)) := by
  have htexts := unifyPairs_texts_perm params h
  refine ⟨?_, fun u u' hu hu' => ?_⟩
  · rw [← Option.map_eq_none_iff, htexts, Option.map_eq_none_iff]
  · rw [hu, hu'] at htexts
    have hbound : texts u.bound = texts u'.bound := Option.some.inj htexts
    have hfind : ∀ x, (u.bound.find? x).map Ty.render = (u'.bound.find? x).map Ty.render := by
      intro x
      rw [← find?_texts, ← find?_texts, hbound]
    obtain ⟨hparams, hsourced⟩ := unifyPairs_sourced hu
    obtain ⟨hparams', hsourced'⟩ := unifyPairs_sourced hu'
    refine ⟨hfind, fun types types' htypes htypes' => ?_, fun halike => ?_⟩
    · have hresolved := resolve_texts htypes
      rw [hparams, hbound, ← hparams', resolve_texts htypes'] at hresolved
      exact (Option.some.inj hresolved).symm
    · unfold resolve
      rw [← mapM_map, ← mapM_map, hparams, hparams']
      congr 1
      funext p
      have hp := hfind p
      cases ht : u.bound.find? p with
      | none =>
        rw [ht] at hp
        rw [Option.map_eq_none_iff.mp hp.symm]
      | some t =>
        rw [ht] at hp
        obtain ⟨t', ht', hrender⟩ := Option.map_eq_some_iff.mp hp.symm
        obtain ⟨pair, hpair, hpart⟩ := (hsourced' p t' ht').2.1
        have hconcrete := halike t t' (hsourced p t ht).2.1 ⟨pair, h.mem_iff.mpr hpair, hpart⟩ hrender.symm
        rw [ht', Option.filter_some, Option.filter_some, hconcrete]
        split
        · rw [Option.map_some, Option.map_some, hrender]
        · rfl

theorem unifyPairs_perm_swap :
    let pairs : List (Ty × Ty) := [(.basic "T", .int), (.array (.basic "U"), .array .string)]
    let pairs' : List (Ty × Ty) := [(.array (.basic "U"), .array .string), (.basic "T", .int)]
    ∃ u u', (new ["T", "U"]).unifyPairs pairs = some u ∧ (new ["T", "U"]).unifyPairs pairs' = some u' ∧
      u.resolve.map (List.map Ty.render) = u'.resolve.map (List.map Ty.render) := by
  intro pairs pairs'
  obtain ⟨u, hu⟩ := Option.isSome_iff_exists.mp (show ((new ["T", "U"]).unifyPairs pairs).isSome = true from rfl)
  obtain ⟨u', hu'⟩ := Option.isSome_iff_exists.mp (show ((new ["T", "U"]).unifyPairs pairs').isSome = true from rfl)
  refine ⟨u, u', hu, hu', ((unifyPairs_perm ["T", "U"] (.swap _ _ [])).2 u u' hu hu').2.2 ?_⟩
  have hconcrete : ∀ pair ∈ pairs, pair.2.Every (·.isConcrete = true) := by decide
  rintro a b ⟨pair, hpair, ha⟩ ⟨pair', hpair', hb⟩ -
  rw [hconcrete pair hpair a ha, hconcrete pair' hpair' b hb]

/-- Which of two types that render alike is kept depends on the order, and here only one is concrete: `[]nil` of an
    unknown element and of a type that is named `nil`. -/
theorem resolve_ordered :
    [(Ty.basic "T", Ty.array .nil), (.basic "T", .array (.own "nil"))].Perm
      [(.basic "T", .array (.own "nil")), (.basic "T", .array .nil)] ∧
    ((new ["T"]).unifyPairs [(.basic "T", .array .nil), (.basic "T", .array (.own "nil"))]).map resolve = some none ∧
    ((new ["T"]).unifyPairs [(.basic "T", .array (.own "nil")), (.basic "T", .array .nil)]).map resolve =
      some (some [.array (.own "nil")]) :=
  ⟨.swap _ _ _, rfl, rfl⟩

/-! ## Instances of a pattern -/

end Unifier

namespace Ty

mutual

/-- The names of leaves that are in the base of no application. -/
def outerNames : Ty → List String
  | .basic name => [name]
  | .named package name => if package.isEmpty then [name] else []
  | .generic _ params => outerNamesOf params
  | .array elem => elem.outerNames
  | .pointer elem => elem.outerNames
  | .map key elem => key.outerNames ++ elem.outerNames
  | .func params results => outerNamesOf results ++ outerNamesOf params
  | .any | .nil | .void => []

def outerNamesOf : List Ty → List String
  | [] => []
  | t :: ts => t.outerNames ++ outerNamesOf ts

end

theorem outerNames_leaf {t : Ty} (h : t.isLeaf = true) : t.outerNames = t.leafName?.toList := by
  cases t with
  | named package name =>
    simp only [outerNames, leafName?]
    split <;> rfl
  | basic | any | nil | void => rfl
  | _ => cases h

end Ty

namespace Unifier

variable {params : List String} {s : Substitution} {pattern known : Ty}

def image? (s : Substitution) (x : String) : Option (String × Ty) := (s.find? x).map (x, ·)

theorem meetings_param {name : String} (h : param? params pattern = some name) (hknown : Shows known) :
    meetings params pattern known = [(name, known)] := by
  have hmet : ∀ inside, metOr params pattern known inside = [(name, known)] := fun inside => by rw [metOr, h]; rfl
  obtain ⟨hnil, hvoid, hwrapper⟩ := hknown
  cases known with
  | generic base args =>
    rw [meetings_applied, hmet]
    rintro inner hbase rfl
    simp only [Bool.and_eq_true] at hbase
    simp [Ty.isWrapper, hbase.1] at hwrapper
  | nil => cases hnil
  | void => cases hvoid
  | _ => simp only [meetings, hmet]

theorem meetings_leaf (h : param? params pattern = none) (hleaf : known.isLeaf = true) :
    meetings params pattern known = [] := by
  cases known with
  | basic | named | any | nil | void => simp [meetings, metOr, h]
  | _ => cases hleaf

theorem meetingsOf_subst {keep : Ty → Bool} {ts : List Ty}
    (h : ∀ t ∈ ts, keep (t.subst s) = true ∧ meetings params t (t.subst s) = t.outerNames.filterMap (image? s)) :
    meetingsOf params keep ts (ts.map (Ty.subst s)) = (Ty.outerNamesOf ts).filterMap (image? s) := by
  induction ts with
  | nil => rfl
  | cons t ts ih =>
    obtain ⟨⟨hkeep, ht⟩, hts⟩ := List.forall_mem_cons.mp h
    rw [List.map_cons, meetingsOf, if_pos hkeep, ht, ih hts, Ty.outerNamesOf, List.filterMap_append]

/-- The parameters, and no other names, are assigned concrete types that they may be bound to. -/
structure Assigns (params : List String) (s : Substitution) : Prop where
  total : ∀ p ∈ params, (s.find? p).isSome
  param : ∀ x t, s.find? x = some t → x ∈ params
  concrete : ∀ x t, s.find? x = some t → t.isConcrete = true
  plain : ∀ x t, s.find? x = some t → t.isAny = false ∧ t.isWrapper = false ∧ t.mentions params = false

theorem Assigns.bindable (hs : Assigns params s) {x : String} {t : Ty} (hx : s.find? x = some t) : Bindable params t := by
  obtain ⟨hany, hwrapper, hmentions⟩ := hs.plain x t hx
  have hconcrete := hs.concrete x t hx
  cases t with
  | nil | void => cases hconcrete
  | _ => exact ⟨⟨rfl, rfl, hwrapper⟩, hany, hmentions⟩

theorem assigns_ofParams {args : List Ty} (hlength : args.length = params.length)
    (hargs : ∀ a ∈ args, a.isConcrete = true ∧ a.isAny = false ∧ a.isWrapper = false ∧ a.mentions params = false) :
    Assigns params (.ofParams params args) := by
  have hmem : ∀ x t, (Substitution.ofParams params args).find? x = some t → x ∈ params ∧ t ∈ args :=
    fun x t hx => List.of_mem_zip (Table.mem_of_find?_ofList hx)
  exact ⟨fun p hp => Substitution.find?_ofParams hlength hp, fun x t hx => (hmem x t hx).1,
    fun x t hx => (hargs t (hmem x t hx).2).1, fun x t hx => (hargs t (hmem x t hx).2).2⟩

def keepsBase (s : Substitution) : Ty → Bool
  | .generic base _ => (base.subst s).baseName == base.baseName
  | _ => true

theorem meetings_subst (hs : Assigns params s) (t : Ty) (ht : t.isConcrete = true) (hbases : t.Every (keepsBase s · = true)) :
    meetings params t (t.subst s) = t.outerNames.filterMap (image? s) := by
  have hconcrete := Ty.leafwise_concrete.subst hs.concrete
  have hinside : ∀ {pattern known inside}, pattern.leafName? = none → metOr params pattern known inside = inside := by
    intro pattern known inside h
    rw [metOr, param?, h]
    rfl
  induction t using Ty.induct with
  | leaf t hleaf =>
    rw [Ty.subst_leaf hleaf, Ty.outerNames_leaf hleaf]
    cases hname : t.leafName? with
    | none => exact meetings_leaf (by rw [param?, hname]; rfl) hleaf
    | some x =>
      simp only [Option.bind_some, Option.toList_some, List.filterMap_cons, List.filterMap_nil, image?]
      cases hx : s.find? x with
      | none =>
        refine meetings_leaf ?_ hleaf
        rw [param?, hname, Option.filter_some, if_neg]
        intro hmem
        have hsome := hs.total x (by simpa using hmem)
        rw [hx] at hsome
        cases hsome
      | some image =>
        have hparam := hs.param x image hx
        exact meetings_param (by rw [param?, hname, Option.filter_some, if_pos (by simpa using hparam)]) (hs.bindable hx).shows
  | generic base args _ ih =>
    obtain ⟨-, hargs⟩ := (Ty.leafwise_concrete.generic _ _).mp ht
    obtain ⟨hkept, -, hkeeps⟩ := Ty.every_generic.mp hbases
    have hbase : (base.subst s).baseName = base.baseName := beq_iff_eq.mp hkept
    rw [Ty.keepsShape_subst.generic, meetings_applied, hinside rfl, Ty.outerNames, hbase]
    · simp only [Ty.base, Ty.args, List.length_map, beq_self_eq_true, Bool.and_self, if_true]
      exact meetingsOf_subst fun t ht => ⟨rfl, ih t ht (hargs t ht) (hkeeps t ht)⟩
    · -- the pattern is a wrapper if the instance is one
      intro inner hwrapper hlength
      obtain ⟨arg, rfl, -⟩ := List.map_eq_singleton_iff.mp hlength
      simp [Ty.isWrapper, hbase] at hwrapper
  | array elem ih =>
    exact ih ht (Ty.every_array.mp hbases).2
  | pointer elem ih =>
    exact ih ht (Ty.every_pointer.mp hbases).2
  | map key elem ihkey ihelem =>
    obtain ⟨hkey, helem⟩ := (Ty.leafwise_concrete.map _ _).mp ht
    obtain ⟨-, hbkey, hbelem⟩ := Ty.every_map.mp hbases
    rw [Ty.subst, meetings, hinside rfl, Ty.outerNames, List.filterMap_append, ← ihkey hkey hbkey, ← ihelem helem hbelem]
  | func ins outs ihins ihouts =>
    obtain ⟨hins, houts⟩ := (Ty.leafwise_concrete.func _ _).mp ht
    obtain ⟨-, hbins, hbouts⟩ := Ty.every_func.mp hbases
    rw [Ty.keepsShape_subst.func, meetings, hinside rfl, Ty.outerNames, List.filterMap_append]
    simp only [List.length_map, beq_self_eq_true, if_true]
    rw [meetingsOf_subst fun t ht => ⟨rfl, ihouts t ht (houts t ht) (hbouts t ht)⟩,
      meetingsOf_subst fun t ht => ⟨hconcrete t (hins t ht), ihins t ht (hins t ht) (hbins t ht)⟩]

def Extends (b b' : Substitution) : Prop := ∀ x t, b.find? x = some t → b'.find? x = some t

theorem meetAll_extends {ms : List (String × Ty)} (hms : ∀ m ∈ ms, counts params m = true ∧ s.find? m.1 = some m.2)
    {b : Substitution} (hb : Extends b s) :
    ∃ b', meetAll params ms b = .ok () b' ∧ Extends b b' ∧ ∀ m ∈ ms, b'.find? m.1 = some m.2 := by
  induction ms generalizing b with
  | nil => exact ⟨b, rfl, fun _ _ h => h, List.forall_mem_nil _⟩
  | cons m ms ih =>
    obtain ⟨⟨hcounts, hm⟩, hms⟩ := List.forall_mem_cons.mp hms
    have hskip : (m.2.isAny || m.2.mentions params) = false := by simpa [counts] using hcounts
    have hmeet : ∃ b1, meet params m.1 m.2 b = .ok () b1 ∧ Extends b b1 ∧ Extends b1 s ∧ b1.find? m.1 = some m.2 := by
      simp only [meet, hskip, Bool.false_eq_true, if_false]
      cases hfind : b.find? m.1 with
      | none =>
        refine ⟨b.insert m.1 m.2, rfl, fun x t hx => ?_, Table.forall_find?_insert hb hm, by simp⟩
        rw [Table.find?_insert, if_neg, hx]
        rintro rfl
        cases hfind.symm.trans hx
      | some first =>
        obtain rfl : first = m.2 := Option.some.inj ((hb _ _ hfind).symm.trans hm)
        have hsame : (m.2 == m.2) = true := beq_self_eq_true m.2.render
        exact ⟨b, if_pos hsame, fun _ _ h => h, hb, hfind⟩
    obtain ⟨b1, hb1, hbb1, hb₁s, hfirst⟩ := hmeet
    obtain ⟨b', hb', hb₁b', hrest⟩ := ih hms hb₁s
    refine ⟨b', ?_, fun x t h => hb₁b' x t (hbb1 x t h), List.forall_mem_cons.mpr ⟨hb₁b' _ _ hfirst, hrest⟩⟩
    rw [meetAll_cons]
    simp only [Bind.bind, EStateM.bind, hb1, hb']

/-- Unifying a pattern with an instance of itself gives the images of the parameters, where each parameter is
    met and what is applied keeps its name. -/
theorem unifyAll_subst {t : Ty} (hs : Assigns params s) (ht : t.isConcrete = true) (hmet : ∀ p ∈ params, p ∈ t.outerNames)
    (hbases : t.Every (keepsBase s · = true)) :
    ∃ images, params.mapM s.find? = some images ∧ unifyAll params t (t.subst s) = some images := by
  have hms : ∀ m ∈ meetings params t (t.subst s), counts params m = true ∧ s.find? m.1 = some m.2 := by
    rw [meetings_subst hs t ht hbases]
    intro m hm
    obtain ⟨x, -, hm⟩ := List.mem_filterMap.mp hm
    obtain ⟨image, hx, rfl⟩ := Option.map_eq_some_iff.mp hm
    have himage := hs.bindable hx
    exact ⟨by simp [counts, himage.any, himage.unmentioned], hx⟩
  obtain ⟨b, hsolve, -, hbound⟩ := meetAll_extends hms (b := .empty) nofun
  rw [← solve_eq] at hsolve
  have hunify : (new params).unify? t (t.subst s) = some ⟨params, b⟩ := by
    simp only [unify?, unify, new, hsolve]
  obtain ⟨images, himages⟩ : ∃ images, params.mapM s.find? = some images := by
    refine ⟨_, mapM_some_mono (f := fun p => some ((s.find? p).getD .nil)) (fun p hp image himage => ?_) List.mapM_pure⟩
    obtain ⟨t, ht⟩ := Option.isSome_iff_exists.mp (hs.total p hp)
    rwa [ht] at himage ⊢
  refine ⟨images, himages, ?_⟩
  rw [unifyAll, hunify]
  refine mapM_some_mono (fun p hp image himage => ?_) himages
  have hmem : (p, image) ∈ meetings params t (t.subst s) := by
    rw [meetings_subst hs t ht hbases]
    exact List.mem_filterMap.mpr ⟨p, hmet p hp, by rw [image?, himage]; rfl⟩
  rw [hbound _ hmem, Option.filter_some, if_pos (hs.concrete p image himage)]

/-- `func(T) Pair[*T, []U]`, with `int` for `T` and `List[string]` for `U`. -/
theorem unifyAll_subst_pair :
    let s : Substitution := .ofParams ["T", "U"] [.int, .generic (.own "List") [.string]]
    let t : Ty := .func [.basic "T"] [.generic (.own "Pair") [.pointer (.basic "T"), .array (.basic "U")]]
    ∃ images, ["T", "U"].mapM s.find? = some images ∧ unifyAll ["T", "U"] t (t.subst s) = some images :=
  unifyAll_subst (assigns_ofParams rfl (by decide)) (by decide) (by decide) (by decide)

/-- `(*T)[T]` with `int` for `T`: no base is a parameter, but the name of one is that of the type a pointer leads to. -/
theorem base_renamed :
    let s : Substitution := .ofParams ["T"] [.int]
    let t : Ty := .generic (.pointer (.basic "T")) [.basic "T"]
    Assigns ["T"] s ∧ t.isConcrete = true ∧ (∀ p ∈ ["T"], p ∈ t.outerNames) ∧
      (∀ base args, .generic base args ∈ t.parts → base.isParam ["T"] = false) ∧
      ["T"].mapM s.find? = some [.int] ∧ unifyAll ["T"] t (t.subst s) = none := by
  refine ⟨assigns_ofParams rfl (by decide), by decide, by decide, ?_, rfl, rfl⟩
  intro base args hmem
  obtain ⟨rfl, -⟩ : base = .pointer (.basic "T") ∧ args = [.basic "T"] := by simpa using hmem
  rfl

end Unifier

end Lowering
