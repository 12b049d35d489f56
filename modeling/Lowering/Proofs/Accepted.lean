/-
  Accepted — no type of a lowered file wraps a wrapper.

  No type that is written wraps a wrapper. Wrappers that lowering makes are checked again, and types with
  arguments in place of parameters are not.
-/

import Lowering.Proofs.Entries
import Lowering.Proofs.FirstMatch
import Lowering.Proofs.Lowered
import Lowering.Proofs.Wrappers
import Mathlib.Data.List.TakeDrop
import Mathlib.Data.List.TakeWhile

namespace Lowering

open Lower (unlocated)

/-! ## Parameters out of wrappers -/

variable {params : List String}

def Declarable (params : List String) (name : String) : Prop := name ≠ Ty.wrapperName ∧ name ∉ params

instance (params : List String) (name : String) : Decidable (Declarable params name) :=
  inferInstanceAs (Decidable (_ ∧ _))

/-- The type parameters are known, and parameters and result stay apart from them. -/
structure PartedSignature (params typeParams : List String) (types : List Ty) (result : Ty) : Prop where
  typeParams : ∀ p ∈ typeParams, p ∈ params
  types : ∀ t ∈ types, t.Every (·.isApart params = true)
  result : result.Every (·.isApart params = true)

instance (params typeParams : List String) (types : List Ty) (result : Ty) :
    Decidable (PartedSignature params typeParams types result) :=
  decidable_of_iff ((∀ p ∈ typeParams, p ∈ params) ∧ (∀ t ∈ types, t.Every (·.isApart params = true)) ∧
      result.Every (·.isApart params = true))
    ⟨fun h => ⟨h.1, h.2.1, h.2.2⟩, fun h => ⟨h.typeParams, h.types, h.result⟩⟩

/-- The entry of a catalog keeps parameters out of wrappers. -/
structure TypeEntry.Parted (params : List String) (e : TypeEntry) : Prop where
  typeParams : ∀ p ∈ e.typeParams, p ∈ params
  /-- Every field type belongs to a field. -/
  named : e.fieldTypes.length ≤ e.fields.length
  fieldTypes : ∀ t ∈ e.fieldTypes, t.Every (·.isApart params = true)
  methods : ∀ name m, e.method? name = some m → PartedSignature params m.typeParams m.params m.result
  built : e.isBuilt = true → Declarable params e.name

/-- The program and the catalog keep type parameters, which are all among `params`, out of wrappers. -/
structure Parted (params : List String) (program : Source.Program) (catalog : Catalog) (settings : Settings) :
    Prop where
  runtime : settings.runtimePackage.isEmpty = false
  known : ∀ x, .param x ∈ program.items → x ∈ params
  written : ∀ t, .ty t ∈ program.items → t.Every (·.isApart params = true)
  declared : ∀ name, .type name ∈ program.items → Declarable params name
  receivers : ∀ d receiver, Index.Declared program (.func d) → d.receiver = some receiver →
    Declarable params receiver.ty.baseName
  types : ∀ package name e, catalog.type? package name = some e → e.Parted params
  /-- Only of functions that the program names, or that a temporary could stand for. -/
  functions : ∀ name, .mention name ∈ program.items ∨ (∃ n : Nat, name = settings.tempStem ++ toString n) →
    ∀ package f, catalog.function? package (Text.bareName name) = some f →
      PartedSignature params f.typeParams f.params f.result

/-! ## Bare names -/

namespace Text

theorem toList_bareName : (bareName name).toList = (name.toList.reverse.takeWhile (· != '.')).reverse := by
  simp only [bareName, splitQualifier, List.span_eq_takeWhile_dropWhile]
  cases hrest : name.toList.reverse.dropWhile (· != '.') with
  | nil =>
    have hall := List.takeWhile_append_dropWhile (p := (· != '.')) (l := name.toList.reverse)
    rw [hrest, List.append_nil] at hall
    rw [hall, List.reverse_reverse]
  | cons c rest => exact String.toList_ofList

theorem dot_not_mem_bareName : '.' ∉ (bareName name).toList := by
  rw [toList_bareName, List.mem_reverse]
  intro h
  simpa using List.mem_takeWhile_imp h

theorem bareName_qualify {name : String} (h : '.' ∉ name.toList) (package : String) :
    bareName (qualify package name) = name := by
  have hname : ∀ c ∈ name.toList.reverse, (c != '.') = true := fun c hc =>
    bne_iff_ne.mpr fun heq => h (heq ▸ List.mem_reverse.mp hc)
  rw [← String.toList_inj, toList_bareName]
  unfold qualify
  split
  · rw [List.takeWhile_eq_self_iff.mpr hname, List.reverse_reverse]
  · simp [String.toList_append, List.takeWhile_append_of_pos hname]

end Text

/-! ## The runtime alone -/

namespace Prelude

def typeParams : List String := "T" :: (List.range mostTupleArity).map fun i => "T" ++ toString (i + 1)

theorem types_parted : ∀ e ∈ (file "std").types, e.Parted typeParams := by
  have hall : ∀ e ∈ (file "std").types, (∀ p ∈ e.typeParams, p ∈ typeParams) ∧
      e.fieldTypes.length ≤ e.fields.length ∧ (∀ t ∈ e.fieldTypes, t.Every (·.isApart typeParams = true)) ∧
      (∀ p ∈ e.methods.entries, PartedSignature typeParams p.2.typeParams p.2.params p.2.result) ∧
      (e.isBuilt = true → Declarable typeParams e.name) := by decide
  intro e he
  obtain ⟨htypeParams, hnamed, hfields, hmethods, hbuilt⟩ := hall e he
  exact ⟨htypeParams, hnamed, hfields, fun name m hm => hmethods _ (Table.mem_entries hm), hbuilt⟩

def wrappers : List String := ["NewImmutable", "Copy"]

theorem functions_parted : ∀ f ∈ functions "std", Text.bareName f.qualifiedName ∉ wrappers →
    PartedSignature typeParams f.typeParams f.params f.result := by
  decide

theorem temporary_not_wrapper (n : Nat) : Text.bareName ("_tmp" ++ toString n) ∉ wrappers := by
  have hdot : '.' ∉ ("_tmp" ++ toString n).toList := by
    rw [String.toList_append, List.mem_append, not_or]
    refine ⟨by decide, fun h => ?_⟩
    have hdigit : '.'.isDigit = true :=
      Nat.isDigit_of_mem_toDigits (b := 10) (n := n) (by decide) (by decide) (by simpa using h)
    cases hdigit
  rw [← show Text.qualify "" _ = "_tmp" ++ toString n from rfl, Text.bareName_qualify hdot]
  intro h
  have hhead : ∀ name ∈ wrappers, name.toList.head? ≠ some '_' := by decide
  exact hhead _ h (by simp [String.toList_append])

theorem parted {program : Source.Program} (hknown : ∀ x, .param x ∈ program.items → x ∈ typeParams)
    (hwritten : ∀ t, .ty t ∈ program.items → t.Every (·.isApart typeParams = true))
    (hdeclared : ∀ name, .type name ∈ program.items → Declarable typeParams name)
    (hreceivers : ∀ d receiver, Index.Declared program (.func d) → d.receiver = some receiver →
      Declarable typeParams receiver.ty.baseName)
    (hmentions : ∀ name, .mention name ∈ program.items → Text.bareName name ∉ wrappers) :
    Parted typeParams program (catalog "std") .standard := by
  have htypes : ∀ f ∈ [file "std"], ∀ e ∈ f.types, e.Parted typeParams := List.forall_mem_singleton.mpr types_parted
  have hcatalog := Catalog.forall_merged (P := fun _ e => e.Parted typeParams)
    (Q := fun key f => key = f.qualifiedName ∧ f ∈ functions "std") htypes
    (List.forall_mem_singleton.mpr fun f hf => ⟨rfl, hf⟩)
  refine ⟨rfl, hknown, hwritten, hdeclared, hreceivers, fun package name e he => hcatalog.1 _ e he, ?_⟩
  intro name hname package f hf
  obtain ⟨hkey, hmem⟩ := hcatalog.2 _ f hf
  have hbare : Text.bareName f.qualifiedName = Text.bareName name := by
    rw [← hkey, Text.bareName_qualify Text.dot_not_mem_bareName]
  refine functions_parted f hmem ?_
  rw [hbare]
  rcases hname with hname | ⟨n, rfl⟩
  · exact hmentions name hname
  · exact temporary_not_wrapper n

end Prelude

/-! ## Types put together -/

namespace Ty

variable {name package : String}

theorem sound_apply (hname : name ≠ wrapperName) (hparam : package.isEmpty = false ∨ name ∉ params) {args : List Ty}
    (hargs : ∀ a ∈ args, a.Sound params) : ((Ty.named package name).apply args).Sound params := by
  have hmentions : (Ty.named package name).mentions params = false := by
    rcases hparam with hpackage | hparam
    · simp [mentions, hpackage]
    · simp [mentions, hparam]
  have hbase : (name == wrapperName) = false := beq_false_of_ne hname
  unfold apply
  split
  · exact sound_leaf rfl
  · refine every_generic.mpr ⟨?_, sound_leaf rfl, hargs⟩
    rcases args with _ | ⟨a, _ | ⟨b, args⟩⟩ <;> simp [isDoubleWrap, isApart, hmentions, baseName, hbase]

theorem accepted_named (name : String) (names : List String) : ((Ty.own name).apply (names.map .basic)).Accepted := by
  unfold apply
  split
  · exact (every_leaf rfl).mpr rfl
  · refine every_generic.mpr ⟨?_, (every_leaf rfl).mpr rfl, ?_⟩
    · rcases names with _ | ⟨a, _ | ⟨b, names⟩⟩ <;> simp [isDoubleWrap, isWrapper]
    · intro t ht
      obtain ⟨x, -, rfl⟩ := List.mem_map.mp ht
      exact (every_leaf rfl).mpr rfl

theorem accepted_generic (hname : name ≠ wrapperName) {t : Ty} (ht : t.Accepted) :
    (Ty.generic (.named package name) [t]).Accepted := by
  refine every_generic.mpr ⟨?_, (every_leaf rfl).mpr rfl, List.forall_mem_singleton.mpr ht⟩
  simp [isDoubleWrap, baseName, beq_false_of_ne hname]

end Ty

/-! ## The rule -/

/-- Types of expressions are sound, types that are written are accepted. -/
def wrapping (params : List String) (env : Env) : Rule where
  ty := Ty.Sound params
  param x := x ∈ params
  mention name := ∀ f, env.function? name = some f →
    (∀ p ∈ f.typeParams, p ∈ params) ∧ (∀ t ∈ f.params, t.Sound params) ∧ f.result.Sound params
  stem stem := stem = env.settings.tempStem
  emitted := Ty.Accepted
  node n := ∀ t ∈ n.types, t.Accepted

variable {program : Source.Program} {catalog : Catalog} {settings : Settings} {env : Env}

variable {t : Ty}

theorem Parted.sound (h : Parted params program catalog settings) (hcheck : program.checkTypes = .ok ())
    (ht : .ty t ∈ program.items) : t.Sound params :=
  Ty.sound_iff.mpr ⟨Source.Program.checkTypes_iff.mp hcheck t ht, h.written t ht⟩

theorem sound_of_result (h : (wrapping params env).Result t) : t.Sound params := by
  rcases h with rfl | h
  · exact Ty.sound_leaf rfl
  · exact h

theorem PartedSignature.signature {typeParams : List String} {types : List Ty} {result : Ty}
    (h : PartedSignature params typeParams types result) (htypes : ∀ t ∈ types ++ [result], t.Accepted) :
    (wrapping params env).Signature typeParams types result where
  typeParams := h.typeParams
  params t ht := Ty.sound_iff.mpr ⟨htypes t (List.mem_append_left _ ht), h.types t ht⟩
  result := .inr (Ty.sound_iff.mpr ⟨htypes result (List.mem_append_right _ (.head _)), h.result⟩)

/-! ## Entries of the program -/

theorem sound_tuple {runtime : String} (hruntime : runtime.isEmpty = false) {elems : List Ty}
    (h : ∀ t ∈ elems, t.Sound params) : (Ty.tuple runtime elems).Sound params :=
  Ty.sound_apply (Ty.tupleName_ne _) (.inl hruntime) h

theorem sound_selfType {e : TypeEntry} {name : String} (hname : Declarable params e.name) :
    (e.selfType name).Sound params := by
  refine Ty.sound_apply hname.1 (.inr hname.2) fun t ht => ?_
  obtain ⟨x, -, rfl⟩ := List.mem_map.mp ht
  exact Ty.sound_leaf rfl

section

variable (h : Parted params program catalog settings)
include h

theorem wrapping_indexes (hcheck : program.checkTypes = .ok ()) :
    (wrapping params env).Indexes program settings.runtimePackage where
  ty := h.sound hcheck
  param := h.known _
  leaf _ := Ty.sound_leaf rfl
  self hd := sound_selfType (h.declared _ (Index.mem_items_of_declared hd (.head _)))
  option ht := Ty.sound_apply (by decide) (.inl h.runtime) (List.forall_mem_singleton.mpr ht)
  tuple := sound_tuple h.runtime
  subst hs ht := Ty.sound_subst hs ht

theorem own_names {index : Index} (hindex : Index.build program settings.runtimePackage = .ok index) :
    ∀ name e, index.types.find? name = some e → e.name = name ∧ Declarable params name := by
  refine Index.types_induction hindex ?_ ?_ ?_ ?_
  · exact fun d hd => ⟨TypeEntry.ofStruct_name, h.declared _ (Index.mem_items_of_declared hd (.head _))⟩
  · intro d hd v hv
    refine ⟨rfl, h.declared _ (Index.mem_items_of_declared hd ?_)⟩
    exact .tail _ (List.mem_append_right _ (List.mem_flatMap.mpr ⟨v, hv, .head _⟩))
  · exact fun d hd e he => ⟨TypeEntry.sealed_name he, h.declared _ (Index.mem_items_of_declared hd (.head _))⟩
  · intro d receiver hd hreceiver e he
    have hname : e.name = receiver.ty.baseName := by
      rcases he with he | rfl
      · exact he.1
      · rfl
    refine ⟨?_, h.receivers d receiver hd hreceiver⟩
    simp only [TypeEntry.withMethod, TypeEntry.addMethod, apply_ite TypeEntry.name, ite_self, hname]

end

/-! ## Entries of the catalog -/

theorem entry_of_parted {e : TypeEntry} (h : e.Parted params) (hmembers : ∀ p ∈ e.members, p.2.Accepted) :
    (wrapping params env).Entry e where
  typeParams := h.typeParams
  fieldTypes := by
    intro t ht
    rw [← List.map_snd_zip h.named] at ht
    obtain ⟨p, hp, rfl⟩ := List.mem_map.mp ht
    refine Ty.sound_iff.mpr ⟨hmembers p (List.mem_append_left _ (List.mem_append_left _ hp)), ?_⟩
    exact h.fieldTypes p.2 (List.of_mem_zip hp).2
  methods := by
    intro name m hm
    refine (h.methods name m hm).signature fun t ht => ?_
    refine hmembers (name, t) (List.mem_append_right _ (List.mem_flatMap.mpr ⟨(name, m), Table.mem_entries hm, ?_⟩))
    exact List.mem_map.mpr ⟨t, ht, rfl⟩

namespace Env

variable {name : String}

theorem type?_cases {e : TypeEntry} (h : env.type? name = some e) :
    env.index.types.find? name = some e ∨ ∃ package bare, env.catalog.type? package bare = some e := by
  unfold type? at h
  split at h
  · exact .inr ⟨_, _, h⟩
  · rw [Option.orElse_eq_orElse, Option.orElse_eq_or, Option.or_eq_some_iff] at h
    rcases h with h | ⟨-, h⟩
    · exact .inl h
    · obtain ⟨package, -, h⟩ := List.exists_of_findSome?_eq_some h
      exact .inr ⟨package, name, h⟩

theorem function?_cases {f : FunctionEntry} (h : env.function? name = some f) :
    env.index.functions.find? name = some f ∨
      ∃ package, env.catalog.function? package (Text.bareName name) = some f := by
  cases hsplit : Text.splitQualifier name with
  | some parts =>
    simp only [function?, hsplit] at h
    simp only [Text.bareName, hsplit]
    exact .inr ⟨_, h⟩
  | none =>
    simp only [function?, hsplit] at h
    simp only [Text.bareName, hsplit]
    rw [Option.orElse_eq_orElse, Option.orElse_eq_or, Option.or_eq_some_iff] at h
    rcases h with h | ⟨-, h⟩
    · exact .inl h
    · obtain ⟨package, -, h⟩ := List.exists_of_findSome?_eq_some h
      exact .inr ⟨package, h⟩

end Env

/-! ## The laws -/

section

variable (h : Parted params program catalog settings) (hcheck : program.checkTypes = .ok ())
  (henv : Env.ofProgram program catalog settings = .ok env)
include h hcheck henv

section

variable (hfunctions : ∀ key f, catalog.functions.find? key = some f → ∀ t ∈ f.params ++ [f.result], t.Accepted)
include hfunctions

theorem mention_of_named {name : String}
    (hname : .mention name ∈ program.items ∨ ∃ n : Nat, name = settings.tempStem ++ toString n) :
    (wrapping params env).mention name := by
  intro f hf
  obtain ⟨index, hindex, rfl⟩ := Env.ofProgram_ok henv
  have hsignature : (wrapping params ⟨index, catalog, settings⟩).Signature f.typeParams f.params f.result := by
    rcases Env.function?_cases hf with hown | ⟨package, hcatalog⟩
    · exact (wrapping_indexes h hcheck).function hindex hown
    · exact (h.functions name hname package f hcatalog).signature (hfunctions _ f hcatalog)
  exact ⟨hsignature.typeParams, hsignature.params, sound_of_result hsignature.result⟩

theorem wrapping_declares {d : Located Source.Decl} (hd : d ∈ program.decls) :
    (wrapping params env).Declares env d.val where
  items := by
    intro i hi
    have hmem : i ∈ program.items := List.mem_flatMap.mpr ⟨d, hd, hi⟩
    cases i with
    | ty t => exact h.sound hcheck hmem
    | param x => exact h.known x hmem
    | mention x => exact mention_of_named h hcheck henv hfunctions (.inl hmem)
    | _ => trivial
  self decl hdecl e he := by
    obtain ⟨index, hindex, rfl⟩ := Env.ofProgram_ok henv
    obtain ⟨hname, hdeclarable⟩ := own_names h hindex _ e he
    exact sound_selfType (hname ▸ hdeclarable)

end

variable (htypes : ∀ key e, catalog.types.find? key = some e → ∀ p ∈ e.members, p.2.Accepted)
include htypes

theorem entry_of_type? {name : String} {e : TypeEntry} (he : env.type? name = some e) :
    (wrapping params env).Entry e ∧ (e.isBuilt = true → Declarable params e.name) := by
  obtain ⟨index, hindex, rfl⟩ := Env.ofProgram_ok henv
  rcases Env.type?_cases he with hown | ⟨package, bare, hcatalog⟩
  · obtain ⟨hname, hdeclarable⟩ := own_names h hindex name e hown
    exact ⟨(wrapping_indexes h hcheck).entry hindex hown, fun _ => hname ▸ hdeclarable⟩
  · have hparted := h.types package bare e hcatalog
    exact ⟨entry_of_parted hparted (htypes _ e hcatalog), hparted.built⟩

theorem wrapping_closed : (wrapping params env).Closed env where
  builtin _ _ := Ty.sound_leaf rfl
  any := Ty.sound_leaf rfl
  nil := Ty.sound_leaf rfl
  void := Ty.sound_leaf rfl
  args {t} ht := by
    cases t with
    | generic base args => exact (Ty.every_generic.mp ht).2.2
    | _ => simp [Ty.args]
  array ht := (Ty.every_array.mp ht).2
  pointer ht := (Ty.every_pointer.mp ht).2
  map ht := (Ty.every_map.mp ht).2
  func := ⟨fun ht => (Ty.every_func.mp ht).2, fun ht => Ty.every_func.mpr ⟨⟨rfl, rfl⟩, ht⟩⟩
  tuple helems := by
    obtain ⟨index, -, rfl⟩ := Env.ofProgram_ok henv
    exact sound_tuple h.runtime helems
  built he hbuilt hargs := by
    have hname := (entry_of_type? h hcheck henv htypes he).2 hbuilt
    exact Ty.sound_apply hname.1 (.inr hname.2) hargs
  subst hs ht := Ty.sound_subst hs ht
  entry he := (entry_of_type? h hcheck henv htypes he).1
  function hname hf := ⟨(hname _ hf).1, (hname _ hf).2.1, .inr (hname _ hf).2.2⟩
  expansion ha := by
    obtain ⟨index, hindex, rfl⟩ := Env.ofProgram_ok henv
    exact (wrapping_indexes h hcheck).expansion hindex ha

theorem wrapping_lawful
    (hfunctions : ∀ key f, catalog.functions.find? key = some f → ∀ t ∈ f.params ++ [f.result], t.Accepted) :
    (wrapping params env).Lawful env where
  toClosed := wrapping_closed h hcheck henv htypes
  emitted ht := (Ty.sound_iff.mp ht).1
  plain _ _ ht _ _ := ht
  stem := rfl
  temporary {stem} hstem n := by
    obtain rfl : stem = env.settings.tempStem := hstem
    refine ⟨trivial, mention_of_named h hcheck henv hfunctions (.inr ⟨n, ?_⟩)⟩
    obtain ⟨index, -, rfl⟩ := Env.ofProgram_ok henv
    rfl
  wrapper {t w} _ hw := by
    obtain ⟨_, hok, hw⟩ := except_bind_ok.mp hw
    cases hw
    exact (Ty.checkWrappers_iff _).mp hok
  own {name e} he := by
    obtain ⟨index, hindex, rfl⟩ := Env.ofProgram_ok henv
    exact (wrapping_indexes h hcheck).entry hindex he
  named := Ty.accepted_named
  option {t} ht name hname := by
    refine Ty.accepted_generic ?_ ht
    rintro rfl
    revert hname
    decide
  dropped _ := by simp [wrapping, Target.Stmt.discard, Target.Stmt.assign1]
  flagged _ := by simp [wrapping, Target.Stmt.assign1]
  place _ _ _ _ _ := by simp [wrapping]
  made _ ht := ht
  straight _ _ _ ht _ := ht

end

/-! ## Files -/

/-- No type anywhere in the lowered file wraps a wrapper, at any depth. -/
theorem lowerProgram_accepted {params : List String} {program : Source.Program} {files : List CatalogFile}
    {settings : Settings} {file : Target.File} (hfiles : ∀ f ∈ files, f.check = .ok ())
    (hparted : Parted params program (files.foldl .merge .empty) settings)
    (hfile : lowerProgram program (files.foldl .merge .empty) settings = .ok file) :
    ∀ n ∈ file.nodes, ∀ t ∈ n.types, t.checkWrappers = .ok () ∧ ∀ part ∈ t.parts, part.isDoubleWrap = false := by
  intro n hn t ht
  have hcatalog := Catalog.forall_merged (P := fun _ e => ∀ p ∈ e.members, p.2.Accepted)
    (Q := fun _ f => ∀ t ∈ f.params ++ [f.result], t.Accepted)
    (fun f hf => (CatalogFile.check_ok (hfiles f hf)).1) fun f hf => (CatalogFile.check_ok (hfiles f hf)).2
  obtain ⟨_, hcheck, hrest⟩ := checked_bind_ok hfile
  obtain ⟨env, henv, -⟩ := checked_bind_ok hrest
  have haccepted : t.Accepted := by
    have hnode : (wrapping params env).node n := by
      refine Rule.Lawful.lowerProgram hfile (fun env' henv' => ?_) n hn
      cases henv.symm.trans henv'
      exact ⟨wrapping_lawful hparted hcheck henv hcatalog.1 hcatalog.2,
        fun d hd => wrapping_declares hparted hcheck henv hcatalog.2 hd⟩
    exact hnode t ht
  exact ⟨(Ty.checkWrappers_iff t).mpr haccepted, haccepted⟩

/-- `Immutable[t]` -/
def wrapperOf (t : Ty) : Ty := .generic (.named "std" Ty.wrapperName) [t]

/-- `func f[T](x T) result = body` and `func g(a Immutable[int]) { var y = f[Immutable[int]](a) }` -/
def callingWithWrapper (result : Ty) (body : Source.Expr) : List (Located Source.Decl) :=
  [unlocated (.func ⟨unlocated "f", [⟨"T", none⟩], none, [⟨unlocated "x", .basic "T"⟩], some result, unlocated body,
      .synthetic⟩),
    unlocated (.func ⟨unlocated "g", [], none, [⟨unlocated "a", wrapperOf .int⟩], none,
      unlocated (.block [unlocated (.val ⟨unlocated "y", true, none, unlocated (.call (unlocated (.ident "f"))
        [wrapperOf .int] [⟨none, unlocated (.ident "a")⟩])⟩)]), .synthetic⟩)]

/-- `struct Box[T] { x: T }`, and `f` puts its argument into a box. -/
def boxing : Source.Program where
  package := "main"
  decls := unlocated (.struct ⟨unlocated "Box", [⟨"T", none⟩], [⟨unlocated "x", .basic "T", false⟩], .synthetic⟩) ::
    callingWithWrapper (.generic (.own "Box") [.basic "T"])
      (.call (unlocated (.ident "Box")) [.basic "T"] [⟨none, unlocated (.ident "x")⟩])

theorem boxing_parted : Parted Prelude.typeParams boxing (Prelude.catalog "std") .standard := by
  have hitems : boxing.items = [.type "Box", .param "T", .ty (.basic "T"), .function "f", .param "T", .binder "x",
    .ty (.basic "T"), .ty (.generic (.own "Box") [.basic "T"]), .ty (.basic "T"), .mention "Box", .mention "x",
    .function "g", .binder "a", .ty (wrapperOf .int), .binder "y", .ty (wrapperOf .int), .mention "f",
    .mention "a"] := rfl
  refine Prelude.parted ?_ ?_ ?_ ?_ ?_
  · simp [hitems, Prelude.typeParams]
  · rw [hitems]
    intro t ht
    simp only [List.mem_cons, Source.Item.ty.injEq, reduceCtorEq, false_or, List.not_mem_nil, or_false] at ht
    rcases ht with rfl | rfl | rfl | rfl | rfl | rfl <;> decide
  · rw [hitems]
    intro name hname
    simp only [List.mem_cons, Source.Item.type.injEq, reduceCtorEq, List.not_mem_nil, or_false] at hname
    rw [hname]
    decide
  · rintro d receiver ⟨span, hd⟩ hreceiver
    simp only [boxing, callingWithWrapper, unlocated, List.mem_cons, Located.mk.injEq, Source.Decl.func.injEq,
      reduceCtorEq, false_and, false_or, List.not_mem_nil, or_false] at hd
    rcases hd with ⟨rfl, -⟩ | ⟨rfl, -⟩ <;> cases hreceiver
  · rw [hitems]
    intro name hname
    simp only [List.mem_cons, Source.Item.mention.injEq, reduceCtorEq, false_or, List.not_mem_nil, or_false] at hname
    rcases hname with rfl | rfl | rfl | rfl <;> decide

/-- `f[Immutable[int]](a.Get())` -/
def callOfF : Target.Expr := .call (.ident "f") [wrapperOf .int] [Storage.read (.ident "a")]

/-- The lowered `f` and `g`, with the result of `f` and the type of `y`. -/
def calledWithWrapper (result ty : Ty) (body : List Target.Stmt) : List Target.Decl :=
  [.func ⟨"f", [⟨"T", .any⟩], none, [⟨"x", .basic "T"⟩], [result], body⟩,
    .func ⟨"g", [], none, [⟨"a", wrapperOf .int⟩], [], [.var "y" ty (some callOfF), .discard (.ident "y")]⟩]

theorem mem_calledWithWrapper (result ty : Ty) (body : List Target.Stmt) :
    .stmt (.var "y" ty (some callOfF)) ∈ (calledWithWrapper result ty body).flatMap Target.Decl.nodes := by
  simp [calledWithWrapper, Target.Decl.nodes]

/-- A wrapper takes the place of a parameter that is not wrapped: `y` is a box of a wrapper. -/
theorem lowerProgram_accepted_boxing : ∃ file,
    lowerProgram boxing (Prelude.catalog "std") .standard = .ok file ∧ (Prelude.file "std").check = .ok () ∧
      (∃ n ∈ file.nodes, .generic (.own "Box") [wrapperOf .int] ∈ n.types) ∧
      ∀ n ∈ file.nodes, ∀ t ∈ n.types, t.checkWrappers = .ok () ∧ ∀ part ∈ t.parts, part.isDoubleWrap = false := by
  have hcheck : (Prelude.file "std").check = .ok () := by with_unfolding_all rfl
  have hfile : lowerProgram boxing (Prelude.catalog "std") .standard =
      .ok ⟨"main", [⟨none, "valgo/std"⟩], .struct "Box" [⟨"T", .any⟩] [⟨"x", wrapperOf (.basic "T")⟩] ::
        calledWithWrapper (.generic (.own "Box") [.basic "T"]) (.generic (.own "Box") [wrapperOf .int])
          [.ret1 (.composite (.generic (.own "Box") [.basic "T"])
            [⟨some "x", .call (.selector (.ident "std") "NewImmutable") [.basic "T"] [.ident "x"]⟩])]⟩ := by
    with_unfolding_all rfl
  have hfiles : ∀ f ∈ [Prelude.file "std"], f.check = .ok () := List.forall_mem_singleton.mpr hcheck
  refine ⟨_, hfile, hcheck, ?_, lowerProgram_accepted hfiles boxing_parted hfile⟩
  exact ⟨_, List.mem_append_right _ (mem_calledWithWrapper _ _ _), .head _⟩

/-- `f` returns a list of wrapped values. -/
def listing : Source.Program where
  package := "main"
  decls := callingWithWrapper (.generic (.named "std" "List") [wrapperOf (.basic "T")])
    (.call (unlocated (.ident "panic")) [] [⟨none, unlocated (.lit (.int 1))⟩])

/-- A wrapper takes the place of a parameter that is wrapped. -/
theorem wrapper_ofParameter : ∃ file, lowerProgram listing .empty .standard = .ok file ∧
    ∃ n ∈ file.nodes, ∃ t ∈ n.types, t.checkWrappers ≠ .ok () := by
  have hfile : lowerProgram listing .empty .standard = .ok ⟨"main", [⟨none, "valgo/std"⟩],
      calledWithWrapper (.generic (.named "std" "List") [wrapperOf (.basic "T")])
        (.generic (.named "std" "List") [wrapperOf (wrapperOf .int)])
        [.expr (.call (.ident "panic") [] [.lit (.int 1)])]⟩ := by
    with_unfolding_all rfl
  refine ⟨_, hfile, _, mem_calledWithWrapper _ _ _, _, .head _, ?_⟩
  rw [ne_eq, Ty.checkWrappers_iff, Ty.Accepted]
  decide

end Lowering
