/-
  Renaming — exchanging names in types.

  Types are compared by their renderings, so a renaming acts on texts as well: a text is cut at the characters
  between the names of a rendered type, and each word in it is exchanged.
-/

import Lowering.Proofs.Leaves
import Lowering.Ty.Unify

namespace Lowering

namespace Text

/-! ## Words -/

def isSeparator (c : Char) : Bool := ['[', ']', '(', ')', ',', ' ', '.', '*'].contains c

theorem isSeparator_of_isDigit {c : Char} (h : c.isDigit = true) : isSeparator c = false := by
  cases hseparator : isSeparator c with
  | false => rfl
  | true =>
    have hnone : ∀ s ∈ ['[', ']', '(', ')', ',', ' ', '.', '*'], s.isDigit = false := by simp
    rw [hnone c (List.contains_iff_mem.mp hseparator)] at h
    cases h

/-- A text with a change to its words; `word` is what has been read of the first one. -/
def spell (change : List Char → List Char) : (word text : List Char) → List Char
  | word, [] => change word
  | word, c :: text => if isSeparator c then change word ++ c :: spell change [] text else spell change (word ++ [c]) text

section

variable {change : List Char → List Char}

theorem spell_append_separator {c : Char} (hc : isSeparator c = true) {before after : List Char} (word : List Char) :
    spell change word (before ++ c :: after) = spell change word before ++ c :: spell change [] after := by
  induction before generalizing word with
  | nil => simp [spell, hc]
  | cons b before ih =>
    simp only [List.cons_append, spell]
    split
    · rw [ih, List.append_assoc, List.cons_append]
    · exact ih _

theorem spell_word {text : List Char} (h : ∀ c ∈ text, isSeparator c = false) (word : List Char) :
    spell change word text = change (word ++ text) := by
  induction text generalizing word with
  | nil => simp [spell]
  | cons c text ih =>
    simp only [spell, h c (.head _), Bool.false_eq_true, if_false]
    rw [ih (fun c' hc' => h c' (.tail _ hc')), List.append_assoc, List.cons_append, List.nil_append]

end

end Text

def Ty.Reserved (name : String) : Prop :=
  name ∈ builtinNames ++ ["interface\x7b\x7d", "func", "map", "nil", "void", wrapperName, "Option"] ∨
    ∃ arity, name = tupleName arity

/-- An exchange of words. -/
structure Renaming where
  word : List Char → List Char
  word_nil : word [] = []
  involutive : ∀ w, word (word w) = w
  unseparated : ∀ w, (∀ c ∈ w, Text.isSeparator c = false) → ∀ c ∈ word w, Text.isSeparator c = false
  reserved : ∀ name, Ty.Reserved name → Text.spell word [] name.toList = name.toList

namespace Renaming

variable (ρ : Renaming)

/-! ## Texts -/

def chars (text : List Char) : List Char := Text.spell ρ.word [] text

def name (text : String) : String := String.ofList (ρ.chars text.toList)

@[simp] theorem toList_name : (ρ.name text).toList = ρ.chars text.toList := String.toList_ofList

@[simp] theorem chars_nil : ρ.chars [] = [] := ρ.word_nil

variable {ρ}

variable {c : Char}

theorem chars_append (hc : Text.isSeparator c = true) (before after : List Char) :
    ρ.chars (before ++ c :: after) = ρ.chars before ++ c :: ρ.chars after :=
  Text.spell_append_separator hc []

theorem chars_cons (hc : Text.isSeparator c = true) (text : List Char) : ρ.chars (c :: text) = c :: ρ.chars text := by
  exact (chars_append hc [] text).trans (congrArg (· ++ c :: ρ.chars text) ρ.chars_nil)

variable (ρ)

theorem spell_spell {word : List Char} (hword : ∀ c ∈ word, Text.isSeparator c = false) (text : List Char) :
    ρ.chars (Text.spell ρ.word word text) = word ++ text := by
  induction text generalizing word with
  | nil =>
    simp only [Text.spell, chars, List.append_nil]
    rw [Text.spell_word (ρ.unseparated word hword), List.nil_append, ρ.involutive]
  | cons c text ih =>
    by_cases hc : Text.isSeparator c = true
    · have hrest : ρ.chars (Text.spell ρ.word [] text) = text := ih (by simp)
      have hfirst : ρ.chars (ρ.word word) = word := by
        rw [chars, Text.spell_word (ρ.unseparated word hword), List.nil_append, ρ.involutive]
      simp only [Text.spell, hc, if_true]
      rw [chars_append hc, hfirst, hrest]
    · have hnext : ∀ c' ∈ word ++ [c], Text.isSeparator c' = false := by
        simpa [or_imp, forall_and] using And.intro hword (Bool.eq_false_iff.mpr hc)
      simp only [Text.spell, hc, Bool.false_eq_true, if_false]
      rw [ih hnext, List.append_assoc, List.cons_append, List.nil_append]

@[simp] theorem name_name (text : String) : ρ.name (ρ.name text) = text := by
  rw [← String.toList_inj, toList_name, toList_name]
  exact ρ.spell_spell (by simp) _

theorem name_inj {a b : String} : ρ.name a = ρ.name b ↔ a = b := by
  constructor
  · intro h
    rw [← ρ.name_name a, h, name_name]
  · exact congrArg _

@[simp] theorem name_empty : ρ.name "" = "" := by
  rw [← String.toList_inj, toList_name]
  exact ρ.word_nil

theorem name_reserved {text : String} (h : Ty.Reserved text) : ρ.name text = text := by
  rw [← String.toList_inj, toList_name]
  exact ρ.reserved text h

theorem name_eq_iff {a b : String} (h : ρ.name b = b) : ρ.name a = b ↔ a = b := by
  constructor
  · intro ha
    rw [← ρ.name_name a, ha, h]
  · rintro rfl
    exact h

@[simp] theorem isEmpty_name : (ρ.name text).isEmpty = text.isEmpty := by
  rw [Bool.eq_iff_iff, String.isEmpty_iff, String.isEmpty_iff]
  exact ρ.name_eq_iff ρ.name_empty

theorem contains_map_name (names : List String) (x : String) :
    (names.map ρ.name).contains (ρ.name x) = names.contains x := by
  rw [Bool.eq_iff_iff, List.contains_iff_mem, List.contains_iff_mem, List.mem_map]
  constructor
  · rintro ⟨y, hy, h⟩
    rwa [← ρ.name_inj.mp h]
  · exact fun h => ⟨x, h, rfl⟩

theorem contains_name {names : List String} (h : ∀ x ∈ names, ρ.name x = x) (x : String) :
    names.contains (ρ.name x) = names.contains x := by
  have hsame : names.map ρ.name = names := (List.map_congr_left h).trans (List.map_id _)
  have hmap := ρ.contains_map_name names x
  rwa [hsame] at hmap

theorem name_join (texts : List String) : ρ.name (", ".intercalate texts) = ", ".intercalate (texts.map ρ.name) := by
  induction texts with
  | nil => exact ρ.name_empty
  | cons a texts ih =>
    cases texts with
    | nil => simp
    | cons b texts =>
      rw [List.map_cons] at ih
      rw [List.map_cons, List.map_cons, String.intercalate_cons_cons, String.intercalate_cons_cons, ← ih,
        ← String.toList_inj]
      have hcomma : Text.isSeparator ',' = true := by decide
      have hblank : Text.isSeparator ' ' = true := by decide
      simp [chars_append hcomma, chars_cons hblank]

end Renaming

/-! ## Types -/

namespace Ty

section

variable (ρ : Renaming)

mutual

def rename : Ty → Ty
  | .basic name => .basic (ρ.name name)
  | .named package name => .named (ρ.name package) (ρ.name name)
  | .generic base params => .generic base.rename (renameList params)
  | .array elem => .array elem.rename
  | .pointer elem => .pointer elem.rename
  | .map key elem => .map key.rename elem.rename
  | .func params results => .func (renameList params) (renameList results)
  | .any => .any
  | .nil => .nil
  | .void => .void

def renameList : List Ty → List Ty
  | [] => []
  | t :: ts => t.rename :: renameList ts

end

theorem renameList_eq (ts : List Ty) : renameList ρ ts = ts.map (rename ρ) := by
  induction ts with
  | nil => rfl
  | cons t ts ih => rw [renameList, ih, List.map_cons]

theorem resultText_name (texts : List String) : resultText (texts.map ρ.name) = ρ.name (resultText texts) := by
  have hblank : Text.isSeparator ' ' = true := by decide
  have hopen : Text.isSeparator '(' = true := by decide
  have hclose : Text.isSeparator ')' = true := by decide
  cases texts with
  | nil => simp [resultText]
  | cons a texts =>
    cases texts with
    | nil =>
      rw [← String.toList_inj]
      simp [resultText, Renaming.chars_cons hblank]
    | cons b texts =>
      simp only [List.map_cons, resultText]
      rw [← List.map_cons, ← List.map_cons, ← Renaming.name_join, ← String.toList_inj]
      generalize ", ".intercalate (a :: b :: texts) = joined
      simp [Renaming.chars_append hclose, Renaming.chars_cons hblank, Renaming.chars_cons hopen]

mutual

theorem render_rename : ∀ t : Ty, (t.rename ρ).render = ρ.name t.render
  | .basic name => rfl
  | .named package name => by
    have hdot : Text.isSeparator '.' = true := by decide
    simp only [rename, render, Renaming.isEmpty_name]
    split
    · rfl
    · rw [← String.toList_inj]
      simp [Renaming.chars_append hdot]
  | .generic base params => by
    have hopen : Text.isSeparator '[' = true := by decide
    have hclose : Text.isSeparator ']' = true := by decide
    simp only [rename, render]
    rw [render_rename base, renderList_rename params, ← Renaming.name_join, ← String.toList_inj]
    simp [Renaming.chars_append hopen, Renaming.chars_append hclose]
  | .array elem => by
    have hopen : Text.isSeparator '[' = true := by decide
    have hclose : Text.isSeparator ']' = true := by decide
    simp only [rename, render]
    rw [render_rename elem, ← String.toList_inj]
    simp [Renaming.chars_cons hopen, Renaming.chars_cons hclose]
  | .pointer elem => by
    have hstar : Text.isSeparator '*' = true := by decide
    simp only [rename, render]
    rw [render_rename elem, ← String.toList_inj]
    simp [Renaming.chars_cons hstar]
  | .map key elem => by
    have hopen : Text.isSeparator '[' = true := by decide
    have hclose : Text.isSeparator ']' = true := by decide
    have hmap : ρ.chars "map".toList = "map".toList := ρ.reserved _ (.inl (by decide))
    simp only [rename, render]
    rw [render_rename key, render_rename elem, ← String.toList_inj]
    have hsplit : ρ.chars ("map".toList ++ '[' :: (key.render.toList ++ ']' :: elem.render.toList)) =
        "map".toList ++ '[' :: (ρ.chars key.render.toList ++ ']' :: ρ.chars elem.render.toList) := by
      rw [Renaming.chars_append hopen, Renaming.chars_append hclose, hmap]
    simpa using hsplit.symm
  | .func params results => by
    have hopen : Text.isSeparator '(' = true := by decide
    have hclose : Text.isSeparator ')' = true := by decide
    have hfunc : ρ.chars "func".toList = "func".toList := ρ.reserved _ (.inl (by decide))
    simp only [rename, render]
    rw [renderList_rename params, renderList_rename results, ← Renaming.name_join, resultText_name, ← String.toList_inj]
    generalize ", ".intercalate (renderList params) = ins
    generalize resultText (renderList results) = outs
    have hsplit : ρ.chars ("func".toList ++ '(' :: (ins.toList ++ ')' :: outs.toList)) =
        "func".toList ++ '(' :: (ρ.chars ins.toList ++ ')' :: ρ.chars outs.toList) := by
      rw [Renaming.chars_append hopen, Renaming.chars_append hclose, hfunc]
    simpa using hsplit.symm
  | .any => by
    have hstays : ρ.name "any" = "any" := ρ.name_reserved (.inl (by decide))
    exact hstays.symm
  | .nil => by
    have hstays : ρ.name "nil" = "nil" := ρ.name_reserved (.inl (by decide))
    exact hstays.symm
  | .void => by
    have hstays : ρ.name "void" = "void" := ρ.name_reserved (.inl (by decide))
    exact hstays.symm

theorem renderList_rename : ∀ ts : List Ty, renderList (renameList ρ ts) = (renderList ts).map ρ.name
  | [] => rfl
  | t :: ts => by
    simp only [renameList, renderList, List.map_cons]
    rw [render_rename t, renderList_rename ts]

end

theorem beq_rename (a b : Ty) : (a.rename ρ == b.rename ρ) = (a == b) := by
  have h : ∀ x y : Ty, (x == y) = (x.render == y.render) := fun _ _ => rfl
  rw [h, h, render_rename, render_rename, Bool.eq_iff_iff, beq_iff_eq, beq_iff_eq]
  exact ρ.name_inj

theorem keepsShape_rename : KeepsShape (rename ρ) where
  generic _ _ := by rw [rename, renameList_eq]
  array _ := rfl
  pointer _ := rfl
  map _ _ := rfl
  func _ _ := by rw [rename, renameList_eq, renameList_eq]

@[simp] theorem rename_rename (t : Ty) : (t.rename ρ).rename ρ = t := by
  refine (((keepsShape_rename ρ).comp (keepsShape_rename ρ)).eq .id).all (fun l hl => ?_) t
  cases l with
  | basic | named => simp only [rename, Renaming.name_name]
  | any | nil | void => rfl
  | _ => cases hl

@[simp] theorem map_rename_rename (ts : List Ty) : (ts.map (rename ρ)).map (rename ρ) = ts := by
  simp only [List.map_map, Function.comp_def, rename_rename, List.map_id']

/-! ## What is asked of a type -/

theorem baseName_rename (t : Ty) : (t.rename ρ).baseName = ρ.name t.baseName := by
  fun_induction baseName t with
  | case1 name | case2 package name => rfl
  | case3 base params ih | case4 elem ih => exact ih
  | case5 other h1 h2 h3 h4 =>
    rw [← render_rename]
    cases other with
    | basic name => exact absurd rfl (h1 name)
    | named package name => exact absurd rfl (h2 package name)
    | generic base params => exact absurd rfl (h3 base params)
    | pointer elem => exact absurd rfl (h4 elem)
    | _ => rfl

theorem args_rename (t : Ty) : (t.rename ρ).args = t.args.map (rename ρ) := by
  cases t with
  | generic base params => exact renameList_eq ρ params
  | _ => rfl

theorem base_rename (t : Ty) : (t.rename ρ).base = t.base.rename ρ := by
  cases t <;> rfl

theorem leafName?_rename (t : Ty) : (t.rename ρ).leafName? = t.leafName?.map ρ.name := by
  cases t with
  | named package name =>
    simp only [rename, leafName?, Renaming.isEmpty_name]
    split <;> rfl
  | _ => rfl

theorem isNil_rename (t : Ty) : (t.rename ρ).isNil = t.isNil := by
  cases t <;> rfl

theorem isVoid_rename (t : Ty) : (t.rename ρ).isVoid = t.isVoid := by
  cases t <;> rfl

theorem isFunc_rename (t : Ty) : (t.rename ρ).isFunc = t.isFunc := by
  cases t <;> rfl

theorem beq_reserved (name : String) {word : String} (h : Reserved word) : (ρ.name name == word) = (name == word) := by
  rw [Bool.eq_iff_iff, beq_iff_eq, beq_iff_eq]
  exact ρ.name_eq_iff (ρ.name_reserved h)

theorem isAny_rename (t : Ty) : (t.rename ρ).isAny = t.isAny := by
  cases t with
  | basic name =>
    have hany : Reserved "any" := .inl (by decide)
    have hinterface : Reserved "interface\x7b\x7d" := .inl (by decide)
    simp only [rename, isAny, beq_reserved ρ name hany, beq_reserved ρ name hinterface]
  | _ => rfl

theorem isBool_rename (t : Ty) : (t.rename ρ).isBool = t.isBool := by
  cases t with
  | basic name => exact beq_reserved ρ name (.inl (by decide))
  | _ => rfl

theorem isString_rename (t : Ty) : (t.rename ρ).isString = t.isString := by
  cases t with
  | basic name => exact beq_reserved ρ name (.inl (by decide))
  | _ => rfl

theorem isNumeric_rename (t : Ty) : (t.rename ρ).isNumeric = t.isNumeric := by
  cases t with
  | basic name =>
    exact ρ.contains_name (fun x hx => ρ.name_reserved (.inl (List.mem_append_left _ (List.mem_append_left _ hx)))) name
  | _ => rfl

theorem isOption_rename (t : Ty) : (t.rename ρ).isOption = t.isOption := by
  unfold isOption
  rw [baseName_rename, args_rename, List.length_map, beq_reserved ρ _ (.inl (by decide))]

theorem isWrapper_rename (t : Ty) : (t.rename ρ).isWrapper = t.isWrapper := by
  cases t with
  | generic base params =>
    simp only [rename, isWrapper]
    rw [baseName_rename, renameList_eq, List.length_map, beq_reserved ρ _ (.inl (by decide))]
  | _ => rfl

theorem unwrap_rename (t : Ty) : (t.rename ρ).unwrap = t.unwrap.rename ρ := by
  unfold unwrap wrapped?
  rw [isWrapper_rename, args_rename, List.head?_map]
  split
  · cases t.args.head? <;> rfl
  · rfl

theorem tupleArity?_rename (t : Ty) : (t.rename ρ).tupleArity? = t.tupleArity? := by
  cases t with
  | generic base params =>
    simp only [rename, tupleArity?]
    rw [baseName_rename, renameList_eq, List.length_map, beq_reserved ρ _ (.inr ⟨_, rfl⟩)]
  | _ => rfl

theorem isParam_rename (params : List String) (t : Ty) :
    (t.rename ρ).isParam (params.map ρ.name) = t.isParam params := by
  unfold isParam
  rw [leafName?_rename]
  cases t.leafName? with
  | none => rfl
  | some name => exact ρ.contains_map_name params name

theorem mentions_rename (params : List String) (t : Ty) :
    (t.rename ρ).mentions (params.map ρ.name) = t.mentions params := by
  refine Bool.not_inj (Bool.eq_iff_iff.mpr ?_)
  rw [Bool.not_eq_true', Bool.not_eq_true']
  refine (leafwise_unmentioned.comp (keepsShape_rename ρ)).iff leafwise_unmentioned (fun l hl => ?_) t
  cases l with
  | basic | named => simp only [rename, mentions, Renaming.isEmpty_name, ρ.contains_map_name]
  | any | nil | void => rfl
  | _ => cases hl

theorem isConcrete_rename (t : Ty) : (t.rename ρ).isConcrete = t.isConcrete := by
  refine Bool.eq_iff_iff.mpr ((leafwise_concrete.comp (keepsShape_rename ρ)).iff leafwise_concrete (fun l hl => ?_) t)
  cases l with
  | basic | named | any | nil | void => rfl
  | _ => cases hl

/-! ## What is made of types -/

theorem apply_rename (base : Ty) (args : List Ty) :
    (base.apply args).rename ρ = (base.rename ρ).apply (args.map (rename ρ)) := by
  unfold apply
  rw [List.isEmpty_map]
  split
  · rfl
  · rw [rename, renameList_eq]

theorem results_rename (t : Ty) : (t.rename ρ).results = t.results.map (rename ρ) := by
  unfold results
  rw [isVoid_rename]
  split <;> rfl

theorem builtin_rename {name : String} (h : name ∈ builtinNames) : (basic name).rename ρ = .basic name :=
  congrArg basic (ρ.name_reserved (.inl (List.mem_append_left _ h)))

theorem tuple_rename {runtime : String} (h : ρ.name runtime = runtime) (elems : List Ty) :
    (tuple runtime elems).rename ρ = tuple runtime (elems.map (rename ρ)) := by
  unfold tuple
  rw [apply_rename, rename, h, ρ.name_reserved (.inr ⟨_, rfl⟩), List.length_map]

end

end Ty

/-! ## Substitutions -/

def Substitution.Renamed (ρ : Renaming) (s s' : Substitution) : Prop :=
  ∀ x, s'.find? (ρ.name x) = (s.find? x).map (Ty.rename ρ)

namespace Substitution

variable {ρ : Renaming}

theorem Renamed.empty : Renamed ρ .empty .empty := fun _ => rfl

theorem Renamed.insert {s s' : Substitution} (h : Renamed ρ s s') {name : String} {ty : Ty} :
    Renamed ρ (s.insert name ty) (s'.insert (ρ.name name) (ty.rename ρ)) := by
  intro x
  rw [Table.find?_insert, Table.find?_insert]
  by_cases hx : x = name
  · rw [if_pos hx, if_pos (congrArg _ hx), Option.map_some]
  · rw [if_neg hx, if_neg fun h => hx (ρ.name_inj.mp h), h]

theorem renamed_ofParams {params : List String} {args : List Ty} :
    Renamed ρ (.ofParams params args) (.ofParams (params.map ρ.name) (args.map (Ty.rename ρ))) := by
  unfold ofParams Table.ofList
  rw [List.zip_map, List.foldl_map]
  generalize params.zip args = pairs
  have hfold : ∀ s s', Renamed ρ s s' → Renamed ρ (pairs.foldl (fun t pair => t.insert pair.1 pair.2) s)
        (pairs.foldl (fun t pair => t.insert (ρ.name pair.1) (pair.2.rename ρ)) s') := by
    induction pairs with
    | nil => exact fun s s' h => h
    | cons pair pairs ih => exact fun s s' h => ih _ _ h.insert
  exact hfold _ _ .empty

end Substitution

namespace Ty

variable {ρ : Renaming} {s s' : Substitution}

theorem subst_rename (h : s.Renamed ρ s') (t : Ty) : (t.rename ρ).subst s' = (t.subst s).rename ρ := by
  refine ((keepsShape_subst.comp (keepsShape_rename ρ)).eq ((keepsShape_rename ρ).comp keepsShape_subst)).all
    (fun l hl => ?_) t
  cases l with
  | basic name =>
    simp only [rename, subst, h name]
    cases s.find? name <;> rfl
  | named package name =>
    simp only [rename, subst, h name, Renaming.isEmpty_name]
    split
    · cases s.find? name <;> rfl
    · rfl
  | any | nil | void => rfl
  | _ => cases hl

end Ty

end Lowering
