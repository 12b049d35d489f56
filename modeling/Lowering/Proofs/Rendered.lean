/-
  Rendered — types that render alike.

  Types are compared by their renderings, where an own declared name reads like a basic one.
-/

import Lowering.Proofs.Renaming
import Lowering.Proofs.Wrappers

namespace Lowering

/-! ## Spelling -/

namespace Text

def keywords : List String := ["map", "func", "any", "nil", "void"]

def isIdentifier (name : String) : Bool :=
  !name.isEmpty && name.toList.all (!isSeparator ·) && !keywords.contains name

def cut (text : List Char) : List Char × List Char :=
  (text.takeWhile (!isSeparator ·), text.dropWhile (!isSeparator ·))

end Text

namespace Ty

def isName : Ty → Bool
  | .basic _ | .named _ _ => true
  | _ => false

/-- At this very node, names are identifiers and only names are applied, to one argument at least. -/
def isSpelled : Ty → Bool
  | .basic name => Text.isIdentifier name
  | .named package name => (package.isEmpty || Text.isIdentifier package) && Text.isIdentifier name
  | .generic base params => base.isName && !params.isEmpty
  | _ => true

mutual

/-- The type with own declared names as basic names. -/
def leveled : Ty → Ty
  | .basic name => .basic name
  | .named package name => if package.isEmpty then .basic name else .named package name
  | .generic base params => .generic base.leveled (leveledList params)
  | .array elem => .array elem.leveled
  | .pointer elem => .pointer elem.leveled
  | .map key elem => .map key.leveled elem.leveled
  | .func params results => .func (leveledList params) (leveledList results)
  | .any => .any
  | .nil => .nil
  | .void => .void

def leveledList : List Ty → List Ty
  | [] => []
  | t :: ts => t.leveled :: leveledList ts

end

mutual

theorem render_leveled : ∀ t : Ty, t.leveled.render = t.render
  | .basic _ | .any | .nil | .void => rfl
  | .named package name => by
    rw [leveled]
    split
    · rename_i hpackage
      rw [render, render, if_pos hpackage]
    · rfl
  | .generic base params => by
    rw [leveled, render, render, render_leveled base, renderList_leveled params]
  | .array elem | .pointer elem => by rw [leveled, render, render, render_leveled elem]
  | .map key elem => by rw [leveled, render, render, render_leveled key, render_leveled elem]
  | .func params results => by
    rw [leveled, render, render, renderList_leveled params, renderList_leveled results]

theorem renderList_leveled : ∀ ts : List Ty, renderList (leveledList ts) = renderList ts
  | [] => rfl
  | t :: ts => by rw [leveledList, renderList, renderList, render_leveled t, renderList_leveled ts]

end

/-! ## Reading -/

def readName (word : List Char) : List Char → Ty × List Char
  | '.' :: text => (.named (.ofList word) (.ofList (Text.cut text).1), (Text.cut text).2)
  | text => (.basic (.ofList word), text)

section

variable (one : List Char → Option (Ty × List Char)) (all : List Char → Option (List Ty × List Char))

/-- The results of a function, after its parameters, given how to read one type and how to read all up to a
    closing bracket. -/
def readResults : List Char → Option (List Ty × List Char)
  | ' ' :: '(' :: text => (all text).map fun results => (results.1, results.2.tail)
  | ' ' :: text => (one text).map fun result => ([result.1], result.2)
  | text => some ([], text)

def readArgs (base : Ty) : List Char → Option (Ty × List Char)
  | '[' :: text => (all text).map fun args => (.generic base args.1, args.2.tail)
  | text => some (base, text)

/-- A type that begins with a word. -/
def readWord (word text : List Char) : Option (Ty × List Char) :=
  if word = "any".toList then some (.any, text)
  else if word = "nil".toList then some (.nil, text)
  else if word = "void".toList then some (.void, text)
  else if word = "map".toList then
    (one text.tail).bind fun key => (one key.2.tail).map fun elem => (.map key.1 elem.1, elem.2)
  else if word = "func".toList then
    (all text.tail).bind fun params =>
      (readResults one all params.2.tail).map fun results => (.func params.1 results.1, results.2)
  else readArgs all (readName word text).1 (readName word text).2

def readMore (t : Ty) : List Char → Option (List Ty × List Char)
  | ',' :: text => (all text.tail).map fun ts => (t :: ts.1, ts.2)
  | text => some ([t], text)

end

mutual

/-- A type at the beginning of a text, and what follows it. -/
def read : (fuel : Nat) → List Char → Option (Ty × List Char)
  | 0, _ => none
  | fuel + 1, '*' :: text => (read fuel text).map fun elem => (.pointer elem.1, elem.2)
  | fuel + 1, '[' :: text => (read fuel text.tail).map fun elem => (.array elem.1, elem.2)
  | fuel + 1, text => readWord (read fuel) (readAll fuel) (Text.cut text).1 (Text.cut text).2

def readAll : (fuel : Nat) → List Char → Option (List Ty × List Char)
  | 0, _ => none
  | _ + 1, ')' :: text => some ([], ')' :: text)
  | fuel + 1, text => (read fuel text).bind fun t => readMore (readAll fuel) t.1 t.2

end

/-! ## Words -/

section

variable {fuel : Nat} {word rest : List Char} {name : String}

def Stops (rest : List Char) : Prop := ∀ c ∈ rest.head?, c ∈ [',', ']', ')']

theorem cut_word (hword : ∀ c ∈ word, Text.isSeparator c = false)
    (hrest : ∀ c ∈ rest.head?, Text.isSeparator c = true) : Text.cut (word ++ rest) = (word, rest) := by
  have hall : ∀ c ∈ word, (!Text.isSeparator c) = true := fun c hc => by simp [hword c hc]
  rw [Text.cut, List.takeWhile_append_of_pos hall, List.dropWhile_append_of_pos hall]
  cases rest with
  | nil => simp
  | cons c rest => simp [hrest c rfl]

theorem unseparated (h : word.any Text.isSeparator = false) : ∀ c ∈ word, Text.isSeparator c = false := by
  simpa using h

theorem read_word (hne : word ≠ []) (hword : ∀ c ∈ word, Text.isSeparator c = false)
    (hrest : ∀ c ∈ rest.head?, Text.isSeparator c = true) :
    read (fuel + 1) (word ++ rest) = readWord (read fuel) (readAll fuel) word rest := by
  have hcut := cut_word hword hrest
  cases word with
  | nil => exact absurd rfl hne
  | cons c word =>
    have hc := hword c (.head _)
    rw [read, hcut]
    all_goals
      rintro text ⟨⟩
      cases hc

theorem readWord_name {one : List Char → Option (Ty × List Char)} {all : List Char → Option (List Ty × List Char)}
    (h : name ∉ Text.keywords) (text : List Char) :
    readWord one all name.toList text = readArgs all (readName name.toList text).1 (readName name.toList text).2 := by
  simp only [Text.keywords, List.mem_cons, List.not_mem_nil, or_false, not_or] at h
  simp only [readWord, String.toList_inj, h, if_false]

theorem isIdentifier_iff : Text.isIdentifier name = true ↔
    name.toList ≠ [] ∧ (∀ c ∈ name.toList, Text.isSeparator c = false) ∧ name ∉ Text.keywords := by
  simp [Text.isIdentifier, and_assoc]

theorem read_name {base : Ty} (hname : base.isName = true) (hspelled : base.isSpelled = true)
    (hrest : ∀ c ∈ rest.head?, Text.isSeparator c = true) (hdot : rest.head? ≠ some '.') :
    read (fuel + 1) (base.render.toList ++ rest) = readArgs (readAll fuel) base.leveled rest := by
  -- a bare name is the word up to the rest
  have hbare : ∀ name, Text.isIdentifier name = true →
      read (fuel + 1) (name.toList ++ rest) = readArgs (readAll fuel) (.basic name) rest := by
    intro name h
    obtain ⟨hne, hword, hkeyword⟩ := isIdentifier_iff.mp h
    rw [read_word hne hword hrest, readWord_name hkeyword, readName]
    · simp
    · rintro text rfl
      exact hdot rfl
  cases base with
  | basic name => exact hbare name hspelled
  | named package name =>
    simp only [isSpelled, Bool.and_eq_true, Bool.or_eq_true] at hspelled
    by_cases hpackage : package.isEmpty = true
    · rw [render, leveled, if_pos hpackage, if_pos hpackage]
      exact hbare name hspelled.2
    · obtain ⟨hne, hword, hkeyword⟩ := isIdentifier_iff.mp (hspelled.1.resolve_left hpackage)
      obtain ⟨-, hbase, -⟩ := isIdentifier_iff.mp hspelled.2
      have htext : (Ty.named package name).render.toList ++ rest = package.toList ++ '.' :: (name.toList ++ rest) := by
        simp [render, hpackage]
      rw [htext, read_word hne hword (by simp; decide), readWord_name hkeyword, readName, cut_word hbase hrest,
        leveled, if_neg hpackage]
      simp
  | _ => cases hname

end

/-! ## The rendering is read back -/

variable {rest : List Char} {t : Ty}

theorem Stops.separator (h : Stops rest) : ∀ c ∈ rest.head?, Text.isSeparator c = true := by
  have hall : [',', ']', ')'].all Text.isSeparator = true := rfl
  exact fun c hc => List.all_eq_true.mp hall c (h c hc)

theorem Stops.ne (h : Stops rest) {c : Char} (hc : c ∉ [',', ']', ')']) : rest.head? ≠ some c :=
  fun heq => hc (h c heq)

theorem readArgs_stops (h : Stops rest) (all : List Char → Option (List Ty × List Char))
    (base : Ty) : readArgs all base rest = some (base, rest) := by
  rw [readArgs]
  rintro text rfl
  exact h.ne (by decide) rfl

theorem size_pos (t : Ty) : 0 < t.size := by
  cases t <;> simp only [size] <;> omega

theorem exists_fuel {fuel : Nat} (h : 2 * t.size ≤ fuel) : ∃ n, fuel = n + 1 := by
  have hpos := t.size_pos
  exact ⟨fuel - 1, by omega⟩

theorem head_name {base : Ty} (hname : base.isName = true) (hspelled : base.isSpelled = true) :
    ∃ c text, base.render.toList = c :: text ∧ Text.isSeparator c = false := by
  have hidentifier : ∀ name, Text.isIdentifier name = true → ∀ rest, ∃ c text,
      name.toList ++ rest = c :: text ∧ Text.isSeparator c = false := by
    intro name h rest
    obtain ⟨hne, hword, -⟩ := isIdentifier_iff.mp h
    obtain ⟨c, text, htext⟩ := List.exists_cons_of_ne_nil hne
    exact ⟨c, text ++ rest, by rw [htext]; rfl, hword c (htext ▸ .head _)⟩
  cases base with
  | basic name => simpa [render] using hidentifier name hspelled []
  | named package name =>
    simp only [isSpelled, Bool.and_eq_true, Bool.or_eq_true] at hspelled
    by_cases hpackage : package.isEmpty = true
    · simpa [render, hpackage] using hidentifier name hspelled.2 []
    · simpa [render, hpackage] using hidentifier package (hspelled.1.resolve_left hpackage) ('.' :: name.toList)
  | _ => cases hname

theorem head_render (ht : t.Every (·.isSpelled = true)) :
    ∃ c text, t.render.toList = c :: text ∧ c ≠ '(' ∧ c ≠ ')' := by
  have hletter : ∀ {c : Char}, Text.isSeparator c = false → c ≠ '(' ∧ c ≠ ')' := by
    intro c hc
    constructor
    all_goals
      rintro rfl
      cases hc
  cases t with
  | basic | named =>
    obtain ⟨c, text, htext, hc⟩ := head_name rfl ht.self
    exact ⟨c, text, htext, hletter hc⟩
  | generic base params =>
    obtain ⟨hspelled, hspells, -⟩ := every_generic.mp ht
    simp only [isSpelled, Bool.and_eq_true] at hspelled
    obtain ⟨c, text, htext, hc⟩ := head_name hspelled.1 hspells.self
    exact ⟨c, _, by simp [render, htext]; rfl, hletter hc⟩
  | array elem | pointer elem | map key elem | func params results =>
    exact ⟨_, _, by simp [render]; exact ⟨rfl, rfl⟩, by decide⟩
  | any | nil | void => exact ⟨_, _, rfl, by decide⟩

theorem readAll_cons (ht : t.Every (·.isSpelled = true)) (fuel : Nat) (rest : List Char) :
    readAll (fuel + 1) (t.render.toList ++ rest) =
      (read fuel (t.render.toList ++ rest)).bind fun t => readMore (readAll fuel) t.1 t.2 := by
  obtain ⟨c, text, htext, -, hclose⟩ := head_render ht
  rw [htext, List.cons_append, readAll]
  rintro text' ⟨⟩
  exact hclose rfl

mutual

theorem read_render : ∀ (t : Ty) (fuel : Nat) (rest : List Char), t.Every (·.isSpelled = true) → Stops rest →
    2 * t.size ≤ fuel → read fuel (t.render.toList ++ rest) = some (t.leveled, rest)
  | .basic name, fuel, rest, ht, hrest, hfuel | .named package name, fuel, rest, ht, hrest, hfuel => by
    obtain ⟨fuel, rfl⟩ := exists_fuel hfuel
    rw [read_name rfl ht.self hrest.separator (hrest.ne (by decide)), readArgs_stops hrest]
  | .generic base params, fuel, rest, ht, hrest, hfuel => by
    obtain ⟨fuel, rfl⟩ := exists_fuel hfuel
    obtain ⟨hspelled, hbase, hparams⟩ := every_generic.mp ht
    simp only [isSpelled, Bool.and_eq_true, Bool.not_eq_true', List.isEmpty_eq_false_iff] at hspelled
    simp only [size] at hfuel
    have hargs := readAll_render params fuel (']' :: rest) hparams (.inr ⟨rfl, hspelled.2⟩) (by omega)
    have htext : (Ty.generic base params).render.toList ++ rest =
        base.render.toList ++ '[' :: ((", ".intercalate (renderList params)).toList ++ ']' :: rest) := by
      simp [render]
    rw [htext, read_name hspelled.1 hbase.self (by simp; decide) (by simp), readArgs, hargs]
    rfl
  | .array elem, fuel, rest, ht, hrest, hfuel => by
    obtain ⟨fuel, rfl⟩ := exists_fuel hfuel
    simp only [size] at hfuel
    have helem := read_render elem fuel rest (every_array.mp ht).2 hrest (by omega)
    simp [render, read, helem, leveled]
  | .pointer elem, fuel, rest, ht, hrest, hfuel => by
    obtain ⟨fuel, rfl⟩ := exists_fuel hfuel
    simp only [size] at hfuel
    have helem := read_render elem fuel rest (every_pointer.mp ht).2 hrest (by omega)
    simp [render, read, helem, leveled]
  | .map key elem, fuel, rest, ht, hrest, hfuel => by
    obtain ⟨fuel, rfl⟩ := exists_fuel hfuel
    obtain ⟨-, hkey, helem⟩ := every_map.mp ht
    simp only [size] at hfuel
    have hkey := read_render key fuel (']' :: (elem.render.toList ++ rest)) hkey (by simp [Stops]) (by omega)
    have helem := read_render elem fuel rest helem hrest (by omega)
    have htext : (Ty.map key elem).render.toList ++ rest =
        "map".toList ++ '[' :: (key.render.toList ++ ']' :: (elem.render.toList ++ rest)) := by
      simp [render]
    rw [htext, read_word (by decide) (unseparated rfl) (by simp; decide)]
    simp [readWord, hkey, helem, leveled]
  | .func params results, fuel, rest, ht, hrest, hfuel => by
    obtain ⟨fuel, rfl⟩ := exists_fuel hfuel
    obtain ⟨-, hparams, hresults⟩ := every_func.mp ht
    simp only [size] at hfuel
    have hresults := readResults_render results fuel rest hresults hrest (by omega)
    generalize htail : (resultText (renderList results)).toList ++ rest = tail at hresults
    have hparams := readAll_render params fuel (')' :: tail) hparams (.inl rfl) (by omega)
    have htext : (Ty.func params results).render.toList ++ rest =
        "func".toList ++ '(' :: ((", ".intercalate (renderList params)).toList ++ ')' :: tail) := by
      simp [render, ← htail]
    rw [htext, read_word (by decide) (unseparated rfl) (by simp; decide)]
    show (readAll fuel _).bind _ = _
    rw [List.tail_cons, hparams]
    show (readResults _ _ _).map _ = _
    rw [List.tail_cons, hresults]
    rfl
  | .any, fuel, rest, ht, hrest, hfuel | .nil, fuel, rest, ht, hrest, hfuel | .void, fuel, rest, ht, hrest, hfuel => by
    obtain ⟨fuel, rfl⟩ := exists_fuel hfuel
    exact (read_word (by decide) (unseparated rfl) hrest.separator).trans rfl

theorem readResults_render : ∀ (ts : List Ty) (fuel : Nat) (rest : List Char),
    (∀ t ∈ ts, t.Every (·.isSpelled = true)) → Stops rest → 2 * sizeList ts < fuel →
    readResults (read fuel) (readAll fuel) ((resultText (renderList ts)).toList ++ rest) = some (leveledList ts, rest)
  | [], fuel, rest, hts, hrest, hfuel => by
    have hblank : ∀ text, rest ≠ ' ' :: text := by
      rintro text rfl
      exact hrest.ne (by decide) rfl
    exact readResults.eq_3 _ _ rest (fun text => hblank _) hblank
  | [t], fuel, rest, hts, hrest, hfuel => by
    have ht := hts t (.head _)
    have hone := read_render t fuel rest ht hrest (by simp only [sizeList] at hfuel; omega)
    obtain ⟨c, text, htext, hopen, -⟩ := head_render ht
    have hresult : (resultText (renderList [t])).toList ++ rest = ' ' :: (t.render.toList ++ rest) := by
      simp [renderList, resultText]
    rw [hresult, readResults, hone]
    · rfl
    · intro text' heq
      rw [htext, List.cons_append] at heq
      exact hopen (List.cons.inj heq).1
  | t :: u :: ts, fuel, rest, hts, hrest, hfuel => by
    have hall := readAll_render (t :: u :: ts) fuel (')' :: rest) hts (.inl rfl) hfuel
    have hresult : (resultText (renderList (t :: u :: ts))).toList ++ rest =
        ' ' :: '(' :: ((", ".intercalate (renderList (t :: u :: ts))).toList ++ ')' :: rest) := by
      simp [renderList, resultText]
    rw [hresult, readResults, hall]
    rfl

theorem readAll_render : ∀ (ts : List Ty) (fuel : Nat) (rest : List Char),
    (∀ t ∈ ts, t.Every (·.isSpelled = true)) → (rest.head? = some ')' ∨ rest.head? = some ']' ∧ ts ≠ []) →
    2 * sizeList ts < fuel →
    readAll fuel ((", ".intercalate (renderList ts)).toList ++ rest) = some (leveledList ts, rest)
  | [], fuel + 1, rest, hts, hrest, hfuel => by
    obtain ⟨text, rfl⟩ := List.head?_eq_some_iff.mp (hrest.resolve_right fun h => h.2 rfl)
    rfl
  | [t], fuel + 1, rest, hts, hrest, hfuel => by
    have hstops : Stops rest := by
      rcases hrest with h | ⟨h, -⟩ <;> simp [Stops, h]
    have hcomma : ∀ text, rest ≠ ',' :: text := by
      rintro text rfl
      rcases hrest with h | ⟨h, -⟩ <;> cases h
    have ht := hts t (.head _)
    have hone := read_render t fuel rest ht hstops (by simp only [sizeList] at hfuel; omega)
    rw [show ", ".intercalate (renderList [t]) = t.render from rfl, readAll_cons ht, hone]
    exact readMore.eq_2 _ _ rest hcomma
  | t :: u :: ts, fuel + 1, rest, hts, hrest, hfuel => by
    have hpos := t.size_pos
    simp only [sizeList] at hfuel
    have ht := hts t (.head _)
    have hmore := readAll_render (u :: ts) fuel rest (fun v hv => hts v (.tail _ hv))
      (hrest.imp_right fun h => ⟨h.1, List.cons_ne_nil u ts⟩) (by simp only [sizeList]; omega)
    generalize htail : (", ".intercalate (renderList (u :: ts))).toList ++ rest = tail at hmore
    have hone := read_render t fuel (',' :: ' ' :: tail) ht (by simp [Stops]) (by omega)
    have htext : (", ".intercalate (renderList (t :: u :: ts))).toList ++ rest =
        t.render.toList ++ ',' :: ' ' :: tail := by
      simp [renderList, List.intercalate, ← htail]
    rw [htext, readAll_cons ht, hone]
    show (readAll fuel _).map _ = _
    rw [List.tail_cons, hmore]
    rfl

end

/-! ## Equality -/

/-- Types are equal just if they render alike, and they render alike just if they are the same tree, basic and own
    declared names taken for one another. -/
theorem render_eq_iff {t u : Ty} (ht : t.Every (·.isSpelled = true)) (hu : u.Every (·.isSpelled = true)) :
    (t.render = u.render ↔ t.leveled = u.leveled) ∧ ((t == u) = true ↔ t.leveled = u.leveled) := by
  have hrender : t.render = u.render ↔ t.leveled = u.leveled := by
    constructor
    · intro h
      -- one fuel for both, so that reading the common text gives both trees
      have hread : ∀ v : Ty, v.Every (·.isSpelled = true) → v.size ≤ t.size + u.size →
          read (2 * (t.size + u.size)) v.render.toList = some (v.leveled, []) := by
        intro v hv hsize
        have hback := read_render v (2 * (t.size + u.size)) [] hv (by simp [Stops]) (by omega)
        rwa [List.append_nil] at hback
      have htree := hread t ht (by omega)
      rw [h, hread u hu (by omega)] at htree
      exact (Prod.mk.inj (Option.some.inj htree)).1.symm
    · intro h
      rw [← render_leveled t, h, render_leveled u]
  have hbeq : (t == u) = true ↔ t.render = u.render := beq_iff_eq (a := t.render)
  exact ⟨hrender, hbeq.trans hrender⟩

theorem render_eq_iff_boxes :
    let boxes (box : Ty) : Ty :=
      .map (.basic "string") (.func [.pointer box] [.basic "int", .array (.generic box [.any])])
    (boxes (.basic "Box") == boxes (.named "" "Box")) = true ∧
      (boxes (.basic "Box") == boxes (.named "std" "Box")) ≠ true := by
  refine ⟨(render_eq_iff (by decide) (by decide)).2.mpr rfl, mt (render_eq_iff (by decide) (by decide)).2.mp ?_⟩
  simp [leveled, leveledList]

end Ty

end Lowering
