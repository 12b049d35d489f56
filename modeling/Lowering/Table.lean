/-
  Table — tables keyed by name.

  A table lists its entries in the order of their keys, each key once, so that a table is determined by what can
  be looked up in it (`ext_find?`) and iteration has one order.
-/

import Lowering.Text.Order

namespace Lowering

/-- Entries in the order of their keys, without repetition. -/
structure Table (α : Type) where
  entries : List (String × α)
  ordered : entries.Pairwise fun a b => Text.before a.1 b.1 = true

namespace Table

variable {α β : Type}

def empty : Table α := ⟨[], .nil⟩

instance : Inhabited (Table α) := ⟨empty⟩

def keys (t : Table α) : List String := t.entries.map (·.1)

def values (t : Table α) : List α := t.entries.map (·.2)

def find? (t : Table α) (key : String) : Option α := t.entries.lookup key

/-- Puts an entry in its place among ordered entries, over an entry of the same key. -/
def place (key : String) (value : α) : List (String × α) → List (String × α)
  | [] => [(key, value)]
  | (k, v) :: rest =>
    if Text.before key k then (key, value) :: (k, v) :: rest
    else if key = k then (key, value) :: rest
    else (k, v) :: place key value rest

theorem mem_place {key : String} {value : α} {entry : String × α} {l : List (String × α)}
    (h : entry ∈ place key value l) : entry = (key, value) ∨ entry ∈ l := by
  induction l with
  | nil => exact .inl (by simpa [place] using h)
  | cons head rest ih =>
    simp only [place] at h
    split at h
    · simpa using h
    · split at h
      · rcases List.mem_cons.mp h with h | h
        · exact .inl h
        · exact .inr (List.mem_cons_of_mem _ h)
      · rcases List.mem_cons.mp h with h | h
        · exact .inr (by simp [h])
        · rcases ih h with h | h
          · exact .inl h
          · exact .inr (List.mem_cons_of_mem _ h)

theorem place_ordered (key : String) (value : α) {l : List (String × α)}
    (h : l.Pairwise fun a b => Text.before a.1 b.1 = true) :
    (place key value l).Pairwise fun a b => Text.before a.1 b.1 = true := by
  induction l with
  | nil => simp [place]
  | cons head rest ih =>
    obtain ⟨hhead, hrest⟩ := List.pairwise_cons.mp h
    simp only [place]
    split
    next hb =>
      refine List.pairwise_cons.mpr ⟨fun e he => ?_, h⟩
      rcases List.mem_cons.mp he with rfl | he
      · exact hb
      · exact Text.before_trans hb (hhead e he)
    next hb =>
      split
      next heq =>
        subst heq
        exact List.pairwise_cons.mpr ⟨fun e he => hhead e he, hrest⟩
      next hne =>
        refine List.pairwise_cons.mpr ⟨fun e he => ?_, ih hrest⟩
        rcases mem_place he with rfl | he
        · exact Text.before_total (by simpa using hb) hne
        · exact hhead e he

def insert (t : Table α) (key : String) (value : α) : Table α :=
  ⟨place key value t.entries, place_ordered key value t.ordered⟩

/-- Later pairs win over earlier ones. -/
def ofList (pairs : List (String × α)) : Table α :=
  pairs.foldl (fun t (key, value) => t.insert key value) empty

def map (f : α → β) (t : Table α) : Table β :=
  ⟨t.entries.map fun (key, value) => (key, f value), by
    rw [List.pairwise_map]
    exact t.ordered⟩

theorem lookup_place (key other : String) (value : α) (l : List (String × α)) :
    (place key value l).lookup other = if other = key then some value else l.lookup other := by
  induction l with
  | nil =>
    by_cases h : other = key
    · simp [place, h]
    · simp [place, List.lookup_cons, h, beq_false_of_ne h]
  | cons head rest ih =>
    obtain ⟨k, v⟩ := head
    simp only [place]
    by_cases h : other = key
    · subst h
      split
      · simp
      · split
        · simp
        next hne => simp [List.lookup_cons, beq_false_of_ne hne, ih]
    · split
      · simp [List.lookup_cons, beq_false_of_ne h]
      · split
        next heq => subst heq; simp [List.lookup_cons, beq_false_of_ne h]
        next => simp [List.lookup_cons, h, ih]

/-- A table after a write: the written key has the new value, every other key its old one. -/
@[simp] theorem find?_insert (t : Table α) (key other : String) (value : α) :
    (t.insert key value).find? other = if other = key then some value else t.find? other :=
  lookup_place key other value t.entries

/-- What holds of the old values and of the new one. -/
theorem forall_find?_insert {P : String → α → Prop} {t : Table α} (ht : ∀ key a, t.find? key = some a → P key a)
    {key : String} {a : α} (ha : P key a) : ∀ k b, (t.insert key a).find? k = some b → P k b := by
  intro k b hb
  rw [find?_insert] at hb
  split at hb
  · rename_i hkey
    cases hb
    exact hkey ▸ ha
  · exact ht k b hb

@[simp] theorem find?_empty (key : String) : (empty : Table α).find? key = none := rfl

theorem lookup_eq_none {key : String} {l : List (String × α)} (h : ∀ entry ∈ l, Text.before key entry.1 = true) :
    l.lookup key = none := by
  induction l with
  | nil => rfl
  | cons entry l ih =>
    obtain ⟨k, v⟩ := entry
    have hne : key ≠ k := by
      rintro rfl
      exact Bool.false_ne_true ((Text.before_irrefl key).symm.trans (h _ (.head _)))
    rw [List.lookup_cons, beq_false_of_ne hne]
    exact ih fun entry hentry => h entry (.tail _ hentry)

/-- No key that is found is before the first. -/
theorem not_before_head {key k : String} {v w : α} {l : List (String × α)}
    (hhead : ∀ entry ∈ l, Text.before k entry.1 = true) (h : ((k, v) :: l).lookup key = some w) :
    Text.before key k = false := by
  refine Bool.eq_false_iff.mpr fun hb => ?_
  rw [lookup_eq_none (List.forall_mem_cons.mpr ⟨hb, fun entry he => Text.before_trans hb (hhead entry he)⟩)] at h
  cases h

theorem eq_of_lookup {l l' : List (String × α)} (hl : l.Pairwise fun a b => Text.before a.1 b.1 = true)
    (hl' : l'.Pairwise fun a b => Text.before a.1 b.1 = true) (h : ∀ key, l.lookup key = l'.lookup key) : l = l' := by
  induction l generalizing l' with
  | nil =>
    cases l' with
    | nil => rfl
    | cons entry' l' => cases (h entry'.1).trans List.lookup_cons_self
  | cons entry l ih =>
    obtain ⟨k, v⟩ := entry
    have hk : l'.lookup k = some v := (h k).symm.trans List.lookup_cons_self
    cases l' with
    | nil => cases hk
    | cons entry' l' =>
      obtain ⟨k', v'⟩ := entry'
      have hk' : ((k, v) :: l).lookup k' = some v' := (h k').trans List.lookup_cons_self
      obtain ⟨hhead, htail⟩ := List.pairwise_cons.mp hl
      obtain ⟨hhead', htail'⟩ := List.pairwise_cons.mp hl'
      -- the first keys are equal, since each is found in the other list
      obtain rfl : k = k' := by
        refine Decidable.byContradiction fun hne => Bool.false_ne_true ?_
        exact (not_before_head hhead hk').symm.trans (Text.before_total (not_before_head hhead' hk) hne)
      obtain rfl : v' = v := Option.some.inj (List.lookup_cons_self.symm.trans hk)
      refine congrArg _ (ih htail htail' fun key => ?_)
      by_cases hkey : key = k
      · subst hkey
        rw [lookup_eq_none hhead, lookup_eq_none hhead']
      · simpa [List.lookup_cons, beq_false_of_ne hkey] using h key

theorem find?_eq_none {t : Table α} {key : String} : t.find? key = none ↔ key ∉ t.keys := by
  rw [find?, List.lookup_eq_none_iff]
  constructor
  · intro h hkey
    obtain ⟨entry, hentry, rfl⟩ := List.mem_map.mp hkey
    simpa using h entry hentry
  · intro h entry hentry
    exact bne_iff_ne.mpr fun heq => h (heq ▸ List.mem_map_of_mem hentry)

/-- The entries of `u` over those of `t`. -/
def onto (t u : Table α) : Table α := u.entries.foldl (fun t entry => t.insert entry.1 entry.2) t

theorem find?_onto (t u : Table α) (key : String) : (t.onto u).find? key = (u.find? key).or (t.find? key) := by
  obtain ⟨entries, hordered⟩ := u
  unfold onto find?
  induction entries generalizing t with
  | nil => rfl
  | cons entry entries ih =>
    obtain ⟨hhead, htail⟩ := List.pairwise_cons.mp hordered
    obtain ⟨k, v⟩ := entry
    have hstep := ih (t.insert k v) htail
    simp only [List.foldl_cons, List.lookup_cons]
    rw [hstep]
    by_cases hkey : key = k
    · -- the key stands once among the entries, so no later one replaces it
      subst hkey
      have habsent : entries.lookup key = none := lookup_eq_none hhead
      simp [habsent, insert, lookup_place]
    · simp [beq_false_of_ne hkey, insert, lookup_place, hkey]

/-- A table is what can be looked up in it. -/
theorem ext_find? {t u : Table α} (h : ∀ key, t.find? key = u.find? key) : t = u := by
  obtain ⟨entries, hentries⟩ := t
  obtain ⟨entries', hentries'⟩ := u
  obtain rfl : entries = entries' := eq_of_lookup hentries hentries' h
  rfl

/-- What is found in a table made of pairs is one of them. -/
theorem mem_entries {t : Table α} {key : String} {value : α} (h : t.find? key = some value) :
    (key, value) ∈ t.entries := by
  obtain ⟨before, after, hentries, -⟩ := List.lookup_eq_some_iff.mp h
  simp [hentries]

theorem mem_of_find?_ofList {pairs : List (String × α)} {key : String} {value : α}
    (h : (ofList pairs).find? key = some value) : (key, value) ∈ pairs := by
  have hfold : ∀ t : Table α, (pairs.foldl (fun t pair => t.insert pair.1 pair.2) t).find? key = some value →
      (key, value) ∈ pairs ∨ t.find? key = some value := by
    clear h
    induction pairs with
    | nil => exact fun t h => .inr h
    | cons pair pairs ih =>
      intro t h
      rcases ih _ h with hmem | hfind
      · exact .inl (.tail _ hmem)
      · rw [find?_insert] at hfind
        split at hfind
        · rename_i hkey
          cases hfind
          exact .inl (hkey ▸ .head _)
        · exact .inr hfind
  rcases hfold empty h with hmem | hfind
  · exact hmem
  · cases hfind

end Table

end Lowering
