/-
  Reordered — the order of declarations does not matter to the index.

  Types, variants and aliases are indexed one declaration after the other, and what a declaration adds does not
  depend on what is there (`addDecl_eq`).
-/

import Lowering.Proofs.TopLevel

namespace Lowering

/-! ## Folds over permuted lists -/

variable {α β : Type} {I : β → Prop} {l l' : List α}

theorem foldlM_perm {f : β → α → Option β} (hperm : l.Perm l') (hkeeps : ∀ b a b', a ∈ l → I b → f b a = some b' → I b')
    (hcomm : l.Pairwise fun x y => ∀ b, I b → (f b x).bind (f · y) = (f b y).bind (f · x)) {b : β} (hb : I b) :
    l.foldlM f b = l'.foldlM f b := by
  induction hperm generalizing b with
  | nil => rfl
  | cons a _ ih =>
    refine Option.bind_congr fun b' hb' => ?_
    exact ih (fun b a b' ha => hkeeps b a b' (.tail _ ha)) (List.pairwise_cons.mp hcomm).2
      (hkeeps b a b' (.head _) hb hb')
  | swap x y l =>
    have hswap := (List.pairwise_cons.mp hcomm).1 x (.head _) b hb
    simp only [List.foldlM_cons, Option.bind_eq_bind]
    rw [← Option.bind_assoc, hswap, Option.bind_assoc]
  | trans hperm1 _ ih1 ih2 =>
    have hmem := fun a => (hperm1.mem_iff (a := a)).mpr
    have hcomm' := (hperm1.pairwise_iff fun h b hb => (h b hb).symm).mp hcomm
    exact (ih1 hkeeps hcomm hb).trans (ih2 (fun b a b' ha => hkeeps b a b' (hmem a ha)) hcomm' hb)

theorem foldl_perm {f : β → α → β} (hperm : l.Perm l') (hkeeps : ∀ b, ∀ a ∈ l, I b → I (f b a))
    (hcomm : l.Pairwise fun x y => ∀ b, I b → f (f b x) y = f (f b y) x) {b : β} (hb : I b) :
    l.foldl f b = l'.foldl f b := by
  have hfold : l.foldlM (fun b a => some (f b a)) b = l'.foldlM (fun b a => some (f b a)) b := by
    refine foldlM_perm hperm ?_ (hcomm.imp fun h b hb => congrArg some (h b hb)) hb
    rintro b a _ ha hb ⟨⟩
    exact hkeeps b a ha hb
  exact Option.some.inj (List.foldlM_pure.symm.trans (hfold.trans List.foldlM_pure))

theorem toOption_foldlM {ε : Type} (f : β → α → Except ε β) (b : β) :
    (l.foldlM f b).toOption = l.foldlM (fun b a => (f b a).toOption) b := by
  induction l generalizing b with
  | nil => rfl
  | cons a l ih =>
    rw [List.foldlM_cons, List.foldlM_cons]
    cases hstep : f b a with
    | error e => rfl
    | ok b' => exact ih b'

/-! ## Tables -/

namespace Table

variable {α : Type}

theorem insert_comm (t : Table α) {k k' : String} (h : k ≠ k') (v v' : α) :
    (t.insert k v).insert k' v' = (t.insert k' v').insert k v := by
  refine ext_find? fun key => ?_
  simp only [find?_insert]
  split
  · rename_i hkey
    rw [if_neg (hkey ▸ h.symm)]
  · rfl

theorem insert_insert (t : Table α) (k : String) (v v' : α) : (t.insert k v).insert k v' = t.insert k v' := by
  refine ext_find? fun key => ?_
  simp only [find?_insert]
  split <;> rfl

theorem onto_insert (t u : Table α) (key : String) (value : α) :
    t.onto (u.insert key value) = (t.onto u).insert key value := by
  refine ext_find? fun k => ?_
  simp only [find?_onto, find?_insert]
  split <;> simp

def Apart (t u : Table α) : Prop := ∀ key, t.find? key = none ∨ u.find? key = none

theorem onto_comm (t : Table α) {u v : Table α} (h : u.Apart v) : (t.onto u).onto v = (t.onto v).onto u := by
  refine ext_find? fun key => ?_
  simp only [find?_onto]
  rcases h key with h | h <;> simp [h]

end Table

namespace Source

/-! ## Declared names -/

def Decl.typeNames : Decl → List String
  | .struct d => [d.name.val]
  | .sealedType d => d.name.val :: d.variants.map (·.name.val)
  | _ => []

def Decl.aliasNames : Decl → List String
  | .typeAlias d => [d.name.val]
  | _ => []

def Decl.functionNames : Decl → List String
  | .func d => if d.receiver.isNone then [d.name.val] else []
  | _ => []

namespace Program

def typeNames (program : Program) : List String := program.decls.flatMap (·.val.typeNames)

def aliasNames (program : Program) : List String := program.decls.flatMap (·.val.aliasNames)

def functionNames (program : Program) : List String := program.decls.flatMap (·.val.functionNames)

/-- No two types or variants have the same name, nor have two aliases, two functions, or two methods on the same
    type. -/
structure NamesDistinct (program : Program) : Prop where
  types : program.typeNames.Nodup
  aliases : program.aliasNames.Nodup
  functions : program.functionNames.Nodup
  methods : program.methods.Nodup

def MethodsOwned (program : Program) : Prop := ∀ m ∈ program.methods, m.1 ∈ program.typeNames

instance (program : Program) : Decidable program.MethodsOwned :=
  inferInstanceAs (Decidable (∀ m ∈ program.methods, m.1 ∈ program.typeNames))

end Program

end Source

namespace Index

open Source (Program Variant FuncDecl)

variable {runtime : String}

/-! ## What a declaration adds -/

/-- The entries of `added` over those of `i`. -/
def onto (i added : Index) : Index where
  types := i.types.onto added.types
  functions := i.functions.onto added.functions
  companions := i.companions.onto added.companions
  aliases := i.aliases.onto added.aliases

theorem onto_addType (i added : Index) (e : TypeEntry) : i.onto (added.addType e) = (i.onto added).addType e := by
  simp only [onto, addType, Table.onto_insert]

theorem onto_addCompanions (i added : Index) (e : TypeEntry) (variants : List Variant) :
    i.onto (variants.foldl (fun i v => i.addCompanion runtime e v) added) =
      variants.foldl (fun i v => i.addCompanion runtime e v) (i.onto added) := by
  induction variants generalizing added with
  | nil => rfl
  | cons v variants ih =>
    rw [List.foldl_cons, ih, List.foldl_cons]
    simp only [onto, addCompanion, addType, Table.onto_insert]

theorem onto_empty (i : Index) : i.onto .empty = i := rfl

theorem addDecl_eq (i : Index) (d : Located Source.Decl) :
    addDecl runtime i d = (addDecl runtime empty d).map i.onto := by
  obtain ⟨d, span⟩ := d
  cases d with
  | struct d => exact congrArg Except.ok (onto_addType i empty _).symm
  | sealedType d =>
    simp only [addDecl, addSealed]
    cases d.variants.foldlM TypeEntry.addVariant (.ofDecl d.name.val .sealedType d.typeParams) with
    | error e => rfl
    | ok e =>
      refine congrArg Except.ok ?_
      rw [onto_addType, onto_addCompanions, onto_empty]
  | typeAlias d => exact congrArg Except.ok (by simp only [onto, empty, Table.onto_insert]; rfl)
  | func d | val d => rfl

section

variable {d : Located Source.Decl} {added : Index}

theorem addCompanions_types (runtime : String) (e : TypeEntry) (variants : List Variant) (i : Index) (key : String) :
    let i' := variants.foldl (fun i v => i.addCompanion runtime e v) i
    (key ∉ variants.map (·.name.val) ∧ i'.types.find? key = i.types.find? key ∧
        i'.companions.find? key = i.companions.find? key) ∨
      key ∈ variants.map (·.name.val) ∧ ∃ v, i'.types.find? key = some (e.variantCompanion runtime v) := by
  induction variants generalizing i with
  | nil => exact .inl ⟨List.not_mem_nil, rfl, rfl⟩
  | cons v variants ih =>
    simp only [List.foldl_cons, List.map_cons, List.mem_cons]
    rcases ih (i.addCompanion runtime e v) with ⟨hkey, htypes, hcompanions⟩ | ⟨hkey, hfound⟩
    · have hinsert : (i.addCompanion runtime e v).types.find? key =
          if key = v.name.val then some (e.variantCompanion runtime v) else i.types.find? key :=
        Table.find?_insert _ _ _ _
      by_cases hv : key = v.name.val
      · exact .inr ⟨.inl hv, v, by rw [htypes, hinsert, if_pos hv]⟩
      · refine .inl ⟨not_or.mpr ⟨hv, hkey⟩, by rw [htypes, hinsert, if_neg hv], ?_⟩
        rw [hcompanions]
        exact (Table.find?_insert _ _ _ _).trans (if_neg hv)
    · exact .inr ⟨.inr hkey, hfound⟩

theorem added_types (h : addDecl runtime empty d = .ok added) (key : String) :
    (key ∉ d.val.typeNames ∧ added.types.find? key = none ∧ added.companions.find? key = none) ∨
      key ∈ d.val.typeNames ∧ ∃ e, added.types.find? key = some e ∧ e.kind ≠ .opaqueType := by
  obtain ⟨d, span⟩ := d
  cases d with
  | struct d =>
    cases h
    have hfind : (empty.addStruct d).types.find? key = if key = d.name.val then some (.ofStruct d) else none := by
      rw [← TypeEntry.ofStruct_name]
      exact Table.find?_insert _ _ _ _
    have hkind : (TypeEntry.ofStruct d).kind = .struct :=
      TypeEntry.ofStruct_induction (P := fun e => e.kind = .struct) rfl fun _ _ _ he => he
    by_cases hkey : key = d.name.val
    · exact .inr ⟨List.mem_singleton.mpr hkey, _, hfind.trans (if_pos hkey), by simp [hkind]⟩
    · exact .inl ⟨fun hmem => hkey (List.mem_singleton.mp hmem), hfind.trans (if_neg hkey), rfl⟩
  | sealedType d =>
    obtain ⟨e, he, rfl⟩ := addSealed_ok h
    have hkind : e.kind = .sealedType := TypeEntry.sealed_induction (P := fun e => e.kind = .sealedType) he rfl
      (fun _ _ _ he => he) fun _ _ _ _ _ he => he
    have hfind := Table.find?_insert
      (d.variants.foldl (fun i v => i.addCompanion runtime (.sealedStart d) v) empty).types e.name key e
    rw [TypeEntry.sealed_name he] at hfind
    simp only [Source.Decl.typeNames, List.mem_cons]
    by_cases hkey : key = d.name.val
    · exact .inr ⟨.inl hkey, e, by rw [addType, TypeEntry.sealed_name he, hfind, if_pos hkey], by simp [hkind]⟩
    · rw [if_neg hkey] at hfind
      rcases addCompanions_types runtime (.sealedStart d) d.variants empty key with
        ⟨hmem, htypes, hcompanions⟩ | ⟨hmem, v, htypes⟩
      · refine .inl ⟨not_or.mpr ⟨hkey, hmem⟩, ?_, hcompanions⟩
        rw [addType, TypeEntry.sealed_name he, hfind, htypes]
        rfl
      · refine .inr ⟨.inr hmem, (TypeEntry.sealedStart d).variantCompanion runtime v, ?_, TypeKind.noConfusion⟩
        rw [addType, TypeEntry.sealed_name he, hfind, htypes]
  | typeAlias | func | val =>
    cases h
    exact .inl ⟨List.not_mem_nil, rfl, rfl⟩

theorem added_aliases (h : addDecl runtime empty d = .ok added) {key : String} (hkey : key ∉ d.val.aliasNames) :
    added.aliases.find? key = none := by
  obtain ⟨d, span⟩ := d
  cases d with
  | typeAlias d =>
    cases h
    exact (Table.find?_insert _ _ _ _).trans (if_neg fun heq => hkey (List.mem_singleton.mpr heq))
  | sealedType d =>
    obtain ⟨e, he, rfl⟩ := addSealed_ok h
    rw [addType, (addCompanions_code runtime _ d.variants empty).2]
    rfl
  | _ =>
    cases h
    rfl

theorem added_functions (h : addDecl runtime empty d = .ok added) : added.functions = .empty := by
  obtain ⟨d, span⟩ := d
  cases d with
  | sealedType d =>
    obtain ⟨e, he, rfl⟩ := addSealed_ok h
    exact (addCompanions_code runtime _ d.variants empty).1
  | _ =>
    cases h
    rfl

end

theorem addDecl_comm {d d' : Located Source.Decl} (htypes : d.val.typeNames.Disjoint d'.val.typeNames)
    (haliases : d.val.aliasNames.Disjoint d'.val.aliasNames) (i : Index) :
    (addDecl runtime i d).toOption.bind (fun i => (addDecl runtime i d').toOption) =
      (addDecl runtime i d').toOption.bind fun i => (addDecl runtime i d).toOption := by
  have hadds : ∀ i d, (addDecl runtime i d).toOption = (addDecl runtime empty d).toOption.map i.onto := fun i d => by
    rw [addDecl_eq]
    cases addDecl runtime empty d <;> rfl
  simp only [hadds i, Option.bind_map, Function.comp_def, hadds (i.onto _)]
  cases hd : addDecl runtime empty d with
  | error r => cases (addDecl runtime empty d').toOption <;> rfl
  | ok added =>
    cases hd' : addDecl runtime empty d' with
    | error r' => rfl
    | ok added' =>
      have hkeys : ∀ key, added.types.find? key = none ∧ added.companions.find? key = none ∨
          added'.types.find? key = none ∧ added'.companions.find? key = none := by
        intro key
        rcases added_types hd key with ⟨-, hnone⟩ | ⟨hkey, -⟩
        · exact .inl hnone
        · rcases added_types hd' key with ⟨-, hnone⟩ | ⟨hkey', -⟩
          · exact .inr hnone
          · exact absurd hkey' (htypes hkey)
      have haliases' : added.aliases.Apart added'.aliases := by
        intro key
        by_cases hkey : key ∈ d.val.aliasNames
        · exact .inr (added_aliases hd' (haliases hkey))
        · exact .inl (added_aliases hd hkey)
      refine congrArg some ?_
      simp only [onto, added_functions hd, added_functions hd', Table.onto_comm _ haliases',
        Table.onto_comm i.types fun key => (hkeys key).imp And.left And.left,
        Table.onto_comm i.companions fun key => (hkeys key).imp And.right And.right]

/-! ## Functions and methods -/

variable {i i' : Index} {decls : List (Located Source.Decl)} {d d' : FuncDecl}

def Knows (i : Index) (name : String) : Prop := ∃ e, i.types.find? name = some e ∧ e.kind ≠ .opaqueType

theorem knows_of_foldlM (h : decls.foldlM (addDecl runtime) i = .ok i') {name : String}
    (hname : name ∈ decls.flatMap (·.val.typeNames) ∨ i.Knows name) : i'.Knows name := by
  induction decls generalizing i with
  | nil =>
    cases h
    simpa using hname
  | cons d decls ih =>
    obtain ⟨i1, hd, h⟩ := checked_bind_ok h
    rw [addDecl_eq] at hd
    cases hadded : addDecl runtime empty d with
    | error r =>
      rw [hadded] at hd
      cases hd
    | ok added =>
      rw [hadded] at hd
      cases hd
      refine ih h ?_
      have hfind : (i.onto added).types.find? name = (added.types.find? name).or (i.types.find? name) :=
        Table.find?_onto _ _ _
      rw [List.flatMap_cons, List.mem_append, or_assoc] at hname
      rcases added_types hadded name with ⟨hnot, hnone, -⟩ | ⟨-, e, he, hkind⟩
      · refine hname.elim (fun hmem => absurd hmem hnot) (Or.imp_right fun ⟨e, he, hkind⟩ => ⟨e, ?_, hkind⟩)
        rw [hfind, hnone, Option.none_or, he]
      · exact .inr ⟨e, by rw [hfind, he, Option.some_or], hkind⟩

end Index

namespace TypeEntry

variable {e : TypeEntry} {d d' : Source.FuncDecl} {receiver receiver' : Ty}

theorem withMethod_kind : (e.withMethod d receiver).kind = e.kind := by
  simp only [withMethod, addMethod]
  split <;> rfl

theorem withMethod_comm (hkind : e.kind ≠ .opaqueType) (hname : d.name.val ≠ d'.name.val) :
    (e.withMethod d receiver).withMethod d' receiver' = (e.withMethod d' receiver').withMethod d receiver := by
  simp only [withMethod, addMethod, beq_false_of_ne hkind, Bool.and_false, Bool.false_eq_true, if_false,
    Table.insert_comm _ hname]

end TypeEntry

namespace Index

open Lower (unlocated)
open Source (Program FuncDecl)

variable {i : Index} {d d' : FuncDecl} {receiver receiver' : Ty} {decl : Located Source.Decl}

theorem addMethod_eq {e : TypeEntry} (h : i.types.find? receiver.baseName = some e) :
    i.addMethod d receiver = { i with types := i.types.insert receiver.baseName (e.withMethod d receiver) } := by
  rw [addMethod, h]
  rfl

theorem addMethod_comm (hknows : i.Knows receiver.baseName) (hknows' : i.Knows receiver'.baseName)
    (hdistinct : (receiver.baseName, d.name.val) ≠ (receiver'.baseName, d'.name.val)) :
    (i.addMethod d receiver).addMethod d' receiver' = (i.addMethod d' receiver').addMethod d receiver := by
  obtain ⟨e, he, hkind⟩ := hknows
  obtain ⟨e', he', hkind'⟩ := hknows'
  rw [addMethod_eq he, addMethod_eq he']
  by_cases howner : receiver.baseName = receiver'.baseName
  · obtain rfl : e = e' := Option.some.inj (he.symm.trans (howner ▸ he'))
    have hname : d.name.val ≠ d'.name.val := fun hname => hdistinct (by rw [howner, hname])
    rw [addMethod_eq (e := e.withMethod d receiver) (by simp [howner]),
      addMethod_eq (e := e.withMethod d' receiver') (by simp [howner]), howner, TypeEntry.withMethod_comm hkind hname,
      Table.insert_insert, Table.insert_insert]
  · rw [addMethod_eq (e := e') (by simp [Ne.symm howner, he']), addMethod_eq (e := e) (by simp [howner, he]),
      Table.insert_comm _ howner]

theorem addCode_knows {name : String} (h : i.Knows name) : (i.addCode decl).Knows name := by
  obtain ⟨e, he, hkind⟩ := h
  obtain ⟨decl, span⟩ := decl
  cases decl with
  | func d =>
    simp only [addCode]
    split
    · rename_i receiver _
      by_cases hname : name = receiver.ty.baseName
      · subst hname
        refine ⟨e.withMethod d receiver.ty, ?_, by rwa [TypeEntry.withMethod_kind]⟩
        rw [addMethod_eq he]
        simp
      · exact ⟨e, ((Table.find?_insert _ _ _ _).trans (if_neg hname)).trans he, hkind⟩
    · exact ⟨e, he, hkind⟩
  | _ => exact ⟨e, he, hkind⟩

theorem addCode_comm {decl' : Located Source.Decl}
    (hfunctions : decl.val.functionNames.Disjoint decl'.val.functionNames)
    (hmethods : decl.val.methods.Disjoint decl'.val.methods)
    (hknows : ∀ m ∈ decl.val.methods ++ decl'.val.methods, i.Knows m.1) :
    (i.addCode decl).addCode decl' = (i.addCode decl').addCode decl := by
  obtain ⟨decl, span⟩ := decl
  obtain ⟨decl', span'⟩ := decl'
  cases decl with
  | func d =>
    cases decl' with
    | func d' =>
      simp only [addCode]
      cases hreceiver : d.receiver with
      | none =>
        cases hreceiver' : d'.receiver with
        | none =>
          have hname : d.name.val ≠ d'.name.val := by
            simpa [Source.Decl.functionNames, hreceiver, hreceiver', eq_comm] using hfunctions
          simp only [addFunction, Table.insert_comm _ hname]
        | some receiver' => rfl
      | some receiver =>
        cases hreceiver' : d'.receiver with
        | none => rfl
        | some receiver' =>
          simp only [Source.Decl.methods, hreceiver, hreceiver', Option.toList_some, List.map_cons, List.map_nil]
            at hmethods hknows
          refine addMethod_comm (hknows _ (.head _)) (hknows _ (.tail _ (.head _))) ?_
          exact fun heq => hmethods (.head _) (heq ▸ .head _)
    | _ => rfl
  | _ => rfl

/-! ## The whole index -/

section

variable {program : Program} {decls : List (Located Source.Decl)}

theorem addDecls_perm (hnames : program.NamesDistinct) (hperm : program.decls.Perm decls) (runtime : String) :
    (program.decls.foldlM (addDecl runtime) empty).toOption = (decls.foldlM (addDecl runtime) empty).toOption := by
  have htypes := (List.nodup_flatMap.mp hnames.types).2
  have haliases := (List.nodup_flatMap.mp hnames.aliases).2
  rw [toOption_foldlM, toOption_foldlM]
  refine foldlM_perm (I := fun _ => True) hperm (fun _ _ _ _ _ _ => trivial) ?_ trivial
  exact (htypes.and haliases).imp fun h i _ => addDecl_comm h.1 h.2 i

theorem addCodes_perm (hnames : program.NamesDistinct) (hperm : program.decls.Perm decls)
    (hknows : ∀ m ∈ program.methods, i.Knows m.1) : program.decls.foldl addCode i = decls.foldl addCode i := by
  have hfunctions := (List.nodup_flatMap.mp hnames.functions).2
  have hmethods := (List.nodup_flatMap.mp hnames.methods).2
  refine foldl_perm (I := fun i => ∀ m ∈ program.methods, i.Knows m.1) hperm ?_ ?_ hknows
  · intro i d _ hi m hm
    exact addCode_knows (hi m hm)
  · refine (hfunctions.and hmethods).imp_of_mem fun {d d'} hd hd' h i hi => ?_
    refine addCode_comm h.1 h.2 fun m hm => hi m ?_
    rcases List.mem_append.mp hm with hm | hm
    · exact List.mem_flatMap.mpr ⟨d, hd, hm⟩
    · exact List.mem_flatMap.mpr ⟨d', hd', hm⟩

/-- The index does not depend on the order of the declarations: the program is refused in both orders, or it
    has one index in both. -/
theorem build_perm (hnames : program.NamesDistinct) (howned : program.MethodsOwned)
    (hperm : program.decls.Perm decls) (runtime : String) :
    (∃ fault fault', build program runtime = .error fault ∧
        build { program with decls := decls } runtime = .error fault') ∨
      ∃ index, build program runtime = .ok index ∧ build { program with decls := decls } runtime = .ok index := by
  have hdecls := addDecls_perm hnames hperm runtime
  unfold build
  cases hresult : program.decls.foldlM (addDecl runtime) empty with
  | error fault =>
    cases hresult' : decls.foldlM (addDecl runtime) empty with
    | error fault' => exact .inl ⟨fault, fault', rfl, rfl⟩
    | ok i' => simp [hresult, hresult', Except.toOption] at hdecls
  | ok i =>
    cases hresult' : decls.foldlM (addDecl runtime) empty with
    | error fault' => simp [hresult, hresult', Except.toOption] at hdecls
    | ok i' =>
      obtain rfl : i = i' := by simpa [hresult, hresult', Except.toOption] using hdecls
      have hknows : ∀ m ∈ program.methods, i.Knows m.1 := fun m hm => knows_of_foldlM hresult (.inl (howned m hm))
      exact .inr ⟨_, rfl, congrArg Except.ok (addCodes_perm hnames hperm hknows).symm⟩

end

/-! ## An example -/

/-- A sealed type, a struct with two methods over parameters of other names, an alias and a function. -/
def shapes : Program :=
  ⟨"main", [unlocated (.sealedType ⟨unlocated "Shape", [],
        [⟨unlocated "Circle", [⟨unlocated "r", .float64, false⟩]⟩, ⟨unlocated "Empty", []⟩], .synthetic⟩),
      unlocated (.func ⟨unlocated "Get", [], some ⟨"b", .generic (.own "Box") [.basic "A"]⟩, [], some (.basic "A"),
        unlocated .nil, .synthetic⟩),
      unlocated (.func ⟨unlocated "Put", [], some ⟨"b", .generic (.own "Box") [.basic "B"]⟩,
        [⟨unlocated "x", .basic "B"⟩], none, unlocated .nil, .synthetic⟩),
      unlocated (.struct ⟨unlocated "Box", [⟨"T", none⟩], [⟨unlocated "value", .basic "T", true⟩], .synthetic⟩),
      unlocated (.typeAlias ⟨unlocated "Boxes", [], .array (.generic (.own "Box") [.int])⟩),
      unlocated (.func ⟨unlocated "main", [], none, [], none, unlocated .nil, .synthetic⟩)]⟩

/-- Also with the methods before their type. -/
theorem build_perm_shapes : shapes.NamesDistinct ∧ shapes.MethodsOwned ∧
    ∃ index, build shapes "std" = .ok index ∧
      build { shapes with decls := shapes.decls.reverse } "std" = .ok index := by
  have hnames : shapes.NamesDistinct := ⟨by decide, by decide, by decide, by decide⟩
  have howned : shapes.MethodsOwned := by decide
  refine ⟨hnames, howned, ?_⟩
  rcases build_perm hnames howned (List.reverse_perm _).symm "std" with ⟨fault, _, hfault, -⟩ | hindex
  · have hok : (build shapes "std").toBool = true := by decide +kernel
    rw [hfault] at hok
    cases hok
  · exact hindex

end Index

end Lowering
