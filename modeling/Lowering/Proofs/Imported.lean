/-
  Imported — every package that a file names is imported under that name.

  Selections are written for functions of packages and for what the source selects from a package, and all of
  these go by the names of the imports (`Unqualified` lists what else a name may be).
-/

import Lowering.Proofs.Concrete
import Lowering.Proofs.Extracted
import Lowering.Proofs.Imports
import Lowering.Proofs.Supply

namespace Lowering

open Target (Stmt Node)

/-! ## Types -/

theorem Table.mem_values {α : Type} {t : Table α} {key : String} {value : α} (h : t.find? key = some value) :
    value ∈ t.values :=
  List.mem_map_of_mem (Table.mem_entries h)

namespace Env

theorem exists_type?_of_entry? {env : Env} {e : TypeEntry} : ∀ ty : Ty, env.entry? ty = some e →
    ∃ name, env.type? name = some e
  | .pointer elem, h => exists_type?_of_entry? elem h
  | .generic base _, h => exists_type?_of_entry? base h
  | .basic name, h => ⟨name, h⟩
  | .named _ _, h => ⟨_, h⟩

variable {env : Env}

def Resolves (env : Env) (t : Ty) : Prop := ∀ q ∈ Lower.tyQualifiers t, env.goesBy q = true

theorem resolves_list {ts : List Ty} :
    (∀ q ∈ Lower.tyListQualifiers ts, env.goesBy q = true) ↔ ∀ t ∈ ts, env.Resolves t := by
  induction ts with
  | nil => simp [Lower.tyListQualifiers]
  | cons t ts ih => simp only [Lower.tyListQualifiers, List.forall_mem_append, List.forall_mem_cons, ih, Resolves]

variable {name package : String}

theorem leafwise_resolves : Ty.Leafwise env.Resolves where
  generic _ _ := by
    rw [← resolves_list]
    simp only [Resolves, Lower.tyQualifiers, List.forall_mem_append]
  array _ := .rfl
  pointer _ := .rfl
  map _ _ := by simp only [Resolves, Lower.tyQualifiers, List.forall_mem_append]
  func _ _ := by
    rw [← resolves_list, ← resolves_list]
    simp only [Resolves, Lower.tyQualifiers, List.forall_mem_append]

theorem resolves_named (h : package = "" ∨ env.goesBy package = true) : env.Resolves (.named package name) := by
  simp only [Resolves, Lower.tyQualifiers]
  split
  · exact List.forall_mem_nil _
  · rename_i hne
    refine List.forall_mem_singleton.mpr (h.resolve_left fun heq => hne ?_)
    rw [heq]
    rfl

theorem resolves_basics {names : List String} : ∀ t ∈ names.map Ty.basic, env.Resolves t := by
  intro t ht
  obtain ⟨x, -, rfl⟩ := List.mem_map.mp ht
  exact List.forall_mem_nil _

theorem goesBy_runtime (env : Env) : env.goesBy env.runtime = true := by simp [goesBy]

theorem resolves_subst {s : Substitution} (hs : ∀ x t, s.find? x = some t → env.Resolves t) :
    ∀ t : Ty, env.Resolves t → env.Resolves (t.subst s) :=
  leafwise_resolves.subst hs

end Env

/-! ## Programs whose packages are listed -/

def TypeEntry.memberTypes (e : TypeEntry) : List Ty :=
  e.fieldTypes ++ e.methods.values.flatMap fun m => m.params ++ [m.result]

/-- Every package of the catalog is listed, and types name packages as their imports do: those written in the
    program, those of the members of types, and those of functions that the program mentions. -/
structure Source.Program.Resolved (program : Source.Program) (env : Env) : Prop where
  written : ∀ t ∈ program.types, env.Resolves t
  types : ∀ e ∈ env.catalog.types.values, env.isListed e.package = true ∧ ∀ t ∈ e.memberTypes, env.Resolves t
  functions : ∀ f ∈ env.catalog.functions.values, env.isListed f.package = true
  signatures : ∀ name, (.mention name ∈ program.items ∨ ∃ n : Nat, name = env.settings.tempStem ++ toString n) →
    ∀ package f, env.catalog.function? package (Text.bareName name) = some f →
    ∀ t ∈ f.params ++ [f.result], env.Resolves t

/-- What is written without a qualifier: names of the language, of the program and of dot imports, and those
    that are made up. -/
inductive Unqualified (program : Source.Program) (env : Env) : String → Prop
  | builtin {name : String} (h : Lower.isBuiltin name = true ∨ name ∈ ["_", "any", "s"]) : Unqualified program env name
  | known {name : String} (h : IsKnown program env.settings.tempStem name) : Unqualified program env name
  | runtime {name : String} (hname : name ∈ runtimeFunctions) (h : env.runtime = "") : Unqualified program env name
  | function {name : String} {f : FunctionEntry} (hf : env.function? name = some f) (h : env.qualifier f.package = "") :
      Unqualified program env f.name
  | extracted {ty : Ty} {name : String} {owner : TypeEntry} {m : Method} (hm : env.method? ty name = some (owner, m))
      (hform : (owner.method? name).any (MethodForm.mustExtract owner) = true)
      (h : env.qualifier owner.package = "") : Unqualified program env (methodFunction owner.name name)
  | variant {d : Located Source.Decl} {name : String} (hd : d ∈ program.decls) (h : name ∈ d.val.variantNames) :
      Unqualified program env name

/-- Types name packages as their imports do, and so does every name that is not written without a qualifier. -/
def importing (program : Source.Program) (env : Env) : Rule where
  ty := env.Resolves
  name := IsKnown program env.settings.tempStem
  mention name := ∀ f, env.function? name = some f → ∀ t ∈ f.params ++ [f.result], env.Resolves t
  stem stem := stem = env.settings.tempStem
  ident x := env.isPackage x = true ∨ Unqualified program env x
  emitted := env.Resolves
  node n := (∀ t ∈ n.types, env.Resolves t) ∧ ∀ x ∈ n.ident?, env.isPackage x = true ∨ Unqualified program env x

section

variable {program : Source.Program} {catalog : Catalog} {settings : Settings} {env : Env}

theorem importing_entry {e : TypeEntry} (h : ∀ t ∈ e.memberTypes, env.Resolves t) : (importing program env).Entry e where
  typeParams _ _ := trivial
  fieldTypes t ht := h t (List.mem_append_left _ ht)
  methods name m hm := by
    have hmethod : ∀ t ∈ m.params ++ [m.result], env.Resolves t := fun t ht =>
      h t (List.mem_append_right _ (List.mem_flatMap.mpr ⟨m, Table.mem_values hm, ht⟩))
    obtain ⟨hparams, hresult⟩ := List.forall_mem_append.mp hmethod
    exact ⟨fun _ _ => trivial, hparams, .inr (hresult _ (.head _))⟩

variable (h : program.Resolved env) (henv : Env.ofProgram program catalog settings = .ok env)
include h

theorem importing_indexes : (importing program env).Indexes program env.runtime where
  ty ht := h.written _ (Source.Program.mem_types ht)
  param _ := trivial
  leaf _ := List.forall_mem_nil _
  self _ := Env.leafwise_resolves.apply (Env.resolves_named (.inl rfl)) Env.resolves_basics
  option ht := (Env.leafwise_resolves.generic _ _).mpr
    ⟨Env.resolves_named (.inr env.goesBy_runtime), List.forall_mem_singleton.mpr ht⟩
  tuple helems := Env.leafwise_resolves.apply (Env.resolves_named (.inr env.goesBy_runtime)) helems
  subst hs ht := Env.resolves_subst (fun x t hx => (hs x t hx).2) _ ht

include henv

variable {name : String}

theorem isListed_of_type? {e : TypeEntry} (he : env.type? name = some e) : env.isListed e.package = true := by
  rcases Env.type?_cases he with hown | ⟨package, bare, hcatalog⟩
  · obtain ⟨index, hindex, rfl⟩ := Env.ofProgram_ok henv
    simp [Env.isListed, (Index.own_name hindex name e hown).1]
  · exact (h.types e (Table.mem_values hcatalog)).1

theorem isListed_of_method? {ty : Ty} {owner : TypeEntry} {m : Method} (hm : env.method? ty name = some (owner, m)) :
    env.isListed owner.package = true := by
  obtain ⟨e, he, hm⟩ := Option.bind_eq_some_iff.mp hm
  obtain ⟨m', -, hm⟩ := Option.bind_eq_some_iff.mp hm
  cases hm
  obtain ⟨name, he⟩ := Env.exists_type?_of_entry? ty he
  exact isListed_of_type? h henv he

theorem isListed_of_function? {f : FunctionEntry} (hf : env.function? name = some f) :
    env.isListed f.package = true := by
  rcases Env.function?_cases hf with hown | ⟨package, hcatalog⟩
  · obtain ⟨index, hindex, rfl⟩ := Env.ofProgram_ok henv
    obtain ⟨d, -, -, rfl⟩ := (Index.build_declared hindex).functions name f hown
    simp [Env.isListed]
  · exact h.functions f (Table.mem_values hcatalog)

theorem mention_of_item
    (hname : .mention name ∈ program.items ∨ ∃ n : Nat, name = env.settings.tempStem ++ toString n) :
    (importing program env).mention name := by
  intro f hf
  have hindexes := importing_indexes h
  obtain ⟨index, hindex, rfl⟩ := Env.ofProgram_ok henv
  rcases Env.function?_cases hf with hown | ⟨package, hcatalog⟩
  · have hsignature := hindexes.function hindex hown
    refine List.forall_mem_append.mpr ⟨hsignature.params, List.forall_mem_singleton.mpr ?_⟩
    rcases hsignature.result with hvoid | hresult
    · rw [hvoid]
      exact List.forall_mem_nil _
    · exact hresult
  · exact h.signatures name hname package f hcatalog

theorem importing_closed : (importing program env).Closed env where
  builtin _ _ := List.forall_mem_nil _
  any := List.forall_mem_nil _
  nil := List.forall_mem_nil _
  void := List.forall_mem_nil _
  args := Env.leafwise_resolves.args
  array ht := ht
  pointer ht := ht
  map := (Env.leafwise_resolves.map _ _).mp
  func := Env.leafwise_resolves.func _ _
  tuple helems := Env.leafwise_resolves.apply (Env.resolves_named (.inr env.goesBy_runtime)) helems
  built he _ hargs := by
    refine Env.leafwise_resolves.apply (Env.resolves_named ?_) hargs
    exact (Env.qualifier_cases (isListed_of_type? h henv he)).imp_right Env.goesBy_of_isPackage
  subst hs ht := Env.resolves_subst (fun x t hx => (hs x t hx).2) _ ht
  entry he := by
    have hindexes := importing_indexes h
    obtain ⟨index, hindex, rfl⟩ := Env.ofProgram_ok henv
    rcases Env.type?_cases he with hown | ⟨package, bare, hcatalog⟩
    · exact hindexes.entry hindex hown
    · exact importing_entry (h.types _ (Table.mem_values hcatalog)).2
  function hname hf := by
    obtain ⟨hparams, hresult⟩ := List.forall_mem_append.mp (hname _ hf)
    exact ⟨fun _ _ => trivial, hparams, .inr (hresult _ (.head _))⟩
  expansion ha := by
    have hindexes := importing_indexes h
    obtain ⟨index, hindex, rfl⟩ := Env.ofProgram_ok henv
    exact hindexes.expansion hindex ha

omit h henv in
theorem importing_writes {qualifier : String} (hq : qualifier = "" ∨ env.isPackage qualifier = true)
    (hname : qualifier = "" → Unqualified program env name) : (importing program env).Writes qualifier name := by
  unfold Rule.Writes
  split
  · rename_i hempty
    exact .inr (hname (String.isEmpty_iff.mp hempty))
  · rename_i hempty
    exact .inl (hq.resolve_left fun heq => hempty (String.isEmpty_iff.mpr heq))

omit h henv in
theorem unnamed_of_function {n : Node} {f : List Ty × List Stmt} (hn : n.function? = some f) {P : String → Prop} :
    ∀ x ∈ n.ident?, P x := by
  rcases n with e | s | d
  · cases e with
    | funcLit => exact nofun
    | _ => cases hn
  · exact nofun
  · exact nofun

theorem importing_lawful : (importing program env).Lawful env where
  toClosed := importing_closed h henv
  emitted ht := ht
  plain _ _ ht hx _ := ⟨ht, hx⟩
  identAt hn := hn.2 _ rfl
  boundName hx := .inr (.known hx)
  madeName {stem} hstem n := by
    obtain rfl : stem = env.settings.tempStem := hstem
    exact .inr (.known (.inr (.inr ⟨n, .inl rfl⟩)))
  flagName n := .inr (.known (.inr (.inr ⟨n, .inr rfl⟩)))
  builtinName hx := .inr (.builtin hx)
  packageName hq := .inl hq
  runtimeName hname := importing_writes (.inr (by simp [Env.isPackage])) (.runtime hname)
  functionName hf := importing_writes (Env.qualifier_cases (isListed_of_function? h henv hf)) (.function hf)
  extractedName hm hform := importing_writes (Env.qualifier_cases (isListed_of_method? h henv hm)) (.extracted hm hform)
  stem := rfl
  temporary {stem} hstem n := by
    obtain rfl : stem = env.settings.tempStem := hstem
    exact ⟨.inr (.inr ⟨n, .inl rfl⟩), mention_of_item h henv (.inr ⟨n, rfl⟩)⟩
  wrapper {t w} ht hw := by
    obtain ⟨_, -, hw⟩ := except_bind_ok.mp hw
    cases hw
    exact Env.leafwise_resolves.apply (Env.resolves_named (.inr env.goesBy_runtime)) (List.forall_mem_singleton.mpr ht)
  own he := by
    have hindexes := importing_indexes h
    obtain ⟨index, hindex, rfl⟩ := Env.ofProgram_ok henv
    exact hindexes.entry hindex he
  named _ _ := Env.leafwise_resolves.apply (Env.resolves_named (.inl rfl)) Env.resolves_basics
  option ht _ _ := (Env.leafwise_resolves.generic _ _).mpr
    ⟨Env.resolves_named (.inr env.goesBy_runtime), List.forall_mem_singleton.mpr ht⟩
  dropped _ := by simp [importing, Target.Stmt.discard, Target.Stmt.assign1]
  flagged _ := by simp [importing, Target.Stmt.assign1]
  place _ _ _ _ _ := by simp [importing]
  made hmade ht := by
    obtain ⟨f, hn⟩ := hmade.function
    exact ⟨ht, unnamed_of_function hn⟩
  straight _ n hn ht _ := ⟨ht, unnamed_of_function hn⟩

theorem importing_declares {d : Located Source.Decl} (hd : d ∈ program.decls) : (importing program env).Declares env d.val where
  items := by
    intro i hi
    have hmem : i ∈ program.items := List.mem_flatMap.mpr ⟨d, hd, hi⟩
    cases i with
    | ty t => exact h.written t (Source.Program.mem_types hmem)
    | mention x => exact mention_of_item h henv (.inl hmem)
    | binder x => exact .inr (.inl ⟨.binder x, hmem, by simp [Source.Item.introduces]⟩)
    | _ => trivial
  self decl _ e _ := Env.leafwise_resolves.apply (Env.resolves_named (.inl rfl)) Env.resolves_basics
  variants x hx := .inr (.variant hd hx)

/-- All types of the file name packages as their imports do, and whatever else is named there is written without
    a qualifier. -/
theorem lowerProgram_resolves {file : Target.File} (hfile : lowerProgram program catalog settings = .ok file) :
    ∀ n ∈ file.nodes, (importing program env).node n := by
  refine Rule.Lawful.lowerProgram (R := importing program env) hfile fun env' henv' => ?_
  cases henv.symm.trans henv'
  exact ⟨importing_lawful h henv, fun d hd => importing_declares h henv hd⟩

end

/-! ## Files -/

/-- Every package in a type of the file is imported under the name that it has there, and so is every name
    that is selected from, unless it is no package and is written without a qualifier. -/
theorem lowerProgram_imported {program : Source.Program} {catalog : Catalog} {settings : Settings} {env : Env}
    {file : Target.File} (hfile : lowerProgram program catalog settings = .ok file)
    (henv : Env.ofProgram program catalog settings = .ok env) (h : program.Resolved env) (q : String) :
    ∀ n ∈ file.nodes, (∀ t ∈ n.types, q ∈ Lower.tyQualifiers t → file.Imports env q) ∧
      (q ∈ n.selected → file.Imports env q ∨ env.isPackage q = false ∧ Unqualified program env q) := by
  have himports : ∀ n ∈ file.nodes, q ∈ n.qualifiers env → env.goesBy q = true → file.Imports env q := by
    obtain ⟨env', s, lowered, s', henv', -, -, -, heq⟩ := Lower.lowerProgram_runs hfile
    cases henv.symm.trans henv'
    intro n hn hq hgoes
    refine imports_of_importOf? hgoes fun i hi => ?_
    rw [heq]
    exact Lower.mem_collectImports.mpr (.inl ⟨n, hn, q, hq, hi⟩)
  intro n hn
  obtain ⟨htypes, hnames⟩ := lowerProgram_resolves h henv hfile n hn
  refine ⟨fun t ht hq => himports n hn ?_ (htypes t ht q hq), fun hq => ?_⟩
  · exact List.mem_append_left _ (List.mem_flatMap.mpr ⟨t, ht, hq⟩)
  · by_cases hpackage : env.isPackage q = true
    · refine .inl (himports n hn ?_ (Env.goesBy_of_isPackage hpackage))
      exact List.mem_append_right _ (List.mem_filter.mpr ⟨hq, hpackage⟩)
    · exact .inr ⟨by simpa using hpackage, (hnames q (Node.ident?_of_selected hq)).resolve_left hpackage⟩

section

open Lower (exists_of_any unlocated)

/-- A test for it, which looks at all functions of the catalog. -/
def Source.Program.isResolved (program : Source.Program) (env : Env) : Bool :=
  let resolves (t : Ty) := (Lower.tyQualifiers t).all env.goesBy
  program.types.all resolves &&
    env.catalog.types.values.all (fun e => env.isListed e.package && e.memberTypes.all resolves) &&
    env.catalog.functions.values.all fun f => env.isListed f.package && (f.params ++ [f.result]).all resolves

theorem Source.Program.resolved_of_isResolved {program : Source.Program} {env : Env}
    (h : program.isResolved env = true) : program.Resolved env := by
  simp only [isResolved, Bool.and_eq_true, List.all_eq_true] at h
  obtain ⟨⟨hwritten, htypes⟩, hfunctions⟩ := h
  exact ⟨hwritten, htypes, fun f hf => (hfunctions f hf).1, fun name _ package f hf =>
    (hfunctions f (Table.mem_values hf)).2⟩

/-- The package `geometry`, with an alias or without one, and the package `scaling` as `sc`. -/
def geometryCatalog (aliasName : Option String) : Catalog :=
  let point := Ty.named "geometry" "Point"
  Catalog.empty.merge {
    types := [{ TypeEntry.new "geometry" "Point" .struct with fields := ["x"], flags := [false], fieldTypes := [.int] }]
    functions := [⟨"geometry", "Origin", [], point, []⟩, ⟨"scaling", "Twice", [point], point, []⟩]
    companions := []
    imports := [⟨"geometry", "example.com/geometry", aliasName, false⟩,
      ⟨"scaling", "example.com/scaling", some "sc", false⟩] }

/-- `func f() { var p = value }` -/
def pointProgram (value : Source.Expr) : Source.Program where
  package := "main"
  decls := [unlocated (.func ⟨unlocated "f", [], none, [], none,
    unlocated (.block [unlocated (.val ⟨unlocated "p", true, none, unlocated value⟩)]), .synthetic⟩)]

/-- `package.name(args)` -/
def packageCall (package name : String) (args : List Source.Expr) : Source.Expr :=
  .call (unlocated (.select (unlocated (.ident package)) (unlocated name))) [] (args.map fun a => ⟨none, unlocated a⟩)

/-- `func f() { var p = sc.Twice(geometry.Origin()) }` -/
def twiceProgram : Source.Program := pointProgram (packageCall "sc" "Twice" [packageCall "geometry" "Origin" []])

/-- A package that goes by its own name in a type, and one that goes by its alias in a selection. -/
theorem lowerProgram_imported_twice : ∃ env file,
    lowerProgram twiceProgram (geometryCatalog none) .standard = .ok file ∧
      Env.ofProgram twiceProgram (geometryCatalog none) .standard = .ok env ∧ twiceProgram.Resolved env ∧
      file.Imports env "geometry" ∧ file.Imports env "sc" := by
  obtain ⟨env, henv, hresolved⟩ : ∃ env, Env.ofProgram twiceProgram (geometryCatalog none) .standard = .ok env ∧
      (twiceProgram.isResolved env && env.isPackage "sc") = true := exists_of_any (by decide +kernel)
  obtain ⟨file, hfile, hnamed⟩ : ∃ file, lowerProgram twiceProgram (geometryCatalog none) .standard = .ok file ∧
      ((file.nodes.any fun n => n.types.any fun t => (Lower.tyQualifiers t).contains "geometry") &&
        file.nodes.any (·.selected.contains "sc")) = true :=
    exists_of_any (by decide +kernel)
  simp only [Bool.and_eq_true, List.any_eq_true, List.contains_iff_mem] at hresolved hnamed
  obtain ⟨⟨n, hn, t, ht, hgeometry⟩, m, hm, hsc⟩ := hnamed
  have h := Source.Program.resolved_of_isResolved hresolved.1
  refine ⟨env, file, hfile, henv, h, (lowerProgram_imported hfile henv h "geometry" n hn).1 t ht hgeometry, ?_⟩
  rcases (lowerProgram_imported hfile henv h "sc" m hm).2 hsc with himports | ⟨hpackage, -⟩
  · exact himports
  · rw [hresolved.2] at hpackage
    cases hpackage

/-- A package with an alias is imported under it, and its types are written with the name of the package:
    `func f() { var p = geo.Origin() }`. -/
theorem aliased_types_unimported : ∃ env file,
    lowerProgram (pointProgram (packageCall "geo" "Origin" [])) (geometryCatalog (some "geo")) .standard = .ok file ∧
      Env.ofProgram (pointProgram (packageCall "geo" "Origin" [])) (geometryCatalog (some "geo")) .standard = .ok env ∧
      (∃ n ∈ file.nodes, ∃ t ∈ n.types, "geometry" ∈ Lower.tyQualifiers t) ∧ ¬ file.Imports env "geometry" := by
  obtain ⟨env, henv, hnames⟩ : ∃ env, Env.ofProgram (pointProgram (packageCall "geo" "Origin" []))
      (geometryCatalog (some "geo")) .standard = .ok env ∧
      (env.runtime != "geometry" && env.catalog.imports.entries.all (·.localName != "geometry")) = true :=
    exists_of_any (by decide +kernel)
  obtain ⟨file, hfile, htypes⟩ : ∃ file, lowerProgram (pointProgram (packageCall "geo" "Origin" []))
      (geometryCatalog (some "geo")) .standard = .ok file ∧
      (file.nodes.any fun n => n.types.any fun t => (Lower.tyQualifiers t).contains "geometry") = true :=
    exists_of_any (by decide +kernel)
  simp only [Bool.and_eq_true, List.any_eq_true, List.all_eq_true, List.contains_iff_mem, bne_iff_ne] at hnames htypes
  refine ⟨env, file, hfile, henv, htypes, ?_⟩
  rintro (⟨heq, -⟩ | ⟨i, hi, heq, -⟩)
  · exact hnames.1 heq.symm
  · exact hnames.2 i hi heq

end

end Lowering
