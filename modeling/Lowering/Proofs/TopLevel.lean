/-
  TopLevel — names of the package that a lowered file declares.

  A declaration keeps its name, and so does a variant, as the type of its companion; methods and tags get joined
  names.
-/

import Lowering.Proofs.Extracted
import Lowering.Proofs.Lowered

namespace Lowering

open Lower (exists_of_any methodForm unlocated)

def Target.Decl.topName? : Target.Decl → Option String
  | .func d => if d.receiver.isNone then some d.name else none
  | .struct name _ _ | .typeAlias name _ _ | .var name _ _ | .const name _ _ => some name

def Target.File.topNames (file : Target.File) : List String := file.decls.filterMap (·.topName?)

namespace Source

/-- Names of the package that are written. -/
def Decl.topNames : Decl → List String
  | .val d => [d.name.val]
  | .func d => if d.receiver.isNone then [d.name.val] else []
  | .struct d => [d.name.val]
  | .sealedType d => d.name.val :: d.variants.map (·.name.val)
  | .typeAlias d => [d.name.val]

def Decl.variants : Decl → List (String × String)
  | .sealedType d => d.variants.map fun v => (d.name.val, v.name.val)
  | _ => []

def Decl.methods : Decl → List (String × String)
  | .func d => d.receiver.toList.map fun r => (r.ty.baseName, d.name.val)
  | _ => []

def Decl.extracted (env : Env) : Decl → List (String × String)
  | .func d => (d.receiver.toList.filter fun r => (methodForm env r d.name.val).isExtracted).map fun r =>
      (r.ty.baseName, d.name.val)
  | _ => []

namespace Program

variable (program : Program) (env : Env)

def topNames : List String := program.decls.flatMap (·.val.topNames)

def variants : List (String × String) := program.decls.flatMap (·.val.variants)

def methods : List (String × String) := program.decls.flatMap (·.val.methods)

def extracted : List (String × String) := program.decls.flatMap (·.val.extracted env)

def joined (member : String × String) : String := methodFunction member.1 member.2

/-- No joined name is declared, no two are spelled alike, and no method that becomes a function is named like a
    variant of its type. -/
def JoinsApart : Prop :=
  (∀ m ∈ program.variants ++ program.extracted env, joined m ∉ program.topNames) ∧
    (∀ m ∈ program.variants ++ program.extracted env, ∀ m' ∈ program.variants ++ program.extracted env,
      joined m = joined m' → m = m') ∧
    ∀ m ∈ program.variants, m ∉ program.extracted env

instance : Decidable (program.JoinsApart env) := inferInstanceAs (Decidable (_ ∧ _ ∧ _))

variable {program env}

theorem nodup_variants (h : program.topNames.Nodup) : program.variants.Nodup := by
  refine List.Nodup.of_map Prod.snd (h.sublist ?_)
  rw [variants, List.map_flatMap, topNames]
  refine List.Sublist.flatMap_right _ fun d _ => ?_
  cases d.val <;> simp [Decl.variants, Decl.topNames, Function.comp_def]

theorem extracted_sublist : (program.extracted env).Sublist program.methods := by
  refine List.Sublist.flatMap_right _ fun d _ => ?_
  cases d.val <;> simp only [Decl.extracted, Decl.methods, List.Sublist.refl]
  exact List.filter_sublist.map _

theorem joinsApart_iff (hnames : program.topNames.Nodup) (hmethods : program.methods.Nodup) :
    (program.topNames ++ (program.variants ++ program.extracted env).map joined).Nodup ↔ program.JoinsApart env := by
  have hvariants := nodup_variants hnames
  have hextracted : (program.extracted env).Nodup := hmethods.sublist extracted_sublist
  have hmembers : (program.variants ++ program.extracted env).Nodup ↔
      ∀ m ∈ program.variants, m ∉ program.extracted env := by
    rw [List.nodup_append']
    exact ⟨fun h m hm hm' => h.2.2 hm hm', fun h => ⟨hvariants, hextracted, fun m hm hm' => h m hm hm'⟩⟩
  rw [List.nodup_append']
  constructor
  · intro ⟨_, hjoined, hdisjoint⟩
    exact ⟨fun m hm hname => hdisjoint hname (List.mem_map_of_mem hm),
      (List.nodup_map_iff_inj_on hjoined.of_map).mp hjoined, hmembers.mp hjoined.of_map⟩
  · intro ⟨hfresh, hspelled, hapart⟩
    refine ⟨hnames, (List.nodup_map_iff_inj_on (hmembers.mpr hapart)).mpr hspelled, fun x hx hjoined => ?_⟩
    obtain ⟨m, hm, rfl⟩ := List.mem_map.mp hjoined
    exact hfresh m hm hx

end Program

end Source

namespace Lower

open Source.Program (joined)

variable {env : Env} {s s' : LowerState}

theorem lowerFunc_topNames (hown : ∀ name e, env.index.types.find? name = some e → e.name = name) {d : Source.FuncDecl}
    {decl : Target.Decl} (h : lowerFunc env d s = .ok decl s') :
    decl.topName?.toList = (Source.Decl.func d).topNames ++ ((Source.Decl.func d).extracted env).map joined := by
  cases hr : d.receiver with
  | none =>
    simp only [lowerFunc, hr] at h
    obtain ⟨body, s1, -, h⟩ := bind_ok h
    cases h
    simp [Source.Decl.topNames, Source.Decl.extracted, hr, Target.Decl.topName?]
  | some r =>
    cases hform : methodForm env r d.name.val with
    | keep =>
      obtain ⟨f, rfl, -, hreceiver⟩ := lowerFunc_keep hr hform h
      simp [Source.Decl.topNames, Source.Decl.extracted, hr, hform, MethodForm.isExtracted, Target.Decl.topName?,
        hreceiver]
    | extract function typeParams kept =>
      obtain ⟨f, rfl, hname, hreceiver, -⟩ := lowerFunc_extract hr hform h
      have hfunction : function = joined (r.ty.baseName, d.name.val) := by
        unfold methodForm at hform
        cases howner : env.index.types.find? r.ty.baseName with
        | none => simp [howner] at hform
        | some owner =>
          cases hm : owner.method? d.name.val with
          | none => simp [howner, hm] at hform
          | some m =>
            simp only [howner, hm, Option.bind_eq_bind, Option.bind_some, Option.getD_some] at hform
            rw [(of_extract hform).1, hown _ _ howner]
            rfl
      simp [Source.Decl.topNames, Source.Decl.extracted, hr, hform, MethodForm.isExtracted, Target.Decl.topName?,
        hreceiver, hname, hfunction]

variable {d : Source.SealedDecl} {decls : List Target.Decl}

theorem lowerVariants_topNames {e : TypeEntry} {variants : List Source.Variant} {companions : List (List Target.Decl)}
    (h : variants.mapM (lowerVariant env d e) = .ok companions) :
    companions.flatten.filterMap (·.topName?) = variants.map (·.name.val) := by
  induction variants generalizing companions with
  | nil =>
    cases h
    rfl
  | cons v variants ih =>
    rw [List.mapM_cons] at h
    obtain ⟨l, hv, h⟩ := checked_bind_ok h
    obtain ⟨rest, hrest, rfl⟩ := checked_map_ok h
    obtain ⟨apply, happly, rfl⟩ := checked_map_ok hv
    obtain ⟨elements, -, rfl⟩ := checked_map_ok happly
    rw [List.flatten_cons, List.filterMap_append, ih hrest]
    rfl

theorem lowerSealed_topNames (h : lowerSealed env d = .ok decls) : (decls.filterMap (·.topName?)).Perm
      ((Source.Decl.sealedType d).topNames ++ (Source.Decl.sealedType d).variants.map joined) := by
  unfold lowerSealed at h
  dsimp only at h
  split at h
  · cases h
  · obtain ⟨fields, -, h⟩ := checked_bind_ok h
    obtain ⟨companions, hcompanions, rfl⟩ := checked_map_ok h
    have htags : (d.variants.mapIdx fun i v => Target.Decl.const (variantTag d.name.val v.name.val) (some tagType)
        (.nat i)).filterMap (·.topName?) = (Source.Decl.sealedType d).variants.map joined := by
      rw [Source.Decl.variants, List.map_map, List.mapIdx_eq_zipIdx_map, List.filterMap_map]
      conv_rhs => rw [← List.zipIdx_map_fst 0 d.variants, List.map_map]
      exact congrFun List.filterMap_eq_map _
    change (d.name.val :: List.filterMap _ (_ ++ _)).Perm _
    rw [List.filterMap_append, htags, lowerVariants_topNames hcompanions]
    exact List.perm_append_comm.cons _

theorem lowerDecl_topNames (hown : ∀ name e, env.index.types.find? name = some e → e.name = name)
    {d : Located Source.Decl} (h : lowerDecl env d s = .ok decls s') :
    (decls.filterMap (·.topName?)).Perm (d.val.topNames ++ (d.val.variants ++ d.val.extracted env).map joined) := by
  obtain ⟨d, span⟩ := d
  cases d with
  | val d =>
    obtain ⟨decl, s1, hglobal, h⟩ := bind_ok h
    cases h
    have hname : decl.topName? = some d.name.val := by
      obtain ⟨ty, _, -, hglobal⟩ := bind_ok hglobal
      obtain ⟨lowered, _, -, hglobal⟩ := bind_ok hglobal
      split at hglobal
      · cases hglobal
        rfl
      · obtain ⟨wrapper, _, -, hglobal⟩ := bind_ok hglobal
        obtain ⟨stored, _, -, hglobal⟩ := bind_ok hglobal
        cases hglobal
        rfl
    rw [List.filterMap_cons_some hname]
    exact .refl _
  | func d =>
    obtain ⟨decl, s1, hfunc, h⟩ := bind_ok h
    cases h
    have hnames := lowerFunc_topNames hown hfunc
    have hsingle : [decl].filterMap (·.topName?) = decl.topName?.toList := by
      cases hname : decl.topName? <;> simp [hname]
    rw [hsingle, hnames]
    exact .refl _
  | struct d =>
    obtain ⟨decl, s1, hstruct, h⟩ := bind_ok h
    cases h
    obtain ⟨fields, -, rfl⟩ := checked_map_ok (ofChecked_ok hstruct).1
    exact .refl _
  | sealedType d =>
    have hnames := lowerSealed_topNames (ofChecked_ok h).1
    rwa [← List.append_nil (Source.Decl.variants _)] at hnames
  | typeAlias d =>
    cases h
    exact .refl _

theorem lowerDecls_topNames (hown : ∀ name e, env.index.types.find? name = some e → e.name = name)
    {decls : List (Located Source.Decl)} {lowered : List (List Target.Decl)}
    (h : decls.mapM (lowerDecl env) s = .ok lowered s') :
    (lowered.flatten.filterMap (·.topName?)).Perm (decls.flatMap fun d =>
      d.val.topNames ++ (d.val.variants ++ d.val.extracted env).map joined) := by
  induction decls generalizing s s' lowered with
  | nil =>
    cases h
    exact .refl _
  | cons d decls ih =>
    rw [List.mapM_cons] at h
    obtain ⟨l, s1, hd, h⟩ := bind_ok h
    obtain ⟨rest, s2, hrest, h⟩ := bind_ok h
    cases h
    rw [List.flatten_cons, List.filterMap_append, List.flatMap_cons]
    exact (lowerDecl_topNames hown hd).append (ih hrest)

end Lower

open Source.Program (joined)

/-- The file declares the names of the program and the joined ones. Where the program declares each name once, and
    each method once per type, no name is declared twice just where joined names are apart. -/
theorem lowerProgram_topNames {program : Source.Program} {catalog : Catalog} {settings : Settings} {file : Target.File}
    (hfile : lowerProgram program catalog settings = .ok file) {env : Env}
    (henv : Env.ofProgram program catalog settings = .ok env) (hnames : program.topNames.Nodup)
    (hmethods : program.methods.Nodup) :
    file.topNames.Perm (program.topNames ++ (program.variants ++ program.extracted env).map joined) ∧
      (file.topNames.Nodup ↔ program.JoinsApart env) := by
  obtain ⟨env', s, lowered, s', henv', -, hlowered, hdecls, -⟩ := Lower.lowerProgram_runs hfile
  cases henv.symm.trans henv'
  have hown : ∀ name e, env.index.types.find? name = some e → e.name = name := by
    obtain ⟨index, hindex, rfl⟩ := Env.ofProgram_ok henv
    exact fun name e he => (Index.own_name hindex name e he).2
  have hperm : file.topNames.Perm (program.topNames ++ (program.variants ++ program.extracted env).map joined) := by
    rw [Target.File.topNames, hdecls]
    refine (Lower.lowerDecls_topNames hown hlowered).trans ((List.flatMap_append_perm ..).symm.trans ?_)
    rw [← List.map_flatMap]
    exact ((List.flatMap_append_perm ..).symm.map _).append_left _
  exact ⟨hperm, hperm.nodup_iff.trans (Source.Program.joinsApart_iff hnames hmethods)⟩

/-- `sealed type name { case variant() }` -/
def sealedDecl (name variant : String) : Located Source.Decl :=
  unlocated (.sealedType ⟨unlocated name, [], [⟨unlocated variant, []⟩], .synthetic⟩)

/-- `func receiver name[typeParams]() {}` -/
def emptyFunc (receiver : Option Source.Receiver) (name : String) (typeParams : List String) : Located Source.Decl :=
  unlocated (.func ⟨unlocated name, typeParams.map (⟨·, none⟩), receiver, [], none, unlocated (.block []), .synthetic⟩)

/-- A sealed type `Shape` with the variant `Circle` and a method that becomes a function, and a function. -/
def shapesProgram (method function : String) : Source.Program where
  package := "main"
  decls := [sealedDecl "Shape" "Circle", emptyFunc (some ⟨"s", .own "Shape"⟩) method ["T"], emptyFunc none function []]

theorem lowerProgram_topNames_shapes : ∃ file env,
    lowerProgram (shapesProgram "area" "Circle_area") .empty .standard = .ok file ∧
      Env.ofProgram (shapesProgram "area" "Circle_area") .empty .standard = .ok env ∧
      file.topNames.Perm ["Shape", "Circle", "Circle_area", "Shape_Circle", "Shape_area"] ∧ file.topNames.Nodup := by
  obtain ⟨file, hfile, -⟩ : ∃ file, lowerProgram (shapesProgram "area" "Circle_area") .empty .standard = .ok file ∧
      (fun _ => true) file = true := exists_of_any (by decide +kernel)
  obtain ⟨env, henv, happly⟩ : ∃ env, Env.ofProgram (shapesProgram "area" "Circle_area") .empty .standard = .ok env ∧
      decide ((shapesProgram "area" "Circle_area").JoinsApart env ∧
        (shapesProgram "area" "Circle_area").extracted env = [("Shape", "area")]) = true :=
    exists_of_any (by decide +kernel)
  obtain ⟨hapart, hextracted⟩ := of_decide_eq_true happly
  obtain ⟨hperm, hiff⟩ := lowerProgram_topNames hfile henv (by decide) (by decide)
  rw [hextracted] at hperm
  exact ⟨file, env, hfile, henv, hperm, hiff.mpr hapart⟩

/-- `sealed type A { case B_C() }` and `sealed type A_B { case C() }` -/
def underscoredProgram : Source.Program := ⟨"main", [sealedDecl "A" "B_C", sealedDecl "A_B" "C"]⟩

def Source.Program.Clashes (program : Source.Program) : Prop := program.topNames.Nodup ∧ program.methods.Nodup ∧
  ∃ file, lowerProgram program .empty .standard = .ok file ∧ ¬ file.topNames.Nodup

/-- A joined name is that of a function, of another variant or of a method. -/
theorem joinedNames_clash : (shapesProgram "area" "Shape_Circle").Clashes ∧
    (shapesProgram "area" "Shape_area").Clashes ∧ underscoredProgram.Clashes ∧ (shapesProgram "Circle" "area").Clashes := by
  have hclash : ∀ {r : Checked Target.File}, r.toOption.any (fun file => !decide file.topNames.Nodup) = true →
      ∃ file, r = .ok file ∧ ¬ file.topNames.Nodup := by
    intro r h
    obtain ⟨file, hfile, hclash⟩ := exists_of_any h
    exact ⟨file, hfile, by simpa using hclash⟩
  refine ⟨⟨by decide, by decide, ?_⟩, ⟨by decide, by decide, ?_⟩, ⟨by decide, by decide, ?_⟩, by decide, by decide, ?_⟩ <;>
    exact hclash (by decide +kernel)

end Lowering
