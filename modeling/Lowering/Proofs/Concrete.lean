/-
  Concrete — every type of a lowered file is known.

  Inference says `nil` where it cannot tell a type and `void` where there is no value. Where neither is written in
  the program, neither stands in the lowered file, on three conditions that are all needed
  (`lambdaResult_unknown`, `forwardTuple_unknown`, `wrappedCallee_unknown`).
-/

import Lowering.Proofs.Accepted
import Lowering.Proofs.Determined

namespace Lowering

open Lower (unlocated globalType)
open Source (globals Program Decl Gap ValDecl Item Stmt Expr)

/-! ## Types put together -/

namespace Ty

theorem unwrap_not_wrapper {t : Ty} {params : List String} (h : t.Sound params) : t.unwrap.isWrapper = false := by
  cases hwrapper : t.isWrapper with
  | false =>
    rw [unwrap_eq hwrapper]
    exact hwrapper
  | true =>
    match t, hwrapper, h with
    | .generic base [], hwrapper, _ | .generic base (_ :: _ :: _), hwrapper, _ => simp [isWrapper] at hwrapper
    | .generic base [inner], hwrapper, h =>
      have hbase : (base.baseName == wrapperName) = true := by simpa [isWrapper] using hwrapper
      have hdouble : isDoubleWrap (.generic base [inner]) = false := (every_generic.mp h).1.1
      have hunwrap : (Ty.generic base [inner]).unwrap = inner := by simp [unwrap, wrapped?, hwrapper, args]
      rw [hunwrap]
      simpa [isDoubleWrap, hbase] using hdouble

end Ty

/-! ## Annotations -/

/-- No type that is written in the program or in the catalog leaves anything open. A function may have
    no result. -/
structure Annotated (program : Program) (catalog : Catalog) : Prop where
  written : ∀ t, .ty t ∈ program.items → t.isConcrete = true
  types : ∀ package name e, catalog.type? package name = some e → concrete.Entry e
  functions : ∀ package name f, catalog.function? package name = some f →
    concrete.Signature f.typeParams f.params f.result

def Source.Item.ty? : Item → Option Ty
  | .ty t => some t
  | _ => none

def Source.Program.types (program : Program) : List Ty := program.items.filterMap Item.ty?

variable {program : Program}

theorem Source.Program.mem_types {t : Ty} (h : .ty t ∈ program.items) : t ∈ program.types :=
  List.mem_filterMap.mpr ⟨_, h, rfl⟩

def Source.Program.Ordered (program : Program) : Prop :=
  ∀ before v span after, program.decls = before ++ ⟨.val v, span⟩ :: after → v.Settled (globals after)

section

variable {program : Program} {catalog : Catalog} {settings : Settings} {env : Env}

theorem concrete_indexes (h : Annotated program catalog) (runtime : String) : concrete.Indexes program runtime where
  ty := h.written _
  param _ := trivial
  leaf _ := rfl
  self _ := Ty.leafwise_concrete.apply rfl fun t ht => by
    obtain ⟨x, -, rfl⟩ := List.mem_map.mp ht
    rfl
  option ht := (Ty.leafwise_concrete.generic _ _).mpr ⟨rfl, List.forall_mem_singleton.mpr ht⟩
  tuple helems := Ty.leafwise_concrete.apply rfl helems
  subst hs ht := Ty.leafwise_concrete.subst (fun x t hx => (hs x t hx).2) _ ht

variable (h : Annotated program catalog) (henv : Env.ofProgram program catalog settings = .ok env)
include h henv

theorem concrete_formed : concrete.Formed env := by
  obtain ⟨index, hindex, rfl⟩ := Env.ofProgram_ok henv
  have hindexes := concrete_indexes h settings.runtimePackage
  refine ⟨fun _ _ => rfl, rfl, Ty.leafwise_concrete.args, fun ht => ht, fun ht => ht,
    (Ty.leafwise_concrete.map _ _).mp, Ty.leafwise_concrete.func _ _, Ty.leafwise_concrete.apply rfl,
    fun _ _ hargs => Ty.leafwise_concrete.apply rfl hargs, fun hs ht => hindexes.subst hs ht, fun he => ?_, fun _ hf => ?_,
    fun ha => hindexes.expansion hindex ha, fun _ _ _ => trivial⟩
  · rcases Env.type?_cases he with hown | ⟨package, bare, hcatalog⟩
    · exact hindexes.entry hindex hown
    · exact h.types package bare _ hcatalog
  · rcases Env.function?_cases hf with hown | ⟨package, hcatalog⟩
    · exact hindexes.function hindex hown
    · exact h.functions package _ _ hcatalog

theorem concrete_emitting : concrete.Emitting env where
  emitted ht := ht
  plain _ _ ht _ _ := ht
  stem := trivial
  temporary _ _ := ⟨trivial, trivial⟩
  wrapper ht hw := by
    obtain ⟨_, -, hw⟩ := except_bind_ok.mp hw
    cases hw
    exact Ty.leafwise_concrete.apply rfl (List.forall_mem_singleton.mpr ht)
  own he := by
    obtain ⟨index, hindex, rfl⟩ := Env.ofProgram_ok henv
    exact (concrete_indexes h _).entry hindex he
  named name params := Ty.leafwise_concrete.apply rfl fun t ht => by
    obtain ⟨x, -, rfl⟩ := List.mem_map.mp ht
    rfl
  option ht _ _ := (Ty.leafwise_concrete.generic _ _).mpr ⟨rfl, List.forall_mem_singleton.mpr ht⟩
  dropped _ := by simp [concrete, Target.Stmt.discard, Target.Stmt.assign1]
  flagged _ := by simp [concrete, Target.Stmt.assign1]
  place _ _ _ _ _ := by simp [concrete]
  made _ ht := ht
  straight _ _ _ ht _ := ht

omit henv in
theorem concrete_declares {d : Located Decl} (hd : d ∈ program.decls) : concrete.Declares env d.val where
  items := by
    intro i hi
    have hmem : i ∈ program.items := List.mem_flatMap.mpr ⟨d, hd, hi⟩
    cases i with
    | ty t => exact h.written t hmem
    | _ => trivial
  self decl _ e _ := Ty.leafwise_concrete.apply rfl fun t ht => by
    obtain ⟨x, -, rfl⟩ := List.mem_map.mp ht
    rfl

theorem concrete_sound {W : Rule} (hlawful : W.Lawful env) (hflat : W.Flat env) :
    (concrete.both W).Sound (Gap.Clear env) env where
  toFormed := (concrete_formed h henv).both hlawful.toFormed
  toEmitting := (concrete_emitting h henv).both hlawful.toEmitting
  typed {e} hitems hfilled := by
    intro s hscope s1 hlowers halike
    obtain ⟨hconcrete, hwithin⟩ := Rule.scope_both.mp hscope
    have hformed := concrete_formed h henv
    have hknown := Lower.expr_known hformed hflat e ⟨hitems, hfilled, .of_scope hconcrete, hwithin⟩
    refine Rule.known_both (hknown.typed hformed s1 hlowers halike) ?_
    exact hlawful.sound.typed (Rule.permits_both.mp hitems).2 (fun _ _ => trivial) s hwithin s1 hlowers halike
  typeArgs henv hscope htp hparams hargs hexplicit hexpected hs t ht := by
    refine ⟨concrete_typeArgs (fun t ht => (hexplicit t ht).1) hs t ht, ?_⟩
    exact hlawful.sound.typeArgs henv (Rule.scope_both.mp hscope).2 (fun p hp => (htp p hp).2)
      (fun t ht => (hparams t ht).2) (fun p hp => (Rule.permits_both.mp (hargs p hp)).2)
      (fun t ht => (hexplicit t ht).2) (fun t ht => (hexpected t ht).2) hs t ht

end

/-! ## Bindings of the package -/

namespace Lower

variable {env : Env} {decls : List (Located Decl)} {s s' : LowerState}

variable {b : Binding} {v : ValDecl}

theorem exists_global (h : bindGlobals env decls (.start env) = .ok () s) {x : String} (hx : s.scope.find? x = some b) :
    ∃ v ∈ globals decls, v.name.val = x := by
  refine Classical.byContradiction fun hnone => ?_
  have hothers := (bindGlobals_others h).2 x fun v hv heq => hnone ⟨v, hv, heq⟩
  rw [hothers] at hx
  cases hx

theorem split_global (hv : v ∈ globals decls) : ∃ before span after, decls = before ++ ⟨.val v, span⟩ :: after := by
  obtain ⟨⟨d, span⟩, hd, hval⟩ := List.mem_filterMap.mp hv
  cases d with
  | val w =>
    obtain rfl : w = v := Option.some.inj hval
    obtain ⟨before, after, rfl⟩ := List.append_of_mem hd
    exact ⟨before, span, after, rfl⟩
  | _ => cases hval

variable {W : Rule} {lowered : List (List Target.Decl)} (h : concrete.Formed env) (hflat : W.Flat env)
  (hbind : bindGlobals env decls (.start env) = .ok () s) (hlowered : decls.mapM (lowerDecl env) s = .ok lowered s')
  (hscope : W.Scope s.scope) (hitems : ∀ d ∈ decls, (concrete.both W).Permits d.val.items)
  (hgaps : ∀ d ∈ decls, ∀ g ∈ d.val.gaps, g.Clear env)
  (hordered : ∀ before v span after, decls = before ++ ⟨.val v, span⟩ :: after → v.Settled (globals after))
include h hflat hbind hlowered hscope hitems hgaps hordered

theorem global_concrete {before after : List (Located Decl)} {span : Span}
    (hdecls : decls = before ++ ⟨.val v, span⟩ :: after)
    (hbefore : ∀ w ∈ globals before, ∀ b, s.scope.find? w.name.val = some b → concrete.Binding w.name.val b)
    (hb : s.scope.find? v.name.val = some b) : concrete.Binding v.name.val b := by
  have hmem : ⟨.val v, span⟩ ∈ decls := hdecls ▸ List.mem_append_right _ (.head _)
  have hsettled := hordered before v span after hdecls
  obtain ⟨b', hfind, hbinding⟩ := bindGlobals_settled hsettled (hdecls ▸ hbind)
  cases hb.symm.trans hfind
  refine globalBinding_within h trivial ?_ hbinding
  obtain ⟨s1, s2, l, hframed, hdecl, -⟩ := mapM_lowerDecl_ok hlowered _ hmem
  obtain ⟨d, s3, hglobal, -⟩ := bind_ok hdecl
  obtain ⟨ty, s4, hty, hstored⟩ := bind_ok hglobal
  obtain ⟨htype, hs⟩ := bindingType_ok hty
  subst hs
  obtain ⟨value, s5, hvalue, -⟩ := bind_ok hstored
  have hsame : globalType env v s = ty := by
    rw [htype]
    exact (globalType_congr hframed.typeParams fun _ x _ => by rw [hframed.scope]).symm
  have hpermits := (Rule.permits_append.mp (Rule.permits_cons.mp (hitems _ hmem)).2)
  rw [hsame]
  refine bindingType_concrete h hty hvalue (fun t ht => (Rule.permits_ty?.mp hpermits.1 t ht).1) fun hnone => ?_
  -- what the value mentions is bound before, since neither the binding itself nor a later one is mentioned
  have hsees : concrete.Sees (fun x => v.value.val.references x) s4.scope := by
    rw [hframed.scope]
    intro x hx b hfound
    obtain ⟨w, hw, rfl⟩ := exists_global hbind hfound
    have hcases : w ∈ globals before ∨ w = v ∨ w ∈ globals after := by
      rw [hdecls, globals, List.filterMap_append, List.mem_append] at hw
      exact hw.imp_right List.mem_cons.mp
    rcases hcases with hw | rfl | hw
    · exact (hbefore w hw b hfound).ty
    · cases hx.symm.trans (hsettled.own hnone)
    · cases hx.symm.trans (hsettled.forward w hw hnone)
  have hfilled : v.value.val.Filled (Gap.Clear env) := by
    have hown := hgaps _ hmem
    obtain ⟨name, mutable, ty?, value⟩ := v
    cases hnone
    exact hown
  exact expr_known h hflat v.value ⟨hpermits.2, hfilled, hsees, by rw [hframed.scope]; exact hscope⟩

theorem globals_concrete : concrete.Scope s.scope := by
  have hall : ∀ n before, before.length < n → ∀ v span after, decls = before ++ ⟨.val v, span⟩ :: after →
      ∀ b, s.scope.find? v.name.val = some b → concrete.Binding v.name.val b := by
    intro n
    induction n with
    | zero => exact fun before hlt => absurd hlt (Nat.not_lt_zero _)
    | succ n ih =>
      intro before hlt v span after hdecls b hb
      refine global_concrete h hflat hbind hlowered hscope hitems hgaps hordered hdecls (fun w hw => ?_) hb
      obtain ⟨before', span', after', hsplit⟩ := split_global hw
      refine ih before' ?_ w span' (after' ++ ⟨.val v, span⟩ :: after) (by rw [hdecls, hsplit]; simp)
      rw [hsplit, List.length_append, List.length_cons] at hlt
      omega
  intro x b hx
  obtain ⟨v, hv, rfl⟩ := exists_global hbind hx
  obtain ⟨before, span, after, hdecls⟩ := split_global hv
  exact hall _ before (Nat.lt_succ_self _) v span after hdecls b hx

end Lower

/-! ## The runtime -/

theorem concrete_entry {e : TypeEntry} (hfields : ∀ t ∈ e.fieldTypes, t.isConcrete = true)
    (hmethods : ∀ p ∈ e.methods.entries, ∀ t ∈ p.2.params ++ [p.2.result], t.isConcrete = true) : concrete.Entry e where
  typeParams _ _ := trivial
  fieldTypes := hfields
  methods name m hm := by
    obtain ⟨hparams, hresult⟩ := List.forall_mem_append.mp (hmethods (name, m) (Table.mem_entries hm))
    exact ⟨fun _ _ => trivial, hparams, .inr (hresult _ (.head _))⟩

theorem Prelude.annotated (hwritten : ∀ t ∈ program.types, t.isConcrete = true) :
    Annotated program (catalog "std") := by
  have htypes : ∀ e ∈ (file "std").types, (∀ t ∈ e.fieldTypes, t.isConcrete = true) ∧
      ∀ p ∈ e.methods.entries, ∀ t ∈ p.2.params ++ [p.2.result], t.isConcrete = true := by decide
  have hfunctions : ∀ f ∈ functions "std", (∀ t ∈ f.params, t.isConcrete = true) ∧ f.result.isConcrete = true := by decide
  have hcatalog := Catalog.forall_merged (P := fun _ e => concrete.Entry e)
    (Q := fun _ f => concrete.Signature f.typeParams f.params f.result)
    (List.forall_mem_singleton.mpr fun e he => concrete_entry (htypes e he).1 (htypes e he).2)
    (List.forall_mem_singleton.mpr fun f hf => ⟨fun _ _ => trivial, (hfunctions f hf).1, .inr (hfunctions f hf).2⟩)
  exact ⟨fun t ht => hwritten t (Program.mem_types ht), fun package name e he => hcatalog.1 _ e he,
    fun package name f hf => hcatalog.2 _ f hf⟩

/-! ## Files -/

/-- Neither `nil` nor `void` stands in any type of the file, at any depth. -/
theorem lowerProgram_concrete {params : List String} {program : Source.Program} {files : List CatalogFile}
    {settings : Settings} {file : Target.File} (hannotated : Annotated program (files.foldl .merge .empty))
    (hordered : program.Ordered)
    (hgaps : ∀ env, Env.ofProgram program (files.foldl .merge .empty) settings = .ok env →
      ∀ g ∈ program.gaps, g.Clear env)
    (hfiles : ∀ f ∈ files, f.check = .ok ())
    (hparted : Parted params program (files.foldl .merge .empty) settings)
    (hfile : lowerProgram program (files.foldl .merge .empty) settings = .ok file) :
    ∀ n ∈ file.nodes, ∀ t ∈ n.types, t.isConcrete = true := by
  have hcatalog := Catalog.forall_merged (P := fun _ e => ∀ p ∈ e.members, p.2.Accepted)
    (Q := fun _ f => ∀ t ∈ f.params ++ [f.result], t.Accepted)
    (fun f hf => (CatalogFile.check_ok (hfiles f hf)).1) fun f hf => (CatalogFile.check_ok (hfiles f hf)).2
  obtain ⟨_, hcheck, hrest⟩ := checked_bind_ok hfile
  obtain ⟨env, henv, -⟩ := checked_bind_ok hrest
  let W := wrapping params env
  have hlawful : W.Lawful env := wrapping_lawful hparted hcheck henv hcatalog.1 hcatalog.2
  have hflat : W.Flat env := ⟨hlawful.toClosed, fun ht => Ty.unwrap_not_wrapper ht⟩
  have hdeclares : ∀ d ∈ program.decls, W.Declares env d.val := fun d hd =>
    wrapping_declares hparted hcheck henv hcatalog.2 hd
  have hnode : ∀ n ∈ file.nodes, (concrete.both W).node n := by
    refine Rule.Sound.lowerProgram (G := Source.Gap.Clear env) hfile fun env' s henv' hbind ⟨lowered, s', hlowered⟩ => ?_
    cases henv.symm.trans henv'
    have hstart : W.State (.start env) := ⟨.new, by simp [LowerState.start], hlawful.stem⟩
    have hstate : W.State s := (hlawful.bindGlobals hdeclares _ _ _ hstart hbind).2
    have hboth : ∀ d ∈ program.decls, (concrete.both W).Declares env d.val := fun d hd =>
      (concrete_declares hannotated hd).both (hdeclares d hd)
    have hclear : ∀ d ∈ program.decls, ∀ g ∈ d.val.gaps, g.Clear env := fun d hd g hg =>
      hgaps env henv g (List.mem_flatMap.mpr ⟨d, hd, hg⟩)
    have hscope := Lower.globals_concrete (concrete_formed hannotated henv) hflat hbind hlowered hstate.scope
      (fun d hd => (hboth d hd).items) hclear hordered
    have hfunctions : s.functions = [] := (Lower.bindGlobals_steady hbind).functions
    exact ⟨concrete_sound hannotated henv hlawful hflat,
      Rule.state_both.mpr ⟨⟨hscope, by simp [hfunctions], True.intro⟩, hstate⟩,
      fun d hd => ⟨hboth d hd, hclear d hd, fun _ _ => ⟨True.intro, True.intro⟩⟩⟩
  exact fun n hn t ht => (hnode n hn).1 t ht

/-- `val pair = (1, "one")` -/
def pairGlobal : ValDecl :=
  ⟨unlocated "pair", false, none, unlocated (.tuple [unlocated (.lit (.int 1)), unlocated (.lit (.string "one"))])⟩

/-- `func g() { stmts }` -/
def procedure (stmts : List Stmt) : Located Decl :=
  unlocated (.func ⟨unlocated "g", [], none, [], none, unlocated (.block (stmts.map unlocated)), .synthetic⟩)

/-- `val f = (x: int) => body` -/
def localLambda (body : Expr) : Stmt :=
  .val ⟨unlocated "f", false, none, unlocated (.lambda [⟨"x", some .int⟩] (unlocated body))⟩

/-- `var u = value` -/
def localVar (value : Expr) : Stmt := .val ⟨unlocated "u", true, none, unlocated value⟩

/-- The pair of the package, with `val f = (x: int) => x` and `var u = pair` in a function. -/
def pairing : Program where
  package := "main"
  decls := [unlocated (.val pairGlobal), procedure [localLambda (.ident "x"), localVar (.ident "pair")]]

theorem pairing_ordered : pairing.Ordered := by
  intro before v span after hdecls
  rcases before with _ | ⟨d, _ | ⟨d', before⟩⟩
  · cases hdecls
    exact ⟨fun _ => by decide, by simp [globals, procedure, unlocated, Decl.global?],
      by simp [globals, procedure, unlocated, Decl.global?]⟩
  · cases hdecls
  · simp [pairing] at hdecls

theorem pairing_clear (env : Env) : ∀ g ∈ pairing.gaps, g.Clear env := by
  intro g hg
  obtain rfl : g = ⟨[⟨"x", some .int⟩], unlocated (.ident "x")⟩ := List.mem_singleton.mp hg
  intro outer s s' result stmts hscope _ _
  have htype : s.scope.typeOf "x" = .int := by
    rw [hscope]
    show (((outer.enter.bind "x" .val .int).find? "x").map (·.ty)).getD .nil = .int
    rfl
  show (identType env s.scope "x").unwrap.isNil = false
  rw [identType, htype]
  rfl

/-- `NewImmutable[t](value)` -/
def storing (t : Ty) (value : Target.Expr) : Target.Expr := .call (.selector (.ident "std") "NewImmutable") [t] [value]

def pairingFile : Target.File :=
  let pair := Ty.tuple "std" [.int, .string]
  ⟨"main", [⟨none, "valgo/std"⟩], [.var "pair" (some (wrapperOf pair)) (some (storing pair
        (.composite pair [⟨some "V1", .lit (.int 1)⟩, ⟨some "V2", .lit (.string "one")⟩]))),
      .func ⟨"g", [], none, [], [],
        [.define1 "f" (storing (.func [.int] [.int]) (.funcLit [⟨"x", .int⟩] [.int] [.ret1 (.ident "x")])),
          .discard (.ident "f"), .var "u" pair (some (Storage.read (.ident "pair"))), .discard (.ident "u")]⟩]⟩

theorem lowerProgram_concrete_pairing : lowerProgram pairing (Prelude.catalog "std") .standard = .ok pairingFile ∧
    ∀ n ∈ pairingFile.nodes, ∀ t ∈ n.types, t.isConcrete = true := by
  have hitems : pairing.items = [.binder "pair", .function "g", .binder "f", .binder "x", .ty .int, .mention "x",
    .binder "u", .mention "pair"] := rfl
  have hannotated : Annotated pairing (Prelude.catalog "std") := Prelude.annotated (by decide)
  have hparted : Parted Prelude.typeParams pairing (Prelude.catalog "std") .standard := by
    refine Prelude.parted ?_ ?_ ?_ ?_ ?_
    · simp [hitems]
    · have hapart : ∀ t ∈ pairing.types, t.Every (·.isApart Prelude.typeParams = true) := by decide
      exact fun t ht => hapart t (Source.Program.mem_types ht)
    · simp [hitems]
    · rintro d receiver ⟨span, hd⟩ hreceiver
      simp only [pairing, procedure, unlocated, List.mem_cons, Located.mk.injEq, Source.Decl.func.injEq, reduceCtorEq,
        false_and, false_or, List.not_mem_nil, or_false] at hd
      obtain ⟨rfl, -⟩ := hd
      cases hreceiver
    · intro name hname
      simp only [hitems, List.mem_cons, reduceCtorEq, Source.Item.mention.injEq, false_or, or_false,
        List.not_mem_nil] at hname
      rcases hname with rfl | rfl <;> decide
  have hcheck : ∀ f ∈ [Prelude.file "std"], f.check = .ok () :=
    List.forall_mem_singleton.mpr (by with_unfolding_all rfl)
  have hfile : lowerProgram pairing (Prelude.catalog "std") .standard = .ok pairingFile := by with_unfolding_all rfl
  exact ⟨hfile,
    lowerProgram_concrete hannotated pairing_ordered (fun env _ => pairing_clear env) hcheck hparted hfile⟩

/-! ## Open types -/

/-- All types are known where they are written, but one is not where it is emitted. -/
def LeavesOpen (program : Program) : Prop :=
  Annotated program .empty ∧ ∃ file, lowerProgram program .empty .standard = .ok file ∧
    ∃ n ∈ file.nodes, ∃ t ∈ n.types, t.isConcrete = false

theorem LeavesOpen.of_lowered (hwritten : ∀ t ∈ program.types, t.isConcrete = true)
    (hopen : (lowerProgram program .empty .standard).toOption.any
      (fun file => file.nodes.any fun n => n.types.any fun t => !t.isConcrete) = true) : LeavesOpen program := by
  have hannotated : Annotated program .empty :=
    ⟨fun t ht => hwritten t (Program.mem_types ht), (fun _ _ _ he => nomatch he), (fun _ _ _ hf => nomatch hf)⟩
  cases hfile : lowerProgram program .empty .standard with
  | error d =>
    rw [hfile] at hopen
    cases hopen
  | ok file =>
    simp only [hfile, Except.toOption, Option.any_some, List.any_eq_true, Bool.not_eq_true'] at hopen
    exact ⟨hannotated, file, hfile, hopen⟩

/-- `val f = (x: int) => nil`: the lambda returns `any`, but `f` is stored as a `func(int) nil`. -/
theorem lambdaResult_unknown : LeavesOpen ⟨"main", [procedure [localLambda .nil]]⟩ :=
  .of_lowered (by decide) (by decide +kernel)

/-- `val t = (b, 1)`, `val b = 2` and `var u = t`: `t` is bound while nothing is known of `b`, so `u` is declared as a
    `Tuple[nil, int]`. -/
theorem forwardTuple_unknown : LeavesOpen ⟨"main",
    [unlocated (.val ⟨unlocated "t", false, none, unlocated (.tuple [unlocated (.ident "b"), unlocated (.lit (.int 1))])⟩),
      unlocated (.val ⟨unlocated "b", false, none, unlocated (.lit (.int 2))⟩), procedure [localVar (.ident "t")]]⟩ :=
  .of_lowered (by decide) (by decide +kernel)

/-- `func f[T]() Immutable[T]` and `var u = { var y = f[Immutable[func() int]](); (y(), 1) }`: lowering declares `y` with
    one wrapper less than inference gives it and calls it, where inference knows nothing of the call. -/
theorem wrappedCallee_unknown : LeavesOpen ⟨"main",
    [unlocated (.func ⟨unlocated "f", [⟨"T", none⟩], none, [], some (wrapperOf (.basic "T")),
        unlocated (.call (unlocated (.ident "panic")) [] [⟨none, unlocated (.lit (.int 1))⟩]), .synthetic⟩),
      procedure [localVar (.block [unlocated (.val ⟨unlocated "y", true, none,
          unlocated (.call (unlocated (.ident "f")) [wrapperOf (.func [] [.int])] [])⟩),
        unlocated (.expr (unlocated (.tuple [unlocated (.call (unlocated (.ident "y")) [] []),
          unlocated (.lit (.int 1))])))])]]⟩ :=
  .of_lowered (by decide) (by decide +kernel)

end Lowering
