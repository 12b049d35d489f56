/-
  Extracted — calls and declarations of a method agree on its form.

  Whether a method stays one is decided at its declaration and at each call on its own. Both look at the same
  entry, so they decide alike (`method_agrees`).
-/

import Lowering.Proofs.FirstMatch
import Lowering.Proofs.Indexed
import Lowering.Proofs.Resolved

namespace Lowering

open Source (Program FuncDecl Receiver typeParamNames)

/-! ## Flags -/

section

variable {α β : Type}

variable {items : List β} {names : List α}

theorem zip_keepFlagged (h : items.length = names.length) :
    (names.filter test).zip (keepFlagged items (names.map test)) = (names.zip items).filter fun p => test p.1 := by
  induction names generalizing items with
  | nil => rfl
  | cons name names ih =>
    cases items with
    | nil => cases h
    | cons item items =>
      have hrest := ih (Nat.succ.inj h)
      simp only [List.map_cons, List.zip_cons_cons, List.filter_cons]
      cases test name
      · exact hrest
      · exact congrArg ((name, item) :: ·) hrest

theorem length_keepFlagged (h : items.length = names.length) :
    (keepFlagged items (names.map test)).length = (names.filter test).length := by
  have hnames : (items.zip names).map (·.2) = names := List.map_snd_zip (by omega)
  rw [keepFlagged, List.zip_map_right, List.filter_map, List.length_map, List.length_map]
  conv => rhs; rw [← hnames, List.filter_map, List.length_map]
  rfl

end

/-! ## Methods in the index -/

namespace Index

variable {program : Program} {runtime : String} {index : Index}

/-- A method on the type of the receiver under the name of the declaration, with the type
    parameters of a declaration of that method. -/
def HasMethod (program : Program) (index : Index) (d : FuncDecl) (receiver : Receiver) : Prop :=
  ∃ owner m, index.types.find? receiver.ty.baseName = some owner ∧ owner.method? d.name.val = some m ∧
    ∃ d' receiver', Declared program (.func d') ∧ d'.receiver = some receiver' ∧
      receiver'.ty.baseName = receiver.ty.baseName ∧ d'.name.val = d.name.val ∧ m.typeParams = typeParamNames d'.typeParams

theorem method?_withMethod (e : TypeEntry) (d : FuncDecl) (receiver : Ty) :
    ∃ m, (e.withMethod d receiver).method? d.name.val = some m ∧ m.typeParams = typeParamNames d.typeParams :=
  ⟨_, (Table.find?_insert _ _ _ _).trans (if_pos rfl), rfl⟩

variable {d : FuncDecl} {r : Receiver}

theorem method?_withMethod_of_ne (e : TypeEntry) (receiver : Ty) {name : String} (h : name ≠ d.name.val) :
    (e.withMethod d receiver).method? name = e.method? name := by
  unfold TypeEntry.withMethod TypeEntry.method? TypeEntry.addMethod
  rw [Table.find?_insert, if_neg h]
  split <;> rfl

theorem HasMethod.addMethod {i : Index} {d' : FuncDecl} {r' : Receiver} (hd' : Declared program (.func d'))
    (hr' : d'.receiver = some r')
    (h : HasMethod program i d r ∨ r.ty.baseName = r'.ty.baseName ∧ d.name.val = d'.name.val) :
    HasMethod program (i.addMethod d' r'.ty) d r := by
  have hfind : ∀ name, (i.addMethod d' r'.ty).types.find? name = if name = r'.ty.baseName then
      some (((i.types.find? r'.ty.baseName).getD (.new "" r'.ty.baseName .opaqueType)).withMethod d' r'.ty)
      else i.types.find? name := fun name => Table.find?_insert _ _ _ _
  by_cases hbase : r.ty.baseName = r'.ty.baseName
  · by_cases hname : d.name.val = d'.name.val
    · obtain ⟨m', hmethod, hparams⟩ := method?_withMethod
        ((i.types.find? r'.ty.baseName).getD (.new "" r'.ty.baseName .opaqueType)) d' r'.ty
      refine ⟨_, m', by rw [hfind, if_pos hbase], ?_, d', r', hd', hr', hbase.symm, hname.symm, hparams⟩
      rw [hname, hmethod]
    · rcases h with ⟨owner, m, howner, hm, hdeclared⟩ | ⟨-, h⟩
      · refine ⟨_, m, by rw [hfind, if_pos hbase], ?_, hdeclared⟩
        rw [method?_withMethod_of_ne _ _ hname, ← hbase, howner]
        exact hm
      · exact absurd h hname
  · rcases h with ⟨owner, m, howner, hm, hdeclared⟩ | ⟨h, -⟩
    · exact ⟨owner, m, by rw [hfind, if_neg hbase, howner], hm, hdeclared⟩
    · exact absurd h hbase

theorem exists_method (h : build program runtime = .ok index) (hd : Declared program (.func d))
    (hr : d.receiver = some r) : HasMethod program index d r := by
  obtain ⟨span, hmem⟩ := hd
  obtain ⟨before, after, hdecls⟩ := List.append_of_mem hmem
  obtain ⟨index1, -, rfl⟩ := checked_map_ok h
  have hdeclared : ∀ d' ∈ before ++ ⟨.func d, span⟩ :: after, Declared program d'.val :=
    fun d' hd' => declared_of_mem (hdecls ▸ hd')
  rw [hdecls, List.foldl_append, List.foldl_cons]
  -- what comes after the declaration keeps what the declaration establishes
  refine List.foldlRecOn (motive := fun i => HasMethod program i d r) _ _ ?_ fun i hi d' hd' => ?_
  · have hself := hdeclared ⟨.func d, span⟩ (List.mem_append_right _ (.head _))
    simp only [addCode, hr]
    exact .addMethod hself hr (.inr ⟨rfl, rfl⟩)
  · have hd' := hdeclared d' (List.mem_append_right _ (.tail _ hd'))
    obtain ⟨d', span'⟩ := d'
    cases d' with
    | func d' =>
      simp only [addCode]
      split
      · rename_i r' hr'
        exact .addMethod hd' hr' (.inl hi)
      · exact hi
    | _ => exact hi

theorem own_name (h : build program runtime = .ok index) :
    ∀ name e, index.types.find? name = some e → e.package = "" ∧ e.name = name := by
  refine types_induction (P := fun name e => e.package = "" ∧ e.name = name) h ?_ ?_ ?_ ?_
  · intro d _
    exact TypeEntry.ofStruct_induction (P := fun e => e.package = "" ∧ e.name = d.name.val) ⟨rfl, rfl⟩
      fun _ _ _ he => he
  · intro d _ v _
    exact ⟨rfl, rfl⟩
  · intro d _ e he
    exact TypeEntry.sealed_induction (P := fun e => e.package = "" ∧ e.name = d.name.val) he ⟨rfl, rfl⟩
      (fun _ _ _ he => he) fun _ _ _ _ _ he => he
  · intro d receiver _ _ e he
    have hstart : e.package = "" ∧ e.name = receiver.ty.baseName := by
      rcases he with he | rfl
      · exact he
      · exact ⟨rfl, rfl⟩
    unfold TypeEntry.withMethod TypeEntry.addMethod
    split <;> exact hstart

end Index

namespace Lower

open Target (Expr)

variable {env : Env}

/-! ## Declarations -/

variable {m : Method} {name function : String} {r : Receiver} {kept : List Bool} {typeParams : List String}
    {d : FuncDecl} {decl : Target.Decl} {s s' : LowerState} {args : List ArgPiece} {expected : Option Ty} {span : Span}
    {ty : Ty} {callee : Generic} {owner : TypeEntry}

theorem methodForm_eq (howner : env.index.types.find? r.ty.baseName = some owner)
    (hm : owner.method? name = some m) : methodForm env r name = MethodForm.of owner name m := by
  simp only [methodForm, howner, hm, Option.bind_eq_bind, Option.bind_some, Option.getD_some]

theorem of_extract (h : MethodForm.of owner name m = .extract function typeParams kept) :
    function = methodFunction owner.name name ∧ kept = m.typeParams.map fun p => !owner.typeParams.contains p := by
  unfold MethodForm.of at h
  split at h
  · cases h
    exact ⟨rfl, rfl⟩
  · cases h

theorem lowerFunc_keep (hr : d.receiver = some r) (hform : methodForm env r d.name.val = .keep)
    (h : lowerFunc env d s = .ok decl s') :
    ∃ f : Target.FuncDecl, decl = .func f ∧ f.name = d.name.val ∧ f.receiver = some ⟨r.name, r.ty⟩ := by
  simp only [lowerFunc, hr, hform] at h
  obtain ⟨body, s1, -, h⟩ := bind_ok h
  cases h
  exact ⟨_, rfl, rfl, rfl⟩

theorem lowerFunc_extract (hr : d.receiver = some r)
    (hform : methodForm env r d.name.val = .extract function typeParams kept) (h : lowerFunc env d s = .ok decl s') :
    ∃ f : Target.FuncDecl, decl = .func f ∧ f.name = function ∧ f.receiver = none ∧
      f.params.head? = some ⟨r.name, r.ty⟩ ∧
      f.typeParams = (receiverParams r.ty).map (⟨·, .any⟩) ++
        targetParams (d.typeParams.filter fun p => (ownParams d kept).contains p.name) := by
  simp only [lowerFunc, hr, hform] at h
  obtain ⟨body, s1, -, h⟩ := bind_ok h
  cases h
  exact ⟨_, rfl, rfl, rfl, rfl, rfl⟩

theorem ownParams_eq :
    ownParams d ((typeParamNames d.typeParams).map test) = (typeParamNames d.typeParams).filter test := by
  have hflags : (d.typeParams.mapIdx fun i p => (p.name, ((typeParamNames d.typeParams).map test)[i]?.getD true)) =
      d.typeParams.map fun p => (p.name, test p.name) := by
    apply List.ext_getElem?
    intro i
    simp only [typeParamNames, List.getElem?_mapIdx, List.getElem?_map]
    cases d.typeParams[i]? <;> rfl
  rw [ownParams, hflags, List.filterMap_map, typeParamNames, List.filter_map, ← List.filterMap_eq_filter,
    List.map_filterMap]
  congr 1
  funext p
  simp only [Function.comp_apply, Option.guard]
  split <;> rfl

theorem surviving_eq : (targetParams (d.typeParams.filter fun p =>
      (ownParams d ((typeParamNames d.typeParams).map test)).contains p.name)).map (·.name) =
      (typeParamNames d.typeParams).filter test := by
  have htest : ∀ p ∈ d.typeParams, ((typeParamNames d.typeParams).filter test).contains p.name = test p.name := by
    intro p hp
    have hmem : p.name ∈ typeParamNames d.typeParams := List.mem_map_of_mem hp
    rw [Bool.eq_iff_iff, List.contains_iff_mem, List.mem_filter]
    exact and_iff_right hmem
  rw [ownParams_eq, List.filter_congr htest, targetParams, List.map_map, typeParamNames, List.filter_map]
  rfl

/-! ## Calls -/

theorem lowerCall_method {callee : Piece} {typeArgs : List Ty} {call : Expr}
    (hcallee : (⟨env, s.typeParams⟩ : Inference).callee s.scope callee.source = .method ty owner name m)
    (h : lowerCall env callee typeArgs args expected span s = .ok call s') :
    callMethod env (receiverOf callee) ty owner name m typeArgs args expected span s = .ok call s' := by
  obtain ⟨called, s1, hask, h⟩ := bind_ok h
  rw [askCalleeOf_run, hcallee] at hask
  cases hask
  exact h

theorem calleeTypeArgs_ok {args : List (Option Piece)} {explicit : List Ty} {typeArgs : Option (List Ty)}
    (h : calleeTypeArgs env callee args explicit expected span s = .ok typeArgs s') :
    resolveTypeArgs callee.typeParams callee.params (typingsAt env s args) explicit
      (expected.map (callee.result, ·)) = typeArgs := by
  obtain ⟨-, h⟩ := check_ok h
  obtain ⟨resolved, s1, hask, h⟩ := bind_ok h
  rw [askTypeArgs_run] at hask
  cases hask
  cases hresolve : resolveTypeArgs callee.typeParams callee.params (typingsAt env s args) explicit
      (expected.map (callee.result, ·)) with
  | some found =>
    simp only [hresolve] at h
    rw [(pure_ok h).1]
  | none =>
    simp only [hresolve] at h
    split at h
    · rw [(pure_ok h).1]
    · cases h

section

variable {receiver : Piece} {ty : Ty} {owner : TypeEntry} {name : String} {m sig : Method} {typeArgs : List Ty}
  {args : List ArgPiece} {expected : Option Ty} {span : Span} {s s' : LowerState} {call : Expr}

theorem callMethod_keep (hm : owner.method? name = some m) (hform : MethodForm.of owner name m = .keep)
    (h : callMethod env receiver ty owner name sig typeArgs args expected span s = .ok call s') :
    ∃ place lowered, call = .method place name lowered := by
  obtain ⟨values, s1, -, h⟩ := bind_ok h
  obtain ⟨own, s2, -, h⟩ := bind_ok h
  obtain ⟨lowered, s3, -, h⟩ := bind_ok h
  obtain ⟨place, s4, -, h⟩ := bind_ok h
  simp only [hm, Option.map_some, hform] at h
  exact ⟨place, lowered, (pure_ok h).1⟩

/-- A call of the function takes the receiver first; its type arguments are those of the receiver's
    type, then the ones found for the method that survive, or none when none are found. -/
theorem callMethod_extract {function : String} {typeParams : List String} {kept : List Bool}
    (hm : owner.method? name = some m) (hform : MethodForm.of owner name m = .extract function typeParams kept)
    (h : callMethod env receiver ty owner name sig typeArgs args expected span s = .ok call s') :
    ∃ place lowered types, call = .call (.qualified (env.qualifier owner.package) function) types (place :: lowered) ∧
      (types = [] ∨ ∃ own, types = receiverArgs ty ++ keepFlagged own kept ∧
        resolveTypeArgs sig.typeParams sig.params (typingsAt env s (args.map fun a => some a.value)) typeArgs
          (expected.map (sig.result, ·)) = some own) := by
  obtain ⟨values, s1, hvalues, hrest⟩ := bind_ok h
  obtain ⟨rfl, -, rfl⟩ := checkedArgs_ok hvalues
  obtain ⟨own, s2, hown, h⟩ := bind_ok hrest
  obtain ⟨lowered, s3, -, h⟩ := bind_ok h
  obtain ⟨place, s4, -, h⟩ := bind_ok h
  simp only [hm, Option.map_some, hform] at h
  have hown := calleeTypeArgs_ok hown
  rw [List.map_map] at hown
  refine ⟨place, lowered, _, (pure_ok h).1, ?_⟩
  cases own with
  | none => exact .inl rfl
  | some own => exact .inr ⟨own, rfl, hown⟩

end

/-! ## Agreement -/

theorem callee_method {scope : Scope} {e : Located Source.Expr} {sig : Method}
    (h : (⟨env, typeParams⟩ : Inference).callee scope e = .method ty owner name sig) :
    env.entry? ty = some owner ∧ ∃ m, owner.method? name = some m ∧ sig = m.subst (Env.receiverSubst owner ty) := by
  obtain ⟨e, span⟩ := e
  cases calledAs h with
  | name hnamed | qualified hnamed => cases hnamed
  | member hmember =>
    cases hmember with
    | method hm =>
      obtain ⟨e, he, hm⟩ := Option.bind_eq_some_iff.mp hm
      obtain ⟨m', hm', hm⟩ := Option.bind_eq_some_iff.mp hm
      cases hm
      exact ⟨he, _, hm', rfl⟩

/-- The declaration names each parameter of its type, the receiver of the call has an argument for
    each, and methods of this name on this type have the same type parameters. -/
structure PairsUp (program : Program) (d : FuncDecl) (r : Receiver) (owner : TypeEntry) (ty : Ty) : Prop where
  named : (receiverParams r.ty).length = owner.typeParams.length
  applied : (receiverArgs ty).length = owner.typeParams.length
  alike : ∀ d' r', Index.Declared program (.func d') → d'.receiver = some r' → r'.ty.baseName = r.ty.baseName →
    d'.name.val = d.name.val → typeParamNames d'.typeParams = typeParamNames d.typeParams

/-- A call of a method is emitted as one exactly when the method is, and as a call of the function that stands for it,
    receiver first, exactly when that function is emitted. Type arguments of such a call pair up with the type
    parameters of the function: those of the receiver, then those of the method that the type does not have. -/
theorem method_agrees {program : Program} {catalog : Catalog} {settings : Settings}
    (henv : Env.ofProgram program catalog settings = .ok env) {d : FuncDecl} {r : Receiver}
    (hd : Index.Declared program (.func d)) (hr : d.receiver = some r) {owner : TypeEntry}
    (howner : env.index.types.find? r.ty.baseName = some owner) {sd sd' : LowerState} {decl : Target.Decl}
    (hdecl : lowerFunc env d sd = .ok decl sd') {callee : Piece} {typeArgs : List Ty} {args : List ArgPiece}
    {expected : Option Ty} {span : Span} {s s' : LowerState} {call : Expr} {ty : Ty} {sig : Method}
    (hcallee : (⟨env, s.typeParams⟩ : Inference).callee s.scope callee.source = .method ty owner d.name.val sig)
    (hcall : lowerCall env callee typeArgs args expected span s = .ok call s') :
    ∃ f : Target.FuncDecl, decl = .func f ∧
      (f.name = d.name.val ∧ f.receiver = some ⟨r.name, r.ty⟩ ↔
        ∃ place lowered, call = .method place d.name.val lowered) ∧
      (f.name = methodFunction r.ty.baseName d.name.val ∧ f.receiver = none ∧
          f.params.head? = some ⟨r.name, r.ty⟩ ↔
        ∃ types place lowered, call = .call (.ident (methodFunction r.ty.baseName d.name.val)) types (place :: lowered)) ∧
      ∀ types place lowered,
        call = .call (.ident (methodFunction r.ty.baseName d.name.val)) types (place :: lowered) → types ≠ [] →
        PairsUp program d r owner ty →
        types.length = f.typeParams.length ∧ ∃ own,
          resolveTypeArgs sig.typeParams sig.params (typingsAt env s (args.map fun a => some a.value)) typeArgs
            (expected.map (sig.result, ·)) = some own ∧
          (f.typeParams.map (·.name)).zip types = (receiverParams r.ty).zip (receiverArgs ty) ++
            ((typeParamNames d.typeParams).zip own).filter fun p => !owner.typeParams.contains p.1 := by
  obtain ⟨index, hindex, rfl⟩ := Env.ofProgram_ok henv
  obtain ⟨owner', m, howner', hm, d', r', hd', hr', hbase, hname, hparams⟩ := Index.exists_method hindex hd hr
  cases howner.symm.trans howner'
  obtain ⟨hpackage, hownerName⟩ := Index.own_name hindex _ _ howner
  obtain ⟨-, m', hm', rfl⟩ := callee_method hcallee
  cases hm.symm.trans hm'
  have hmethod := lowerCall_method hcallee hcall
  have hdeclForm : methodForm ⟨index, catalog, settings⟩ r d.name.val = MethodForm.of owner d.name.val m :=
    methodForm_eq howner hm
  cases hform : MethodForm.of owner d.name.val m with
  | keep =>
    obtain ⟨f, rfl, hfname, hfreceiver⟩ := lowerFunc_keep hr (hdeclForm.trans hform) hdecl
    obtain ⟨place, lowered, rfl⟩ := callMethod_keep hm hform hmethod
    refine ⟨f, rfl, iff_of_true ⟨hfname, hfreceiver⟩ ⟨place, lowered, rfl⟩, iff_of_false ?_ ?_, ?_⟩
    · rintro ⟨-, hnone, -⟩
      cases hfreceiver.symm.trans hnone
    · rintro ⟨types, place', lowered', h⟩
      cases h
    · intro types place' lowered' h
      cases h
  | extract function typeParams kept =>
    obtain ⟨rfl, rfl⟩ := of_extract hform
    obtain ⟨f, rfl, hfname, hfreceiver, hfparams, hftypes⟩ := lowerFunc_extract hr (hdeclForm.trans hform) hdecl
    obtain ⟨place, lowered, types, rfl, htypes⟩ := callMethod_extract hm hform hmethod
    rw [hownerName] at hfname
    rw [hpackage, hownerName]
    refine ⟨f, rfl, iff_of_false ?_ ?_, iff_of_true ⟨hfname, hfreceiver, hfparams⟩ ⟨types, place, lowered, rfl⟩, ?_⟩
    · rintro ⟨-, hsome⟩
      cases hfreceiver.symm.trans hsome
    · rintro ⟨place', lowered', h⟩
      cases h
    · intro types' place' lowered' h hne hpairs
      cases h
      rcases htypes with htypes | ⟨own, rfl, hown⟩
      · exact absurd htypes hne
      have hsame : m.typeParams = typeParamNames d.typeParams := hparams.trans (hpairs.alike d' r' hd' hr' hbase hname)
      have hlength : own.length = (typeParamNames d.typeParams).length :=
        (length_resolveTypeArgs hown).trans (congrArg List.length hsame)
      have hfirst : (receiverParams r.ty).length = (receiverArgs ty).length := hpairs.named.trans hpairs.applied.symm
      have hnames : f.typeParams.map (·.name) = receiverParams r.ty ++
          (typeParamNames d.typeParams).filter fun p => !owner.typeParams.contains p := by
        rw [hftypes, hsame, List.map_append, surviving_eq, List.map_map]
        exact congrArg (· ++ _) (List.map_id _)
      refine ⟨?_, own, hown, ?_⟩
      · have hcount := congrArg List.length hnames
        rw [List.length_map, List.length_append] at hcount
        rw [hcount, List.length_append, hsame, length_keepFlagged hlength, hfirst]
      · rw [hnames, hsame, List.zip_append hfirst, zip_keepFlagged hlength]

/-! ## A box -/

/-- `func (b receiver) conv[U](f func(T) U) U = f(b.x)` -/
def convMethod (receiver : Ty) : FuncDecl :=
  ⟨unlocated "conv", [⟨"U", none⟩], some ⟨"b", receiver⟩, [⟨unlocated "f", .func [.basic "T"] [.basic "U"]⟩],
    some (.basic "U"), unlocated (.call (unlocated (.ident "f")) []
      [⟨none, unlocated (.select (unlocated (.ident "b")) (unlocated "x"))⟩]), .synthetic⟩

/-- `Box[t]` -/
def boxOf (t : Ty) : Ty := .generic (.own "Box") [t]

/-- `b.conv` -/
def convOfB : Located Source.Expr := unlocated (.select (unlocated (.ident "b")) (unlocated "conv"))

/-- `(n: int) => "s"` -/
def toText : Located Source.Expr := unlocated (.lambda [⟨"n", some .int⟩] (unlocated (.lit (.string "s"))))

/-- `struct Box[T] { x: T }`, the method `conv` of boxes and `func g(b receiver) string = b.conv((n: int) => "s")`;
    `receiver` takes the type of a box to that of a receiver. -/
def converting (receiver : Ty → Ty) : Program where
  package := "main"
  decls := [unlocated (.struct ⟨unlocated "Box", [⟨"T", none⟩], [⟨unlocated "x", .basic "T", false⟩], .synthetic⟩),
    unlocated (.func (convMethod (receiver (boxOf (.basic "T"))))),
    unlocated (.func ⟨unlocated "g", [], none, [⟨unlocated "b", receiver (boxOf .int)⟩], some .string,
      unlocated (.call convOfB [] [⟨none, toText⟩]), .synthetic⟩)]

/-- `func(n int) string { return "s" }` -/
def loweredToText : Expr := .funcLit [⟨"n", .int⟩] [.string] [.ret1 (.string "s")]

/-- The lowered program, with the type parameters of the function that stands for `conv`. -/
def converted (receiver : Ty → Ty) (typeParams : List Target.TypeParam) : List Target.Decl :=
  [.struct "Box" [⟨"T", .any⟩] [⟨"x", .generic (.named "std" Ty.wrapperName) [.basic "T"]⟩],
    .func ⟨"Box_conv", typeParams, none, [⟨"b", receiver (boxOf (.basic "T"))⟩, ⟨"f", .func [.basic "T"] [.basic "U"]⟩],
      [.basic "U"], [.ret1 (.apply (.ident "f") [Storage.read (.selector (.ident "b") "x")])]⟩,
    .func ⟨"g", [], none, [⟨"b", receiver (boxOf .int)⟩], [.string],
      [.ret1 (.call (.ident "Box_conv") [.int, .string] [.ident "b", loweredToText])]⟩]

theorem lowerProgram_converting_pointer : lowerProgram (converting .pointer) .empty .standard =
    .ok ⟨"main", [⟨none, "valgo/std"⟩], converted .pointer [⟨"U", .any⟩]⟩ := by
  obtain ⟨env, henv⟩ : ∃ env, Env.ofProgram (converting .pointer) .empty .standard = .ok env := ⟨_, rfl⟩
  have hlowered : (converting .pointer).decls.mapM (lowerDecl env) (.start env) =
      .ok ((converted .pointer [⟨"U", .any⟩]).map ([·])) (.start env) := by
    cases henv
    refine mapM_cons_still ?_ (mapM_cons_still ?_ (mapM_cons_still ?_ rfl)) <;> with_unfolding_all rfl
  rw [lowerProgram_of_lowered rfl henv rfl hlowered]
  cases henv
  with_unfolding_all rfl

/-- A pointer as the receiver: the function that stands for the method has one type parameter, and
    its call two type arguments. -/
theorem pointerReceiver_fewerParams : ∃ file f types args,
    lowerProgram (converting .pointer) .empty .standard = .ok file ∧ .func f ∈ file.decls ∧ f.name = "Box_conv" ∧
      Target.Node.expr (.call (.ident "Box_conv") types args) ∈ file.nodes ∧ types.length ≠ f.typeParams.length := by
  refine ⟨_, _, [.int, .string], [.ident "b", loweredToText], lowerProgram_converting_pointer, .tail _ (.head _), rfl, ?_,
    by decide⟩
  simp [Target.File.nodes, converted, Target.Decl.nodes, Target.Stmt.ret1]

/-- What `b.conv` is looked up in. -/
def convEnv : Env := ⟨(Index.build (converting id) "std").toOption.getD .empty, .empty, .standard⟩

def boxEntry : TypeEntry := (convEnv.index.types.find? "Box").getD (.new "" "" .opaqueType)

/-- The state with `b` bound to a box of numbers. -/
def boxInScope : LowerState := { LowerState.start convEnv with scope := Scope.new.enter.bind "b" .val (boxOf .int) }

theorem ofProgram_converting : Env.ofProgram (converting id) .empty .standard = .ok convEnv := by with_unfolding_all rfl

theorem lowerFunc_convMethod : lowerFunc convEnv (convMethod (boxOf (.basic "T"))) (.start convEnv) =
    .ok (.func ⟨"Box_conv", [⟨"T", .any⟩, ⟨"U", .any⟩], none,
      [⟨"b", boxOf (.basic "T")⟩, ⟨"f", .func [.basic "T"] [.basic "U"]⟩], [.basic "U"],
      [.ret1 (.apply (.ident "f") [Storage.read (.selector (.ident "b") "x")])]⟩) (.start convEnv) := by
  with_unfolding_all rfl

theorem eq_convMethod {d : FuncDecl} {r : Source.Receiver} (hd : Index.Declared (converting id) (.func d))
    (hr : d.receiver = some r) : d = convMethod (boxOf (.basic "T")) := by
  obtain ⟨span, hd⟩ := hd
  simp only [converting, unlocated, id, List.mem_cons, Located.mk.injEq, Source.Decl.func.injEq, reduceCtorEq,
    false_and, false_or, List.not_mem_nil, or_false] at hd
  rcases hd with ⟨rfl, -⟩ | ⟨rfl, -⟩
  · rfl
  · cases hr

theorem converting_pairsUp :
    PairsUp (converting id) (convMethod (boxOf (.basic "T"))) ⟨"b", boxOf (.basic "T")⟩ boxEntry (boxOf .int) where
  named := by with_unfolding_all rfl
  applied := by with_unfolding_all rfl
  alike := by
    rintro d' r' hd' hr' - -
    cases eq_convMethod hd' hr'
    rfl

/-- A value receiver: the type argument of the box comes first, then the one found for the method. -/
theorem method_agrees_box : ∃ f types place lowered s s',
    lowerFunc convEnv (convMethod (boxOf (.basic "T"))) (.start convEnv) = .ok (.func f) s ∧
    lowerCall convEnv (piece convEnv convOfB) [] [⟨none, piece convEnv toText⟩] none .synthetic boxInScope =
      .ok (.call (.ident "Box_conv") types (place :: lowered)) s' ∧
    f.name = "Box_conv" ∧ f.receiver = none ∧ types.length = f.typeParams.length ∧
    (f.typeParams.map (·.name)).zip types = [("T", .int), ("U", .string)] := by
  have howner : convEnv.index.types.find? (boxOf (.basic "T")).baseName = some boxEntry := by with_unfolding_all rfl
  have hcallee : (⟨convEnv, boxInScope.typeParams⟩ : Inference).callee boxInScope.scope (piece convEnv convOfB).source =
      .method (boxOf .int) boxEntry "conv" ⟨[.func [.int] [.basic "U"]], .basic "U", ["U"], false⟩ := by
    with_unfolding_all rfl
  have hcall : lowerCall convEnv (piece convEnv convOfB) [] [⟨none, piece convEnv toText⟩] none .synthetic boxInScope =
      .ok (.call (.ident "Box_conv") [.int, .string] [.ident "b", loweredToText]) boxInScope := by
    with_unfolding_all rfl
  obtain ⟨f, hf, -, hfunction, htypes⟩ :=
    method_agrees ofProgram_converting ⟨_, .tail _ (.head _)⟩ rfl howner lowerFunc_convMethod hcallee hcall
  cases hf
  obtain ⟨hname, hreceiver, -⟩ := hfunction.mpr ⟨_, _, _, rfl⟩
  obtain ⟨hlength, -⟩ := htypes _ _ _ rfl (by simp) converting_pairsUp
  exact ⟨_, _, _, _, _, _, lowerFunc_convMethod, hcall, hname, hreceiver, hlength, rfl⟩

end Lower

end Lowering
