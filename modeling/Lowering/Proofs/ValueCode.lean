/-
  ValueCode — names, selections and calls, taken apart.

  What a name or a selection is lowered to follows from what it stands for, and what a call is lowered to from
  what it calls.
-/

import Lowering.Proofs.Success

namespace Lowering

open Target (Expr Stmt Element)

def Piece.Gives (p : Piece) (s : LowerState) (v : Expr) : Prop :=
  ∃ expected s1 s2, Framed s s1 ∧ p.value expected s1 = .ok v s2

variable {p : Piece} {v : Expr}

theorem Piece.Gives.of_framed {s s1 : LowerState} (h : p.Gives s1 v) (hs : Framed s s1) : p.Gives s v := by
  obtain ⟨expected, s2, s3, hframed, hv⟩ := h
  exact ⟨expected, s2, s3, hs.trans hframed, hv⟩

theorem Piece.Gives.intro {s s' : LowerState} {expected : Option Ty} (h : p.value expected s = .ok v s') :
    p.Gives s v := ⟨expected, s, s', Std.Refl.refl s, h⟩

abbrev LowerState.callee (s : LowerState) (env : Env) (e : Located Source.Expr) : Callee :=
  (⟨env, s.typeParams⟩ : Inference).callee s.scope e

/-! ## Names and selections -/

namespace Lower

variable {env : Env} {s s' : LowerState}

variable {package name : String} {scope : Scope} {target : Source.Expr} {v : Expr} {member : Located String}

theorem packageOf?_eq_some (h : packageOf? env scope target = some package) : target = .ident package := by
  unfold packageOf? at h
  split at h
  · split at h
    · cases h
      rfl
    · cases h
  · cases h

theorem packageOf?_isPackage (hpackage : packageOf? env scope target = some package) :
    env.isPackage package = true := by
  obtain rfl := packageOf?_eq_some hpackage
  simp only [packageOf?, Bool.and_eq_true] at hpackage
  split at hpackage
  · rename_i hfree
    exact hfree.2
  · cases hpackage

/-- What a name that is not bound is called as. -/
inductive NamedAs (env : Env) (name : String) : Callee → Prop
  | function {f : FunctionEntry} (hf : env.function? name = some f) : NamedAs env name (.function f)
  | companion {e : TypeEntry} (he : env.type? name = some e) : NamedAs env name (.companion e)
  | constructor {e : TypeEntry} (he : env.type? name = some e) : NamedAs env name (.constructor e)
  | conversion : NamedAs env name (.conversion (.basic name))
  | unknown : NamedAs env name .unknown

/-- What a member of a value is called as. -/
inductive MemberAs (env : Env) (ty : Ty) (member : String) : Callee → Prop
  | method {owner : TypeEntry} {m : Method} (hm : env.method? ty member = some (owner, m)) :
      MemberAs env ty member (.method ty owner member (m.subst (Env.receiverSubst owner ty)))
  | copy {owner : TypeEntry} : MemberAs env ty member (.copy ty owner)
  | field {field : Ty} : MemberAs env ty member (.value field)
  | unknown : MemberAs env ty member .unknown

/-- What an expression is called as. -/
inductive CalledAs (env : Env) : Source.Expr → Callee → Prop
  | value {e : Source.Expr} {ty : Ty} : CalledAs env e (.value ty)
  | name {x : String} {found : Callee} (h : NamedAs env x found) : CalledAs env (.ident x) found
  | qualified {x : String} {span : Span} {sel : Located String} {found : Callee}
      (h : NamedAs env (x ++ "." ++ sel.val) found) : CalledAs env (.select ⟨.ident x, span⟩ sel) found
  | member {object : Located Source.Expr} {ty : Ty} {sel : Located String} {found : Callee}
      (h : MemberAs env ty sel.val found) : CalledAs env (.select object sel) found

theorem namedAs : NamedAs env name (namedCallee env name) := by
  unfold namedCallee
  split
  · exact .function (by assumption)
  · split
    · split
      · exact .companion (by assumption)
      · exact .constructor (by assumption)
      · exact .unknown
    · split
      · exact .conversion
      · exact .unknown

theorem memberAs (ty : Ty) (member : String) : MemberAs env ty member (memberCallee env ty member) := by
  unfold memberCallee
  split
  · exact .method (by assumption)
  · split
    · exact .copy
    · unfold fieldCallee
      split
      · split
        · exact .field
        · exact .unknown
      · exact .unknown

theorem calledAs {callee : Source.Expr} {targetType ownType : Unit → Ty} {found : Callee}
    (h : calleeOf env scope callee targetType ownType = found) : CalledAs env callee found := by
  subst h
  unfold calleeOf
  split
  · split
    · exact .value
    · exact .name namedAs
  · rename_i target member
    split
    · rename_i package hpackage
      obtain ⟨target, span⟩ := target
      obtain rfl := packageOf?_eq_some hpackage
      exact .qualified namedAs
    · exact .member (memberAs _ _)
  · exact .value

/-- What a name is lowered to. -/
inductive NameCode (env : Env) (s : LowerState) (name : String) : Expr → Prop
  | bound {b : Binding} (hb : s.scope.find? name = some b) (hwrapper : b.ty.isWrapper = false) :
      NameCode env s name (.ident name)
  | wrapped {b : Binding} (hb : s.scope.find? name = some b) (hwrapper : b.ty.isWrapper = true) :
      NameCode env s name (Storage.read (.ident name))
  | function {f : FunctionEntry} (hfree : s.scope.find? name = none) (hf : env.function? name = some f) :
      NameCode env s name (.qualified (env.qualifier f.package) f.name)
  | companion {ty : Ty} (hfree : s.scope.find? name = none) (hcompanion : (bareCompanion? env name).isSome = true) :
      NameCode env s name (.method (.zero ty) "Apply" [])
  | builtin (hfree : s.scope.find? name = none) (hf : env.function? name = none) (hbuiltin : isBuiltin name = true) :
      NameCode env s name (.ident name)

theorem lowerIdent_code {expected : Option Ty} {span : Span} (h : lowerIdent env name expected span s = .ok v s') :
    NameCode env s name v := by
  obtain ⟨scope, s1, hscope, h⟩ := bind_ok h
  cases hscope
  cases hfind : s.scope.find? name with
  | some b =>
    rw [hfind] at h
    rw [(pure_ok h).1]
    split
    · rename_i hwrapper
      exact .wrapped hfind hwrapper
    · rename_i hwrapper
      exact .bound hfind (Bool.eq_false_iff.mpr hwrapper)
  | none =>
    rw [hfind] at h
    unfold lowerGlobalName at h
    cases hf : env.function? name with
    | some f =>
      rw [hf] at h
      obtain ⟨-, h⟩ := check_ok h
      obtain ⟨u, -, rfl⟩ := map_ok h
      exact .function hfind hf
    | none =>
      rw [hf] at h
      cases hc : bareCompanion? env name with
      | some found =>
        rw [hc] at h
        dsimp only at h
        unfold lowerCompanionName at h
        cases htypes : companionTypeArgs found.1 found.2 expected with
        | none =>
          rw [htypes] at h
          cases h
        | some types =>
          rw [htypes] at h
          obtain ⟨u, -, rfl⟩ := map_ok h
          exact .companion hfind (Option.isSome_of_eq_some hc)
      | none =>
        rw [hc] at h
        by_cases hbuiltin : isBuiltin name = true
        · rw [if_pos hbuiltin] at h
          rw [(pure_ok h).1]
          exact .builtin hfind hf hbuiltin
        · rw [if_neg hbuiltin] at h
          cases h

def isWrapped (env : Env) (ty : Ty) (member : String) : Bool := (env.field? ty member).any (·.wrapped)

theorem lowerMember_ok {receiver : Expr} {ty : Ty} (h : lowerMember env receiver ty member s = .ok v s') :
    v = if isWrapped env ty member.val then Storage.read (.selector receiver member.val)
      else .selector receiver member.val := by
  unfold lowerMember at h
  unfold isWrapped
  cases hinfo : env.field? ty member.val with
  | some info =>
    simp only [Storage.readField, hinfo] at h
    exact (pure_ok h).1
  | none =>
    have hread : Storage.readField env receiver ty member.val = none := by simp [Storage.readField, hinfo]
    rw [hread] at h
    dsimp only at h
    split at h
    · exact (pure_ok h).1
    · cases h

/-- What a selection is lowered to. -/
inductive SelectCode (env : Env) (s : LowerState) (target : Piece) (member : String) : Expr → Prop
  | package {package : String} (hpackage : packageOf? env s.scope target.source.val = some package) :
      SelectCode env s target member (.selector (.ident package) member)
  | field {receiver : Expr} (hpackage : packageOf? env s.scope target.source.val = none)
      (hreceiver : target.Gives s receiver) (hmember : isWrapped env (s.typeOf env target.source) member = false) :
      SelectCode env s target member (.selector receiver member)
  | wrapped {receiver : Expr} (hpackage : packageOf? env s.scope target.source.val = none)
      (hreceiver : target.Gives s receiver) (hmember : isWrapped env (s.typeOf env target.source) member = true) :
      SelectCode env s target member (Storage.read (.selector receiver member))

theorem lowerSelect_code {target : Piece} (h : lowerSelect env target member s = .ok v s') :
    SelectCode env s target member.val v := by
  obtain ⟨scope, s1, hscope, h⟩ := bind_ok h
  cases hscope
  cases hpackage : packageOf? env s.scope target.source.val with
  | some package =>
    rw [hpackage] at h
    rw [(pure_ok h).1]
    exact .package hpackage
  | none =>
    rw [hpackage] at h
    dsimp only at h
    rw [typeOf_bind_run] at h
    obtain ⟨-, h⟩ := check_ok h
    obtain ⟨receiver, s1, hreceiver, h⟩ := bind_ok h
    rw [lowerMember_ok h]
    split
    · rename_i hmember
      exact .wrapped hpackage (.intro hreceiver) hmember
    · rename_i hmember
      exact .field hpackage (.intro hreceiver) (Bool.eq_false_iff.mpr hmember)

end Lower

/-! ## Arguments -/

namespace Lower

variable {env : Env} {s s' : LowerState}

abbrev AllGive (args : List ArgPiece) (s : LowerState) (lowered : List Expr) : Prop :=
  List.Forall₂ (fun a v => a.value.Gives s v) args lowered

variable {args : List ArgPiece} {s1 s2 : LowerState} {span : Span} {values elems : List Piece} {position : Nat}
    {ty : Ty} {expected : Option Ty} {v : Expr} {overrides : List Storage.Override} {callee : Located Source.Expr}
    {typeParams : List String} {lowered : List Expr} {e owner : TypeEntry}

theorem lowerArgs_gives {params : List Ty} {typeArgs : Option (List Ty)}
    (hargs : TidyArgs args) (hlength : params.length = args.length) (hs : Framed s s1)
    (h : lowerArgs params typeParams typeArgs (args.map (·.value)) s1 = .ok lowered s2) : AllGive args s lowered := by
  unfold lowerArgs at h
  induction args generalizing params s1 s2 lowered with
  | nil =>
    rw [(pure_ok h).1]
    exact .nil
  | cons a args ih =>
    cases params with
    | nil => cases hlength
    | cons param params =>
      rw [List.map_cons, List.zip_cons_cons, List.mapM_cons] at h
      obtain ⟨v, s3, hv, h⟩ := bind_ok h
      obtain ⟨vs, hvs, rfl⟩ := map_ok h
      have hframed := hs.trans (((hargs a (.head _)).value _).ok hv)
      exact .cons ((Piece.Gives.intro hv).of_framed hs)
        (ih (fun b hb => hargs b (.tail _ hb)) (Nat.succ.inj hlength) hframed hvs)

theorem lowerArgs_after {callee : Generic} {typeArgs : Option (List Ty)} {α : Type}
    {act : Lower α} {a : α} (hargs : TidyArgs args) (hvalues : checkedArgs callee args span s = .ok values s1)
    (hact : Keeps Framed act) {s3 : LowerState} (ha : act s1 = .ok a s2)
    (h : lowerArgs callee.params typeParams typeArgs values s2 = .ok lowered s3) :
    AllGive args s lowered ∧ Framed s s3 := by
  have htidy := Composes.has_of_checkedArgs hargs hvalues
  obtain ⟨rfl, hlength, rfl⟩ := checkedArgs_ok hvalues
  have hframed := hact.ok ha
  exact ⟨lowerArgs_gives hargs hlength hframed h, hframed.trans ((framed.lowerArgs htidy).ok h)⟩

/-! ## Structs -/

theorem constructorElements_gives (hvalues : ∀ p ∈ values, p.Tidy) {elements : List Element}
    (hs : Framed s s1) (h : constructorElements env e ty span position values s1 = .ok elements s2) :
    ∀ p ∈ values, ∃ v, p.Gives s v := by
  induction values generalizing position s1 s2 elements with
  | nil => simp
  | cons value values ih =>
    obtain ⟨wrapperRead, s3, hread, h⟩ := bind_ok h
    obtain ⟨v, s4, hv, h⟩ := bind_ok h
    obtain ⟨element, s5, hstore, h⟩ := bind_ok h
    obtain ⟨rest, hrest, rfl⟩ := map_ok h
    obtain ⟨-, rfl⟩ := ofChecked_ok hstore
    have hframed := hs.trans ((framed.readsWrapperOf mentionsAny).ok hread)
    exact List.forall_mem_cons.mpr ⟨⟨v, (Piece.Gives.intro hv).of_framed hframed⟩,
      ih (fun p hp => hvalues p (.tail _ hp)) (hframed.trans (((hvalues value (.head _)).value _).ok hv)) hrest⟩

theorem constructorArgs_mem {fields : List String} {slots : List (Option Piece)}
    (hlength : fields.length = slots.length) (h : constructorArgs e span fields slots s = .ok values s') {p : Piece}
    (hp : some p ∈ slots) : p ∈ values := by
  fun_induction constructorArgs e span fields slots generalizing values s s' with
  | case1 field fields slots value ih =>
    obtain ⟨rest, hrest, rfl⟩ := map_ok h
    rcases List.mem_cons.mp hp with heq | hp
    · cases heq
      exact .head _
    · exact .tail _ (ih (Nat.succ.inj hlength) hrest hp)
  | case2 => cases h
  | case3 fields slots hshape =>
    cases slots with
    | nil => cases hp
    | cons slot slots =>
      cases fields with
      | nil => cases hlength
      | cons field fields => exact absurd rfl (hshape field fields slot slots rfl)

theorem construct_ok {typeArgs : List Ty} (hargs : TidyArgs args)
    (h : construct env e typeArgs args expected span s = .ok v s') :
    ∃ ty elements, v = .composite ty elements ∧ ∀ a ∈ args, ∃ v, a.value.Gives s v := by
  obtain ⟨slots, s1, harrange, hrest⟩ := bind_ok h
  obtain ⟨u, s2, harity, hrun⟩ := bind_ok hrest
  obtain ⟨hslots, rfl⟩ := ofChecked_ok harrange
  obtain ⟨hlength, rfl⟩ := checkArity_ok harity
  obtain ⟨values, s3, hvalues, hrun⟩ := bind_ok hrun
  obtain ⟨types, s4, htypes, hrun⟩ := bind_ok hrun
  obtain ⟨u', s5, hnote, hrun⟩ := bind_ok hrun
  obtain ⟨elements, s6, helements, hrun⟩ := bind_ok hrun
  have hframed1 := framed.constructorArgs.ok hvalues
  have hframed2 := (framed.knownTypeArgs fun _ _ => mentionsAny).ok htypes
  have hframed := hframed1.trans (hframed2.trans ((notePackage_framed _ _).ok hnote))
  have htidy : ∀ p ∈ values, p.Tidy := by
    intro p hp
    obtain ⟨name, hmem⟩ := (mem_arrange hslots).mp (mem_constructorArgs hvalues p hp)
    obtain ⟨a, ha, ⟨⟩⟩ := List.mem_map.mp hmem
    exact hargs a ha
  refine ⟨_, elements, (pure_ok hrun).1, fun a ha => ?_⟩
  have hslot : some a.value ∈ slots := (mem_arrange hslots).mpr ⟨a.name, List.mem_map.mpr ⟨a, ha, rfl⟩⟩
  exact constructorElements_gives htidy hframed helements _ (constructorArgs_mem hlength hvalues hslot)

theorem copyOverrides_gives {seen : List String} (hargs : TidyArgs args) (hs : Framed s s1)
    (h : copyOverrides env ty seen args s1 = .ok overrides s2) : AllGive args s (overrides.map (·.value)) := by
  induction args generalizing seen s1 s2 overrides with
  | nil =>
    rw [(pure_ok h).1]
    exact .nil
  | cons a args ih =>
    obtain ⟨name, value⟩ := a
    cases name with
    | none =>
      cases h
    | some name =>
      obtain ⟨-, h⟩ := check_ok h
      obtain ⟨field, s3, hfield, h⟩ := bind_ok h
      obtain ⟨wrapperRead, s4, hread, h⟩ := bind_ok h
      obtain ⟨v, s5, hv, h⟩ := bind_ok h
      obtain ⟨rest, hrest, rfl⟩ := map_ok h
      have hframed : Framed s s4 := hs.trans ((ofChecked_framed.ok hfield).trans
        ((framed.readsWrapperOf mentionsAny).ok hread))
      have hnext := hframed.trans (((hargs _ (.head _)).value _).ok hv)
      exact .cons ((Piece.Gives.intro hv).of_framed hframed) (ih (fun b hb => hargs b (.tail _ hb)) hnext hrest)

theorem copyStruct_composite {receiver copy : Expr}
    (h : Storage.copyStruct env owner receiver ty overrides span = .ok copy) :
    ∃ elements, copy = .composite ty elements := by
  obtain ⟨⟨elements, left⟩, -, h⟩ := checked_bind_ok h
  dsimp only at h
  split at h
  · cases h
    exact ⟨elements, rfl⟩
  · cases h

/-! ## Calls -/

/-- What a call in a state `s` is lowered to. -/
inductive CallCode (env : Env) (s s' : LowerState) (callee : Piece) (args : List ArgPiece) : Expr → Prop
  | function {f : FunctionEntry} {types lowered} (hcallee : s.callee env callee.source = .function f)
      (hargs : AllGive args s lowered) :
      CallCode env s s' callee args (.call (.qualified (env.qualifier f.package) f.name) types lowered)
  | struct {e : TypeEntry} {ty elements} (hcallee : s.callee env callee.source = .constructor e)
      (hargs : ∀ a ∈ args, ∃ v, a.value.Gives s v) : CallCode env s s' callee args (.composite ty elements)
  | companion {e : TypeEntry} {ty lowered} (hcallee : s.callee env callee.source = .companion e)
      (hargs : AllGive args s lowered) : CallCode env s s' callee args (.method (.zero ty) "Apply" lowered)
  | method {ty : Ty} {owner name m receiver lowered} (hcallee : s.callee env callee.source = .method ty owner name m)
      (hreceiver : (receiverOf callee).Gives s receiver) (hargs : AllGive args s lowered) :
      CallCode env s s' callee args (.method receiver name lowered)
  | extracted {ty : Ty} {owner : TypeEntry} {name m types receiver lowered}
      (hcallee : s.callee env callee.source = .method ty owner name m)
      (hform : (owner.method? name).any (MethodForm.mustExtract owner) = true)
      (hreceiver : (receiverOf callee).Gives s receiver) (hargs : AllGive args s lowered) :
      CallCode env s s' callee args
        (.call (.qualified (env.qualifier owner.package) (methodFunction owner.name name)) types (receiver :: lowered))
  | copy {ty : Ty} {owner} {receiver : Expr} {overrides : List Storage.Override} {span elements}
      (hcallee : s.callee env callee.source = .copy ty owner)
      (hreceiver : (receiverOf callee).Gives s receiver) (hpure : receiver.isPureRead = true)
      (hargs : AllGive args s (overrides.map (·.value)))
      (hcopied : Storage.copyStruct env owner receiver ty overrides span = .ok (.composite ty elements)) :
      CallCode env s s' callee args (.composite ty elements)
  | copyOnce {ty : Ty} {owner} {receiver : Expr} {tmp : String} {overrides : List Storage.Override} {span elements}
      (hcallee : s.callee env callee.source = .copy ty owner)
      (hreceiver : (receiverOf callee).Gives s receiver) (hpure : receiver.isPureRead = false)
      (htmp : s.names.Taken s'.names tmp) (hargs : AllGive args s (overrides.map (·.value)))
      (hcopied : Storage.copyStruct env owner (.ident tmp) ty overrides span = .ok (.composite ty elements)) :
      CallCode env s s' callee args (.invoked [ty] [.define1 tmp receiver, .ret1 (.composite ty elements)])
  | conversion {ty : Ty} {a : ArgPiece} {v} (hcallee : s.callee env callee.source = .conversion ty)
      (hargs : args = [a]) (hv : a.value.Gives s v) : CallCode env s s' callee args (.apply (.type ty) [v])
  | builtin {name : String} {lowered} (hname : callee.source.val = .ident name)
      (hbuiltin : isBuiltin name = true) (hargs : AllGive args s lowered) :
      CallCode env s s' callee args (.apply (.ident name) lowered)
  | value {function : Expr} {lowered} (hfunction : callee.Gives s function)
      (hargs : AllGive args s lowered) : CallCode env s s' callee args (.apply function lowered)

section

variable {callee : Piece} {args : List ArgPiece} {typeArgs : List Ty} {expected : Option Ty} {span : Span} {v : Expr}
    {owner : TypeEntry}

theorem callFunction_code (hargs : TidyArgs args) {f : FunctionEntry}
    (hcallee : s.callee env callee.source = .function f)
    (h : callFunction env f typeArgs args expected span s = .ok v s') : CallCode env s s' callee args v := by
  obtain ⟨values, s1, hvalues, h⟩ := bind_ok h
  obtain ⟨types, s2, htypes, h⟩ := bind_ok h
  obtain ⟨lowered, s3, hlowered, h⟩ := bind_ok h
  obtain ⟨u, -, rfl⟩ := map_ok h
  exact .function hcallee
    (lowerArgs_after hargs hvalues (framed.calleeTypeArgs fun _ _ => mentionsAny) htypes hlowered).1

theorem callCompanion_code (hargs : TidyArgs args) {e : TypeEntry} (hcallee : s.callee env callee.source = .companion e)
    (h : callCompanion env e typeArgs args expected span s = .ok v s') : CallCode env s s' callee args v := by
  unfold callCompanion at h
  cases happly : e.method? "Apply" with
  | none =>
    rw [happly] at h
    cases h
  | some apply =>
    rw [happly] at h
    obtain ⟨values, s1, hvalues, h⟩ := bind_ok h
    obtain ⟨types, s2, htypes, h⟩ := bind_ok h
    obtain ⟨lowered, s3, hlowered, h⟩ := bind_ok h
    obtain ⟨u, -, rfl⟩ := map_ok h
    exact .companion hcallee
      (lowerArgs_after hargs hvalues (framed.knownTypeArgs fun _ _ => mentionsAny) htypes hlowered).1

variable {ty : Ty}

theorem callMethod_code (hargs : TidyArgs args) {name : String} {m : Method}
    (hcallee : s.callee env callee.source = .method ty owner name m)
    (h : callMethod env (receiverOf callee) ty owner name m typeArgs args expected span s = .ok v s') :
    CallCode env s s' callee args v := by
  obtain ⟨values, s1, hvalues, h⟩ := bind_ok h
  obtain ⟨own, s2, hown, h⟩ := bind_ok h
  obtain ⟨lowered, s3, hlowered, h⟩ := bind_ok h
  obtain ⟨receiver, s4, hreceiver, h⟩ := bind_ok h
  obtain ⟨hgives, hframed⟩ :=
    lowerArgs_after hargs hvalues (framed.calleeTypeArgs fun _ _ => mentionsAny) hown hlowered
  have hr := (Piece.Gives.intro hreceiver).of_framed hframed
  cases hm : owner.method? name with
  | none =>
    simp only [hm, Option.map_none] at h
    rw [(pure_ok h).1]
    exact .method hcallee hr hgives
  | some found =>
    simp only [hm, Option.map_some, MethodForm.of] at h
    by_cases hmust : MethodForm.mustExtract owner found = true
    · rw [if_pos hmust] at h
      obtain ⟨u, -, rfl⟩ := map_ok h
      exact .extracted hcallee (by rw [hm]; exact hmust) hr hgives
    · rw [if_neg hmust] at h
      rw [(pure_ok h).1]
      exact .method hcallee hr hgives

theorem callCopy_code (hcallee : callee.Tidy) (hargs : TidyArgs args)
    (hcopy : s.callee env callee.source = .copy ty owner)
    (h : callCopy env (receiverOf callee) ty owner args span s = .ok v s') : CallCode env s s' callee args v := by
  obtain ⟨overrides, s1, hoverrides, h⟩ := bind_ok h
  obtain ⟨receiver, s2, hreceiver, h⟩ := bind_ok h
  have hframed := (framed.copyOverrides hargs).ok hoverrides
  have hgives := copyOverrides_gives hargs (Std.Refl.refl s) hoverrides
  have hr := (Piece.Gives.intro hreceiver).of_framed hframed
  by_cases hpure : receiver.isPureRead = true
  · rw [if_pos hpure] at h
    have hcopied := (ofChecked_ok h).1
    obtain ⟨elements, rfl⟩ := copyStruct_composite hcopied
    exact .copy hcopy hr hpure hgives hcopied
  · rw [if_neg hpure] at h
    obtain ⟨tmp, s3, hfresh, h⟩ := bind_ok h
    obtain ⟨copy, hstruct, rfl⟩ := map_ok h
    obtain ⟨hcopied, rfl⟩ := ofChecked_ok hstruct
    obtain ⟨elements, rfl⟩ := copyStruct_composite hcopied
    have hgrows := (hframed.trans (((Composes.receiverOf hcallee).value none).ok hreceiver)).names
    cases hfresh
    exact .copyOnce hcopy hr (by simpa using hpure)
      ⟨s2.names.next, hgrows.next, Nat.lt_succ_self _, by rw [← hgrows.stem]; rfl⟩ hgives hcopied

theorem callConversion_code (hargs : TidyArgs args) (hcallee : s.callee env callee.source = .conversion ty)
    (h : callConversion ty args span s = .ok v s') : CallCode env s s' callee args v := by
  obtain ⟨values, s1, hvalues, hrun⟩ := bind_ok h
  obtain ⟨rfl, rfl⟩ := positional_ok hvalues
  cases args with
  | nil => cases hrun
  | cons a rest =>
    cases rest with
    | nil =>
      obtain ⟨w, hw, rfl⟩ := map_ok hrun
      exact .conversion hcallee rfl (.intro hw)
    | cons _ _ => cases hrun

theorem callValue_code (hcallee : callee.Tidy) (hargs : TidyArgs args) {params : List Ty}
    (h : callValue callee params args span s = .ok v s') : CallCode env s s' callee args v := by
  obtain ⟨values, s1, hvalues, h⟩ := bind_ok h
  obtain ⟨function, s2, hfunction, h⟩ := bind_ok h
  obtain ⟨lowered, hlowered, rfl⟩ := map_ok h
  have hgives := (lowerArgs_after hargs hvalues (hcallee.value none) hfunction hlowered).1
  obtain ⟨-, -, rfl⟩ := checkedArgs_ok hvalues
  exact .value (.intro hfunction) hgives

theorem mapM_gives (hargs : TidyArgs args) {s1 s2 : LowerState} {lowered : List Expr} (hs : Framed s s1)
    (h : (args.map (·.value)).mapM (·.value none) s1 = .ok lowered s2) : AllGive args s lowered := by
  induction args generalizing s1 s2 lowered with
  | nil =>
    rw [(pure_ok h).1]
    exact .nil
  | cons a args ih =>
    rw [List.map_cons, List.mapM_cons] at h
    obtain ⟨v, s3, hv, h⟩ := bind_ok h
    obtain ⟨vs, hvs, rfl⟩ := map_ok h
    exact .cons ((Piece.Gives.intro hv).of_framed hs) (ih (fun b hb => hargs b (.tail _ hb))
      (hs.trans (((hargs a (.head _)).value _).ok hv)) hvs)

theorem callUntyped_code (hcallee : callee.Tidy) (hargs : TidyArgs args) (h : callUntyped callee args s = .ok v s') :
    CallCode env s s' callee args v := by
  have hrest : ∀ {function : Expr} {s1 : LowerState}, Framed s s1 → (do
      let values ← positional "call" args
      let lowered ← values.mapM (·.value none)
      pure (Expr.apply function lowered) : Lower Expr) s1 = .ok v s' →
      ∃ lowered, v = .apply function lowered ∧ AllGive args s lowered := by
    intro function s1 hs hrun
    obtain ⟨values, s2, hvalues, hrest⟩ := bind_ok hrun
    obtain ⟨lowered, hlowered, rfl⟩ := map_ok hrest
    obtain ⟨rfl, rfl⟩ := positional_ok hvalues
    exact ⟨lowered, rfl, mapM_gives hargs hs hlowered⟩
  have hvalue : (do
      let function ← callee.value none
      let values ← positional "call" args
      let lowered ← values.mapM (·.value none)
      pure (Expr.apply function lowered) : Lower Expr) s = .ok v s' → CallCode env s s' callee args v := by
    intro hrun
    obtain ⟨function, s1, hfunction, hrun⟩ := bind_ok hrun
    obtain ⟨lowered, rfl, hgives⟩ := hrest ((hcallee.value none).ok hfunction) hrun
    exact .value (.intro hfunction) hgives
  unfold callUntyped at h
  cases hname : callee.source.val with
  | ident name =>
    simp only [hname] at h
    by_cases hbuiltin : isBuiltin name = true
    · rw [if_pos hbuiltin] at h
      obtain ⟨lowered, rfl, hgives⟩ := hrest (Std.Refl.refl s) h
      exact .builtin hname hbuiltin hgives
    · rw [if_neg hbuiltin] at h
      exact hvalue h
  | _ =>
    simp only [hname] at h
    exact hvalue h

theorem lowerCall_code (hcallee : callee.Tidy) (hargs : TidyArgs args)
    (h : lowerCall env callee typeArgs args expected span s = .ok v s') : CallCode env s s' callee args v := by
  obtain ⟨called, s1, hask, h⟩ := bind_ok h
  rw [askCalleeOf_run] at hask
  generalize hcalled : (⟨env, s.typeParams⟩ : Inference).callee s.scope callee.source = asked at hask
  cases hask
  cases called with
  | function f => exact callFunction_code hargs hcalled h
  | constructor e =>
    obtain ⟨ty, elements, rfl, hgives⟩ := construct_ok hargs h
    exact .struct hcalled hgives
  | companion e => exact callCompanion_code hargs hcalled h
  | method ty owner name m => exact callMethod_code hargs hcalled h
  | copy ty owner => exact callCopy_code hcallee hargs hcalled h
  | conversion ty => exact callConversion_code hargs hcalled h
  | unknown => exact callUntyped_code hcallee hargs h
  | value ty =>
    cases ty with
    | func params results => exact callValue_code hcallee hargs h
    | nil => exact callUntyped_code hcallee hargs h
    | _ => cases h

end

theorem exists_function {f : FunctionEntry} (hcallee : s.callee env callee = .function f) :
    ∃ name, env.function? name = some f := by
  obtain ⟨e, span⟩ := callee
  cases calledAs hcallee with
  | name hnamed | qualified hnamed =>
    cases hnamed with
    | function hf => exact ⟨_, hf⟩
  | member hmember => cases hmember

theorem exists_method {name : String} {m : Method}
    (hcallee : s.callee env callee = .method ty owner name m) :
    ∃ m', env.method? ty name = some (owner, m') := by
  obtain ⟨e, span⟩ := callee
  cases calledAs hcallee with
  | name hnamed | qualified hnamed => cases hnamed
  | member hmember =>
    cases hmember with
    | method hm => exact ⟨_, hm⟩

theorem exists_select (hcallee : s.callee env callee = .copy ty owner) :
    ∃ target member span, callee = ⟨.select target member, span⟩ := by
  obtain ⟨e, span⟩ := callee
  cases calledAs hcallee with
  | name hnamed | qualified hnamed => cases hnamed
  | member hmember => exact ⟨_, _, span, rfl⟩

/-! ## Tuples -/

theorem tupleElements_gives {hints : List Ty} (helems : ∀ p ∈ elems, p.Tidy) {elements : List (Ty × Element)}
    (hs : Framed s s1) (h : tupleElements env hints position elems s1 = .ok elements s2) :
    List.Forall₂ (fun p el => p.Gives s el.value) elems (elements.map (·.2)) := by
  induction elems generalizing position s1 s2 elements with
  | nil =>
    rw [(pure_ok h).1]
    exact .nil
  | cons elem elems ih =>
    obtain ⟨ty, s3, hty, h⟩ := bind_ok h
    obtain ⟨v, s4, hv, h⟩ := bind_ok h
    obtain ⟨rest, hrest, rfl⟩ := map_ok h
    have hframed := hs.trans ((framed.elementType mentionsAny).ok hty)
    exact .cons ((Piece.Gives.intro hv).of_framed hframed) (ih (fun p hp => helems p (.tail _ hp))
      (hframed.trans (((helems elem (.head _)).value _).ok hv)) hrest)

theorem lowerTuple_ok (helems : ∀ p ∈ elems, p.Tidy) (h : lowerTuple env elems expected span s = .ok v s') :
    ∃ ty elements, v = .composite ty elements ∧ List.Forall₂ (fun p el => p.Gives s el.value) elems elements := by
  obtain ⟨-, h⟩ := check_ok h
  obtain ⟨elements, s1, helements, h⟩ := bind_ok h
  exact ⟨_, _, (pure_ok h).1, tupleElements_gives helems (Std.Refl.refl s) helements⟩

/-! ## Values -/

end Lower

def Source.Expr.parts : Source.Expr → List (Located Source.Expr)
  | .select target _ => [target]
  | .index target i => [target, i]
  | _ => []

/-- What a value that is no function is made of. -/
def Source.Expr.operands : Source.Expr → List (Located Source.Expr)
  | .call callee _ args => callee :: callee.val.parts ++ args.map (·.value)
  | .select target _ => [target]
  | .index target i => [target, i]
  | .binary left _ right => [left, right]
  | .unary _ operand => [operand]
  | .tuple elems => elems
  | _ => []

namespace Lower

variable {env : Env} {s s' : LowerState}

theorem piece_parts (env : Env) (e : Located Source.Expr) : (piece env e).parts = e.val.parts.map (piece env) := by
  obtain ⟨e, span⟩ := e
  cases e with
  | ifElse cond thenBranch elseBranch => cases elseBranch <;> simp only [piece] <;> rfl
  | _ =>
    rfl

theorem exprPieces_eq (es : List (Located Source.Expr)) : exprPieces env es = es.map (piece env) := by
  induction es with
  | nil => rfl
  | cons e es ih => rw [exprPieces, ih, List.map_cons]

theorem argPieces_eq (args : List Source.Arg) : argPieces env args = args.map fun a => ⟨a.name, piece env a.value⟩ := by
  induction args with
  | nil => rfl
  | cons a args ih =>
    obtain ⟨name, value⟩ := a
    rw [argPieces, ih, List.map_cons]

/-- What a value that is no function is lowered to. -/
inductive ValueCode (env : Env) (s s' : LowerState) : Source.Expr → Expr → Prop
  | lit (value : Literal) : ValueCode env s s' (.lit value) (.lit value)
  | nil : ValueCode env s s' .nil .nil
  | name {name : String} {v : Expr} (h : NameCode env s name v) : ValueCode env s s' (.ident name) v
  | call {callee : Located Source.Expr} {typeArgs : List Ty} {args : List Source.Arg} {v : Expr}
      (h : CallCode env s s' (piece env callee) (argPieces env args) v) :
      ValueCode env s s' (.call callee typeArgs args) v
  | select {target : Located Source.Expr} {member : Located String} {v : Expr}
      (h : SelectCode env s (piece env target) member.val v) : ValueCode env s s' (.select target member) v
  | index {target index : Located Source.Expr} {x i v : Expr} (hx : (piece env target).Gives s x)
      (hi : (piece env index).Gives s i) (hv : v = .method x "Get" [i] ∨ v = .index x i) :
      ValueCode env s s' (.index target index) v
  | binary {left right : Located Source.Expr} {op : BinaryOp} {l r : Expr} (hl : (piece env left).Gives s l)
      (hr : (piece env right).Gives s r) : ValueCode env s s' (.binary left op right) (.binary op l r)
  | unary {operand : Located Source.Expr} {op : UnaryOp} {x : Expr} (hx : (piece env operand).Gives s x) :
      ValueCode env s s' (.unary op operand) (.unary op x)
  | tuple {elems : List (Located Source.Expr)} {ty : Ty} {elements : List Element}
      (h : List.Forall₂ (fun e el => (piece env e).Gives s el.value) elems elements) :
      ValueCode env s s' (.tuple elems) (.composite ty elements)

variable {v : Expr} {span : Span} {ty : Ty}

theorem lowerIndex_code {target index : Located Source.Expr}
    (h : lowerIndex env (piece env target) (piece env index) s = .ok v s') :
    ValueCode env s s' (.index target index) v := by
  obtain ⟨ty, s1, hty, hrun⟩ := bind_ok h
  obtain rfl := (typeOf_ok hty).2
  obtain ⟨x, s2, hx, hrun⟩ := bind_ok hrun
  obtain ⟨i, hi, rfl⟩ := map_ok hrun
  refine .index (.intro hx) ((Piece.Gives.intro hi).of_framed (((piece_tidy env target).value none).ok hx)) ?_
  split
  · exact .inl rfl
  · exact .inr rfl

theorem lowerBinary_code {left right : Located Source.Expr} {op : BinaryOp}
    (h : lowerBinary (piece env left) op (piece env right) s = .ok v s') :
    ValueCode env s s' (.binary left op right) v := by
  obtain ⟨l, s1, hl, h⟩ := bind_ok h
  obtain ⟨r, hr, rfl⟩ := map_ok h
  exact .binary (.intro hl) ((Piece.Gives.intro hr).of_framed (((piece_tidy env left).value none).ok hl))

theorem lowerUnary_code {operand : Located Source.Expr} {op : UnaryOp}
    (h : lowerUnary op (piece env operand) s = .ok v s') : ValueCode env s s' (.unary op operand) v := by
  obtain ⟨x, hx, rfl⟩ := map_ok h
  exact .unary (.intro hx)

theorem lowerTuple_code {elems : List (Located Source.Expr)} {expected : Option Ty}
    (h : lowerTuple env (exprPieces env elems) expected span s = .ok v s') : ValueCode env s s' (.tuple elems) v := by
  obtain ⟨ty, elements, rfl, hgives⟩ := lowerTuple_ok exprPieces_tidy h
  rw [exprPieces_eq, List.forall₂_map_left_iff] at hgives
  exact .tuple hgives

/-! ## Statements -/

/-- What a binding is lowered to. -/
inductive LocalCode (env : Env) (s : LowerState) (decl : Source.ValDecl) (value : Piece) : List Stmt → Prop
  | var {ty : Ty} {v : Expr} (hv : value.Gives s v) : LocalCode env s decl value [.var decl.name.val ty (some v)]
  | val {v stored : Expr} (hv : value.Gives s v) : LocalCode env s decl value [.define1 decl.name.val stored]

theorem lowerLocal_code {decl : Source.ValDecl} {value : Piece} {stmts : List Stmt}
    (h : lowerLocal env decl value s = .ok stmts s') : LocalCode env s decl value stmts := by
  obtain ⟨ty, s1, hty, hrun⟩ := bind_ok h
  obtain rfl := (bindingType_known hty).1
  obtain ⟨v, s2, hv, h⟩ := bind_ok hrun
  split at h
  · obtain ⟨u, -, rfl⟩ := map_ok h
    exact .var (.intro hv)
  · obtain ⟨stored, s3, -, h⟩ := bind_ok h
    obtain ⟨wrapper, s4, -, h⟩ := bind_ok h
    obtain ⟨u, -, rfl⟩ := map_ok h
    exact .val (.intro hv)

theorem checkAssignBinding_ok {scope : Scope} {name : String} {span : Span}
    (h : Storage.checkAssignBinding scope name span = .ok ()) : ∃ b, scope.find? name = some b ∧ b.mutability = .var := by
  simp only [Storage.checkAssignBinding, Scope.mutabilityOf?] at h
  cases hfind : scope.find? name with
  | none => simp [hfind, Fault.raise] at h
  | some b =>
    cases hmutability : b.mutability with
    | var => exact ⟨b, rfl, hmutability⟩
    | val => simp [hfind, hmutability, Fault.raise] at h

/-- How the target of an assignment is lowered. -/
inductive TargetRun (env : Env) (target : Piece) (s : LowerState) : Expr → Ty → LowerState → Prop
  | name {name : String} (hsource : target.source.val = .ident name)
      (hchecked : Storage.checkAssignBinding s.scope name target.source.span = .ok ()) :
      TargetRun env target s (.ident name) (s.scope.typeOf name) s
  | field {t : Located Source.Expr} {member : Located String} {receiver : Piece} {v : Expr} {s' : LowerState}
      (hsource : target.source.val = .select t member) (hparts : target.parts = [receiver])
      (hchecked : Storage.checkAssignField env (s.typeOf env receiver.source) member.val member.span = .ok ())
      (hv : receiver.value none s = .ok v s') : TargetRun env target s (.selector v member.val)
        (((env.field? (s.typeOf env receiver.source) member.val).map (·.ty)).getD .nil) s'
  | element {t i : Located Source.Expr} {sequence index : Piece} {x y : Expr} {elem : Ty} {s1 s' : LowerState}
      (hsource : target.source.val = .index t i) (hparts : target.parts = [sequence, index])
      (hty : s.typeOf env sequence.source = .array elem ∨ ∃ key, s.typeOf env sequence.source = .map key elem)
      (hx : sequence.value none s = .ok x s1) (hy : index.value none s1 = .ok y s') :
      TargetRun env target s (.index x y) elem s'

theorem assignTarget_run {target : Piece} {place : Expr} (h : assignTarget env target span s = .ok (place, ty) s') :
    TargetRun env target s place ty s' := by
  generalize hact : assignTarget env target span = act at h
  unfold assignTarget at hact
  split at hact <;> subst hact
  · rename_i name hsource
    obtain ⟨scope, s1, hscope, h⟩ := bind_ok h
    cases hscope
    obtain ⟨u, s2, hchecked, h⟩ := bind_ok h
    obtain ⟨hchecked, rfl⟩ := ofChecked_ok hchecked
    cases h
    exact .name hsource hchecked
  · rename_i hsource hparts
    rw [typeOf_bind_run] at h
    obtain ⟨u, s1, hchecked, h⟩ := bind_ok h
    obtain ⟨hchecked, rfl⟩ := ofChecked_ok hchecked
    obtain ⟨v, s2, hv, h⟩ := bind_ok h
    cases h
    exact .field hsource hparts hchecked hv
  · rename_i sequence index hsource hparts
    rw [typeOf_bind_run] at h
    cases hty : s.typeOf env sequence.source with
    | array elem =>
      rw [hty] at h
      obtain ⟨x, s1, hx, h⟩ := bind_ok h
      obtain ⟨y, s2, hy, h⟩ := bind_ok h
      cases h
      exact .element hsource hparts (.inl hty) hx hy
    | map key elem =>
      rw [hty] at h
      obtain ⟨x, s1, hx, h⟩ := bind_ok h
      obtain ⟨y, s2, hy, h⟩ := bind_ok h
      cases h
      exact .element hsource hparts (.inr ⟨key, hty⟩) hx hy
    | _ =>
      rw [hty] at h
      cases h
  · cases h

/-! ## Functions -/

end Lower

def Position.ofResult (result : Ty) : Position := if result.isVoid then .effect else .tail result

namespace Lower

variable {env : Env} {s s' : LowerState}

/-- The state in which the clauses of a case function are lowered. -/
def caseState (s : LowerState) (param result : Ty) : LowerState :=
  { s with
    scope := s.scope.enter.bind s.names.fresh.1 .val param
    names := s.names.fresh.2
    functions := ⟨result, false⟩ :: s.functions }

theorem lowerCaseFunction_ok {clauses : List ClausePiece} {expected : Option Ty} {span : Span} {v : Expr}
    (h : lowerCaseFunction env clauses expected span s = .ok v s') : ∃ param results body s1,
      expected = some (.func [param] results) ∧
      lowerMatch env (identPiece env s.names.fresh.1 span) clauses (.ofResult (results.headD .void)) span
        (caseState s param (results.headD .void)) = .ok body s1 ∧
      v = .funcLit [⟨s.names.fresh.1, param⟩] results body := by
  unfold lowerCaseFunction at h
  split at h
  · rename_i param results
    obtain ⟨arg, s1, hfresh, hrun⟩ := bind_ok h
    cases hfresh
    obtain ⟨body, s2, hscope, hv⟩ := bind_ok hrun
    obtain ⟨s3, hbind⟩ := withScope_ok hscope
    obtain ⟨u, s4, hbound, hfunction⟩ := bind_ok hbind
    cases hbound
    obtain ⟨s5, hmatch⟩ := withFunction_ok hfunction
    exact ⟨param, results, body, s5, rfl, hmatch, (pure_ok hv).1⟩
  · cases h
  · cases h

end Lower

end Lowering
