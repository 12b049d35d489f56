/-
  Globals — the type under which a binding of the package is seen and the type it is declared with.

  Bindings of the package are bound first, in order, and lowered when all of them are bound; a type that is not
  written down is found both times. One that mentions a later binding can be seen under another type.
-/

import Lowering.Proofs.FirstMatch
import Lowering.Proofs.Lowered
import Lowering.Proofs.Spelling

namespace Lowering

/-! ## Scopes that agree -/

theorem Text.spell_id {word text : List Char} : spell (fun w => w) word text = word ++ text := by
  induction text generalizing word with
  | nil => simp [spell]
  | cons c text ih =>
    simp only [spell, ih]
    split <;> simp

/-- No word is exchanged. -/
def Renaming.identity : Renaming where
  word w := w
  word_nil := rfl
  involutive _ := rfl
  unseparated _ h := h
  reserved name _ := Text.spell_id

namespace Renaming

@[simp] theorem name_identity {text : String} : identity.name text = text := by
  rw [← String.toList_inj, toList_name]
  exact Text.spell_id

@[simp] theorem rename_identity (t : Ty) : t.rename identity = t := by
  refine ((Ty.keepsShape_rename identity).eq .id).all (fun l hl => ?_) t
  cases l with
  | basic | named => simp only [Ty.rename, name_identity]
  | any | nil | void => rfl
  | _ => cases hl

theorem map_rename_identity (ts : List Ty) : ts.map (Ty.rename identity) = ts :=
  (List.map_congr_left fun t _ => rename_identity t).trans (List.map_id' ts)

theorem map_name_identity (names : List String) : names.map identity.name = names :=
  (List.map_congr_left fun x _ => name_identity).trans (List.map_id' names)

theorem method_identity (m : Method) : m.rename identity = m := by
  rw [Method.rename, map_rename_identity, rename_identity, map_name_identity]

theorem functionEntry_identity (f : FunctionEntry) : f.rename identity = f := by
  rw [FunctionEntry.rename, map_rename_identity, rename_identity, map_name_identity]

theorem typeEntry_identity (e : TypeEntry) : e.rename identity = e := by
  have hmethods : e.methods.map (Method.rename identity) = e.methods := by
    rw [show Method.rename identity = id from funext method_identity]
    unfold Table.map
    simp
  rw [TypeEntry.rename, map_rename_identity, map_name_identity, hmethods]

theorem respelled_identity (env : Env) : env.Respelled identity env where
  settings := rfl
  imports := rfl
  types name := by cases env.type? name <;> simp [typeEntry_identity]
  functions name := by cases env.function? name <;> simp [functionEntry_identity]
  companions _ := rfl
  aliases := rfl
  runtime_stays := name_identity
  type_stays _ _ _ := ⟨name_identity, rename_identity _⟩
  target_stays _ _ _ := name_identity
  alias_stays _ _ _ := ⟨name_identity, map_name_identity _, rename_identity _⟩

end Renaming

variable {e : Located Source.Expr} {scope scope' : Scope}

/-- The type of an expression depends on the scope only in what the scope shows of the names that the
    expression mentions. -/
theorem Inference.typeOf_seen (inf : Inference) (h : ∀ x, e.val.references x = true → scope'.seen? x = scope.seen? x) :
    inf.typeOf scope' e = inf.typeOf scope e := by
  have hshows : ∀ x, e.val.references x = true → scope.Shows .identity scope' x := by
    intro x hx
    unfold Scope.Shows
    rw [h x hx]
    cases scope.seen? x <;> simp
  have hitems : Renaming.identity.stays.Permits e.val.items := by
    intro i _
    cases i with
    | ty t => exact Renaming.rename_identity t
    | _ => trivial
  have htype := Env.Respelled.typeOf inf.typeParams e ⟨Renaming.respelled_identity inf.env, hshows, hitems⟩
  rwa [Renaming.rename_identity, renamed, Renaming.map_name_identity] at htype

theorem Inference.typeOf_congr (inf : Inference) (h : ∀ x, e.val.references x = true → scope'.find? x = scope.find? x) :
    inf.typeOf scope' e = inf.typeOf scope e :=
  inf.typeOf_seen fun x hx => by rw [Scope.seen?, Scope.seen?, h x hx]

namespace Scope

theorem seen?_bind (y : String) (m : Mutability) (ty : Ty) :
    (scope.bind y m ty).seen? x = if x = y then some (ty.isNil, ty.unwrap) else scope.seen? x := by
  unfold seen?
  rw [find?_bind]
  split <;> rfl

theorem seen?_enter : scope.enter.seen? x = scope.seen? x := by
  rw [seen?, find?_enter, seen?]

def SeenAlike (names : String → Prop) (s s' : Scope) : Prop := ∀ x, names x → s'.seen? x = s.seen? x

variable {names : String → Prop} {s s' : Scope}

theorem Agree.seenAlike (h : s.Agree names s') : s.SeenAlike names s' := by
  intro x hx
  rw [seen?, seen?, h x hx]

namespace SeenAlike

theorem enter (h : s.SeenAlike names s') : s.enter.SeenAlike names s'.enter := by
  intro x hx
  rw [seen?_enter, seen?_enter, h x hx]

theorem bindAll (h : s.SeenAlike names s') (bindings : List (String × Ty)) :
    (s.bindAll bindings).SeenAlike names (s'.bindAll bindings) :=
  List.foldl_rel h fun b _ s s' hs x hx => by rw [seen?_bind, seen?_bind, hs x hx]

end SeenAlike

end Scope

namespace Inference

variable (inf : Inference) {names : String → Prop} {scope scope' : Scope} (h : scope.SeenAlike names scope')
include h

variable {e : Located Source.Expr}

theorem typeOf_alike (he : e.val.MentionsOnly names) :
    inf.typeOf scope' e = inf.typeOf scope e := inf.typeOf_seen fun x hx => h x (he x hx)

theorem callee_alike (he : e.val.MentionsOnly names) :
    inf.callee scope' e = inf.callee scope e := by
  have hcontains : ∀ name, names name → scope'.contains name = scope.contains name := by
    intro name hname
    rw [Scope.contains_eq, Scope.contains_eq, h name hname]
  obtain ⟨e, span⟩ := e
  unfold callee calleeOf
  cases e with
  | ident name =>
    have hname : names name := he name (by simp [Source.Expr.references])
    dsimp only
    rw [hcontains name hname, Scope.unwrap_typeOf, Scope.unwrap_typeOf, h name hname]
  | select target member =>
    have htarget : target.val.MentionsOnly names := fun x hx => he x (by simpa [Source.Expr.references] using hx)
    have hpackage : packageOf? inf.env scope' target.val = packageOf? inf.env scope target.val := by
      cases hval : target.val with
      | ident name => simp only [packageOf?, hcontains name (htarget name (by simp [hval, Source.Expr.references]))]
      | _ => rfl
    simp only [hpackage, targetTypeOf, inf.typeOf_alike h htarget]
  | _ => dsimp only; rw [inf.typeOf_alike h he]

theorem argTypingOf_alike (he : e.val.MentionsOnly names) :
    inf.argTypingOf scope' e = inf.argTypingOf scope e := by
  obtain ⟨e, span⟩ := e
  unfold argTypingOf argTyping
  cases e with
  | lambda params body =>
    have hbody : body.val.MentionsOnly names := fun x hx => he x (by simpa [Source.Expr.references] using hx)
    simp only [lambdaTypeOf, lambdaOf, inf.typeOf_alike (h.enter.bindAll _) hbody]
  | caseFunction clauses => rfl
  | _ => dsimp only; rw [inf.typeOf_alike h he]

theorem clauseType_alike {c : Source.Clause} (hc : c.MentionsOnly names) :
    inf.clauseType scope' subject c = inf.clauseType scope subject c := by
  obtain ⟨pattern, guard, body⟩ := c
  have hbody : body.val.MentionsOnly names := by
    intro x hx
    cases guard <;> exact hc x (by simp [Source.Clause.references, hx])
  simp only [clauseType, clauseScope, inf.typeOf_alike (h.enter.bindAll _) hbody]

theorem clauseTypes_alike {clauses : List Source.Clause} (hc : ∀ c ∈ clauses, c.MentionsOnly names) :
    inf.clauseTypes scope' subject clauses = inf.clauseTypes scope subject clauses := by
  induction clauses with
  | nil => rfl
  | cons c clauses ih =>
    rw [clauseTypes, clauseTypes, inf.clauseType_alike h (hc c (.head _)), ih fun c hmem => hc c (.tail _ hmem)]

end Inference

/-! ## Bindings of the package -/

namespace Source

def Decl.global? : Decl → Option ValDecl
  | .val v => some v
  | _ => none

def globals (decls : List (Located Decl)) : List ValDecl := decls.filterMap fun d => d.val.global?

def ValDecl.Ignores (v : ValDecl) (name : String) : Prop := v.ty = none → v.value.val.references name = false

/-- The type of a binding hangs neither on itself nor on bindings that follow, and none of them takes
    its name. -/
structure ValDecl.Settled (v : ValDecl) (after : List ValDecl) : Prop where
  own : v.Ignores v.name.val
  forward : ∀ later ∈ after, v.Ignores later.name.val
  distinct : ∀ later ∈ after, later.name.val ≠ v.name.val

end Source

namespace Lower

open Source (ValDecl globals)

def globalType (env : Env) (v : ValDecl) (s : LowerState) : Ty :=
  v.ty.getD ((⟨env, s.typeParams⟩ : Inference).typeOf s.scope v.value).unwrap

variable {env : Env} {s s' : LowerState} {v : ValDecl} {decls : List (Located Source.Decl)}

theorem bindingType_ok {ty : Ty} (h : bindingType env v s = .ok ty s') : ty = globalType env v s ∧ s' = s := by
  obtain ⟨hs, hty | ⟨hnone, rfl⟩, -⟩ := bindingType_known h
  · exact ⟨by simp [globalType, hty], hs⟩
  · exact ⟨by simp [globalType, hnone, LowerState.typeOf, LowerState.inferred], hs⟩

def globalBinding (env : Env) (v : ValDecl) (ty : Ty) : Checked Binding :=
  if v.mutable then pure ⟨.var, ty⟩ else (Storage.wrapperType env ty v.name.span).map (⟨.val, ·⟩)

theorem bindGlobal_ok (h : bindGlobal env v s = .ok () s') : ∃ b, globalBinding env v (globalType env v s) = .ok b ∧
      s' = { s with scope := s.scope.bind v.name.val b.mutability b.ty } := by
  obtain ⟨ty, s1, hty, h⟩ := bind_ok h
  obtain ⟨rfl, rfl⟩ := bindingType_ok hty
  unfold globalBinding
  split at h
  · rename_i hmutable
    rw [if_pos hmutable]
    cases h
    exact ⟨_, rfl, rfl⟩
  · rename_i hmutable
    rw [if_neg hmutable]
    obtain ⟨wrapper, s2, hwrapper, hbind⟩ := bind_ok h
    obtain ⟨hok, rfl⟩ := ofChecked_ok hwrapper
    rw [hok]
    cases hbind
    exact ⟨_, rfl, rfl⟩

theorem lowerGlobal_ok {d : Target.Decl} (h : lowerGlobal env v s = .ok d s') :
    ∃ b value, globalBinding env v (globalType env v s) = .ok b ∧ d = .var v.name.val (some b.ty) (some value) := by
  obtain ⟨ty, s1, hty, h⟩ := bind_ok h
  obtain ⟨rfl, rfl⟩ := bindingType_ok hty
  obtain ⟨lowered, s2, -, h⟩ := bind_ok h
  unfold globalBinding
  split at h
  · rename_i hmutable
    rw [if_pos hmutable]
    exact ⟨_, lowered, rfl, (pure_ok h).1⟩
  · rename_i hmutable
    rw [if_neg hmutable]
    obtain ⟨wrapper, s3, hwrapper, hstore⟩ := bind_ok h
    obtain ⟨stored, s4, -, hdecl⟩ := bind_ok hstore
    rw [(ofChecked_ok hwrapper).1]
    exact ⟨_, stored, rfl, (pure_ok hdecl).1⟩

theorem globalType_congr (htps : s'.typeParams = s.typeParams)
    (h : v.ty = none → ∀ x, v.value.val.references x = true → s'.scope.find? x = s.scope.find? x) :
    globalType env v s' = globalType env v s := by
  unfold globalType
  cases hty : v.ty with
  | some ty => rfl
  | none =>
    rw [htps]
    exact congrArg Ty.unwrap (Inference.typeOf_congr _ (h hty))

theorem bindGlobals_steady (h : bindGlobals env decls s = .ok () s') : Steady s s' := by
  induction decls generalizing s with
  | nil =>
    cases h
    exact Std.Refl.refl _
  | cons d decls ih =>
    obtain ⟨_, s1, hd, hrest⟩ := bind_ok h
    refine IsTrans.trans _ _ _ ?_ (ih hrest)
    obtain ⟨d, span⟩ := d
    cases d with
    | val v =>
      obtain ⟨b, -, rfl⟩ := bindGlobal_ok hd
      exact (bind_steady v.name.val b.mutability b.ty).ok rfl
    | _ =>
      cases hd
      exact Std.Refl.refl _

theorem bindGlobals_others (h : bindGlobals env decls s = .ok () s') :
    s'.typeParams = s.typeParams ∧ ∀ x, (∀ v ∈ globals decls, v.name.val ≠ x) → s'.scope.find? x = s.scope.find? x := by
  induction decls generalizing s with
  | nil =>
    cases h
    exact ⟨rfl, fun _ _ => rfl⟩
  | cons d decls ih =>
    obtain ⟨_, s1, hd, hrest⟩ := bind_ok h
    obtain ⟨htps, hothers⟩ := ih hrest
    obtain ⟨d, span⟩ := d
    cases d with
    | val v =>
      obtain ⟨b, -, rfl⟩ := bindGlobal_ok hd
      refine ⟨htps, fun x hx => ?_⟩
      obtain ⟨hv, hx⟩ := List.forall_mem_cons.mp (show ∀ w ∈ v :: globals decls, w.name.val ≠ x from hx)
      rw [hothers x hx, Scope.find?_bind, if_neg (Ne.symm hv)]
    | _ =>
      cases hd
      exact ⟨htps, hothers⟩

theorem bindGlobals_settled {before after : List (Located Source.Decl)} {span : Span} (hv : v.Settled (globals after))
    (h : bindGlobals env (before ++ ⟨.val v, span⟩ :: after) s = .ok () s') :
    ∃ b, s'.scope.find? v.name.val = some b ∧ globalBinding env v (globalType env v s') = .ok b := by
  induction before generalizing s with
  | cons d before ih =>
    obtain ⟨_, s1, -, hrest⟩ := bind_ok h
    exact ih hrest
  | nil =>
    obtain ⟨_, s1, hbind, hafter⟩ := bind_ok h
    obtain ⟨htps, hothers⟩ := bindGlobals_others hafter
    obtain ⟨b, hb, rfl⟩ := bindGlobal_ok hbind
    have hfind : s'.scope.find? v.name.val = some b := by
      rw [hothers _ hv.distinct, Scope.find?_bind, if_pos rfl]
    have htype : globalType env v s' = globalType env v s := by
      refine globalType_congr htps fun hty x hx => ?_
      have hown : x ≠ v.name.val := by
        rintro rfl
        simp [hv.own hty] at hx
      have hlater : ∀ later ∈ globals after, later.name.val ≠ x := by
        rintro later hlater rfl
        simp [hv.forward later hlater hty] at hx
      rw [hothers x hlater, Scope.find?_bind, if_neg hown]
    exact ⟨b, hfind, htype ▸ hb⟩

theorem mapM_lowerDecl_ok {lowered : List (List Target.Decl)} (h : decls.mapM (lowerDecl env) s = .ok lowered s') :
    ∀ d ∈ decls, ∃ s1 s2 l, Framed s s1 ∧ lowerDecl env d s1 = .ok l s2 ∧ l ∈ lowered := by
  induction decls generalizing s s' lowered with
  | nil => simp
  | cons d decls ih =>
    rw [List.mapM_cons] at h
    obtain ⟨l, s1, hd, h⟩ := bind_ok h
    obtain ⟨rest, hrest, rfl⟩ := map_ok h
    refine List.forall_mem_cons.mpr ⟨⟨s, s1, l, Std.Refl.refl s, hd, .head _⟩, fun d' hd' => ?_⟩
    obtain ⟨t, t', l', hframed, hlowered, hl'⟩ := ih hrest d' hd'
    have hstep : Framed s s1 := by
      have hfinal := lowerDecl_framed env d s
      rwa [final, hd] at hfinal
    exact ⟨t, t', l', hstep.trans hframed, hlowered, .tail _ hl'⟩

/-- All declarations are lowered in the scope that holds the bindings of the package. There a settled
    binding has the type that it is declared with. -/
theorem global_seenAsDeclared {program : Source.Program} {catalog : Catalog} {settings : Settings} {file : Target.File}
    (hfile : lowerProgram program catalog settings = .ok file) {before after : List (Located Source.Decl)} {v : ValDecl}
    {span : Span} (hdecls : program.decls = before ++ ⟨.val v, span⟩ :: after) (hv : v.Settled (globals after)) :
    ∃ env s b, Env.ofProgram program catalog settings = .ok env ∧
      bindGlobals env program.decls (.start env) = .ok () s ∧ s.scope.find? v.name.val = some b ∧
      ∀ d ∈ program.decls, ∃ s₁ s₂ lowered, s₁.scope = s.scope ∧ lowerDecl env d s₁ = .ok lowered s₂ ∧
        lowered ⊆ file.decls ∧
        (d = ⟨.val v, span⟩ → ∃ value, lowered = [.var v.name.val (some b.ty) (some value)]) := by
  obtain ⟨_, -, hfile⟩ := checked_bind_ok hfile
  obtain ⟨env, henv, hfile⟩ := checked_bind_ok hfile
  split at hfile
  · rename_i decls s' hrun
    cases hfile
    obtain ⟨_, s, hbind, hrun⟩ := bind_ok hrun
    obtain ⟨lists, hlists, rfl⟩ := map_ok hrun
    obtain ⟨b, hfind, hb⟩ := bindGlobals_settled hv (hdecls ▸ hbind)
    refine ⟨env, s, b, henv, hbind, hfind, fun d hd => ?_⟩
    obtain ⟨s₁, s₂, lowered, hframed, hlowered, hmem⟩ := mapM_lowerDecl_ok hlists d hd
    refine ⟨s₁, s₂, lowered, hframed.scope, hlowered, fun decl hdecl => List.mem_flatten.mpr ⟨lowered, hmem, hdecl⟩, ?_⟩
    rintro rfl
    have htype : globalType env v s₁ = globalType env v s :=
      globalType_congr hframed.typeParams fun _ x _ => by rw [hframed.scope]
    obtain ⟨decl, _, hdecl, hpure⟩ := bind_ok hlowered
    obtain ⟨b', value, hb', rfl⟩ := lowerGlobal_ok hdecl
    rw [htype, hb] at hb'
    cases hb'
    exact ⟨value, (pure_ok hpure).1⟩
  · cases hfile

/-- `var b: float64 = 2` -/
def floatB : Located Source.Decl := unlocated (.val ⟨unlocated "b", true, some (.basic "float64"), unlocated (.lit (.int 2))⟩)

/-- `var a = 1 + b` -/
def sumA : ValDecl :=
  ⟨unlocated "a", true, none, unlocated (.binary (unlocated (.lit (.int 1))) .add (unlocated (.ident "b")))⟩

/-- `func g() { var x = a }` -/
def copyOfA : Located Source.Decl :=
  unlocated (.func ⟨unlocated "g", [], none, [], none,
    unlocated (.block [unlocated (.val ⟨unlocated "x", true, none, unlocated (.ident "a")⟩)]), .synthetic⟩)

/-- `a` after `b`, with a third binding that follows. -/
def summing : List (Located Source.Decl) :=
  [floatB, unlocated (.val sumA), copyOfA, unlocated (.val ⟨unlocated "c", false, none, unlocated (.ident "a")⟩)]

theorem sumA_settled : sumA.Settled (globals (summing.drop 2)) where
  own _ := by decide
  forward := by
    simp [ValDecl.Ignores, summing, globals, unlocated, copyOfA, Source.Decl.global?]
    decide
  distinct := by decide

theorem global_seenAsDeclared_sum : ∃ file, lowerProgram ⟨"main", summing⟩ .empty .standard = .ok file ∧
    sumA.Settled (globals (summing.drop 2)) ∧
    ∃ env s b value, bindGlobals env summing (.start env) = .ok () s ∧ s.scope.find? "a" = some b ∧
      .var "a" (some b.ty) (some value) ∈ file.decls := by
  have hlowers : ∃ file, lowerProgram ⟨"main", summing⟩ .empty .standard = .ok file := ⟨_, by with_unfolding_all rfl⟩
  obtain ⟨file, hfile⟩ := hlowers
  obtain ⟨env, s, b, -, hbind, hfind, hdecls⟩ := global_seenAsDeclared hfile (show summing = [floatB] ++ _ from rfl) sumA_settled
  obtain ⟨s₁, s₂, lowered, -, -, hlowered, hdecl⟩ := hdecls _ (.tail _ (.head _))
  obtain ⟨value, rfl⟩ := hdecl rfl
  exact ⟨file, hfile, sumA_settled, env, s, b, value, hbind, hfind, hlowered (.head _)⟩

/-- `a` before `b`: the functions of the package see a number where a `float64` is declared. -/
theorem forwardGlobal_seenOtherwise : ∃ env s b file,
    Env.ofProgram ⟨"main", [unlocated (.val sumA), floatB, copyOfA]⟩ .empty .standard = .ok env ∧
      bindGlobals env [unlocated (.val sumA), floatB, copyOfA] (.start env) = .ok () s ∧
      s.scope.find? "a" = some b ∧ b.ty = .int ∧
      lowerProgram ⟨"main", [unlocated (.val sumA), floatB, copyOfA]⟩ .empty .standard = .ok file ∧
      ∃ value, .var "a" (some (.basic "float64")) (some value) ∈ file.decls :=
  ⟨_, _, ⟨.var, .int⟩, ⟨"main", [], _⟩, by with_unfolding_all rfl, by with_unfolding_all rfl, by with_unfolding_all rfl,
    rfl, by with_unfolding_all rfl, _, .head _⟩

end Lower

end Lowering
