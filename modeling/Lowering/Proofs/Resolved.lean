/-
  Resolved — looking things up stays within a rule.

  Type arguments are written, or found by unification as parts of known types; members of a type have the declared
  types with the receiver's arguments in place of its parameters.
-/

import Lowering.Proofs.Expansion
import Lowering.Proofs.Meetings
import Lowering.Proofs.Rule

namespace Lowering

variable {R : Rule} {env : Env} {α β : Type} {Q : β → Prop} {f : α → Option β} {l : List α} {l' : List β}

/-! ## Options in sequence -/

theorem forall₂_of_mapM (h : l.mapM f = some l') : List.Forall₂ (fun a b => f a = some b) l l' := by
  induction l generalizing l' with
  | nil =>
    cases h
    exact .nil
  | cons a l ih =>
    rw [List.mapM_cons] at h
    obtain ⟨b, hb, h⟩ := Option.bind_eq_some_iff.mp h
    obtain ⟨bs, hbs, h⟩ := Option.bind_eq_some_iff.mp h
    cases h
    exact .cons hb (ih hbs)

theorem forall_mem_of_mapM (h : l.mapM f = some l') (hf : ∀ a b, f a = some b → Q b) : ∀ b ∈ l', Q b := by
  intro b hb
  obtain ⟨a, -, hab⟩ := exists_of_forall₂ (forall₂_of_mapM h).flip b hb
  exact hf a b hab

theorem foldlM_invariant {I : β → Prop} {f : β → α → Option β}
    (hf : ∀ b a b', a ∈ l → I b → f b a = some b' → I b') {b b' : β} (hb : I b) (h : l.foldlM f b = some b') :
    I b' := by
  induction l generalizing b with
  | nil =>
    cases h
    exact hb
  | cons a l ih =>
    obtain ⟨b1, hb1, h⟩ := Option.bind_eq_some_iff.mp h
    exact ih (fun b a b' ha => hf b a b' (.tail _ ha)) (hf b a b1 (.head _) hb hb1) h

theorem forall_mem_of_mapM_ok {f : α → Checked β}
    (h : l.mapM f = .ok l') (hf : ∀ a b, a ∈ l → f a = .ok b → Q b) : ∀ b ∈ l', Q b := by
  intro b hb
  obtain ⟨a, ha, hab⟩ := exists_of_forall₂ (forall₂_of_mapM_ok h).flip b hb
  exact hf a b ha hab

/-! ## Unification -/

namespace Unifier

def expectedParams (u : Unifier) (param : Ty) : List Ty :=
  match u.apply param with
  | .func params _ => params
  | _ => []

theorem unifyLambda_lambda (u : Unifier) (param : Ty) (ty : List Ty → Ty) :
    u.unifyLambda (param, .lambda ty) = u.unify? param (ty (u.expectedParams param)) := rfl

end Unifier

theorem Rule.substitutes_ofParams {params : List String} {args : List Ty} (hp : ∀ p ∈ params, R.param p)
    (ha : ∀ a ∈ args, R.ty a) : R.Substitutes (.ofParams params args) := by
  intro x t hx
  have hmem := List.of_mem_zip (Table.mem_of_find?_ofList hx)
  exact ⟨hp x hmem.1, ha t hmem.2⟩

namespace Rule.Formed

variable {t known : Ty} {params : List String} (h : R.Formed env)
include h

theorem unwrap (ht : R.ty t) : R.ty t.unwrap := by
  unfold Ty.unwrap Ty.wrapped?
  split
  · cases hargs : t.args.head? with
    | none => exact ht
    | some inner => exact h.args ht inner (List.mem_of_mem_head? hargs)
  · exact ht

theorem unwrap_result (ht : R.Result t) : R.Result t.unwrap := by
  rcases ht with rfl | ht
  · exact .inl rfl
  · exact .inr (h.unwrap ht)

theorem unwrap_known (ht : R.Known t) : R.Known t.unwrap := by
  rcases ht with rfl | ht
  · exact .inl rfl
  · exact .inr (h.unwrap_result ht)

theorem args_result (ht : R.Result t) : ∀ a ∈ t.args, R.ty a := by
  rcases ht with rfl | ht
  · exact List.forall_mem_nil _
  · exact h.args ht

theorem subst_result {s : Substitution} (hs : R.Substitutes s) (ht : R.Result t) : R.Result (t.subst s) := by
  rcases ht with rfl | ht
  · exact .inl rfl
  · exact .inr (h.subst hs ht)

theorem solve_substitutes (hp : ∀ p ∈ params, R.param p) (pattern : Ty) (hk : R.Result known) :
    Keeps (Unifier.Preserves R.Substitutes) (Unifier.solve params pattern known) := by
  rcases hk with rfl | hk
  · simp only [Unifier.solve]
    exact .pure
  exact Unifier.solve_preserves (I := R.Substitutes)
    (fun _ hname hk _ hs => Table.forall_find?_insert hs ⟨hp _ hname, hk⟩)
    ⟨fun hk => h.args hk, h.array, h.pointer, h.map, h.func.mp⟩ hk

end Rule.Formed

/-- Parameters to solve for and bindings that are allowed. -/
structure Rule.Unifier (R : Rule) (u : Lowering.Unifier) : Prop where
  params : ∀ p ∈ u.params, R.param p
  bound : R.Substitutes u.bound

namespace Rule.Unifier

theorem new {params : List String} (hp : ∀ p ∈ params, R.param p) : R.Unifier (.new params) := by
  refine ⟨hp, ?_⟩
  intro x t hx
  cases hx

variable {u : Lowering.Unifier}

theorem unify? (h : R.Formed env) {u' : Lowering.Unifier} (hu : R.Unifier u) {pattern known : Ty} (hk : R.Result known)
    (hs : u.unify? pattern known = some u') : R.Unifier u' := by
  obtain ⟨hparams, hfinal⟩ := Lowering.Unifier.unify?_ok hs
  have hbound := h.solve_substitutes hu.params pattern hk u.bound hu.bound
  rw [hfinal] at hbound
  exact ⟨hparams ▸ hu.params, hbound⟩

theorem resolve (hu : R.Unifier u) {types : List Ty} (h : u.resolve = some types) : ∀ t ∈ types, R.ty t := by
  refine forall_mem_of_mapM h fun p t ht => ?_
  have hfind := (Option.filter_eq_some_iff.mp ht).1
  exact (hu.bound p t hfind).2

end Rule.Unifier

def Rule.Typing (R : Rule) : ArgTyping → Prop
  | .plain ty => R.ty (ty ())
  | .lambda ty => ∀ expected, (∀ t ∈ expected, R.ty t) → R.ty (ty expected)
  | .caseFunction => True

namespace Rule.Formed

theorem unifyAll (h : R.Formed env) {params : List String} (hp : ∀ p ∈ params, R.param p) {pattern known : Ty}
    {types : List Ty} (hk : R.Result known) (hs : Lowering.unifyAll params pattern known = some types) : ∀ t ∈ types, R.ty t := by
  obtain ⟨u, hu, hs⟩ := Option.bind_eq_some_iff.mp hs
  exact ((Unifier.new hp).unify? h hk hu).resolve hs

end Rule.Formed

variable {args : List (Option ArgTyping)} {expected : Option (Ty × Ty)} {explicit params types : List Ty}
  {typeParams : List String}

theorem resolveTypeArgs_invariant {I : Unifier → Prop} (hnew : I (.new typeParams))
    (hplain : ∀ {u u' pattern ty}, some (.plain ty) ∈ args → I u → u.unify? pattern (ty ()) = some u' → I u')
    (hlambda : ∀ {u u' param ty}, param ∈ params → some (.lambda ty) ∈ args → I u →
      u.unify? param (ty (u.expectedParams param)) = some u' → I u')
    (hresult : ∀ {u u' w}, w ∈ expected → I u → u.unify? w.1 w.2 = some u' → I u')
    (h : resolveTypeArgs typeParams params args explicit expected = some types) :
    types = [] ∧ typeParams = [] ∨ types = explicit ∧ explicit.length = typeParams.length ∨
      ∃ u, I u ∧ u.resolve = some types := by
  unfold resolveTypeArgs at h
  split at h
  · rename_i hempty
    cases h
    exact .inl ⟨rfl, List.isEmpty_iff.mp hempty⟩
  split at h
  · rename_i hlength
    cases h
    exact .inr (.inl ⟨rfl, beq_iff_eq.mp hlength⟩)
  have hmem : ∀ pair ∈ (params.zip args).filterMap (fun p => p.2.map (p.1, ·)), pair.1 ∈ params ∧ some pair.2 ∈ args := by
    intro pair hpair
    obtain ⟨⟨param, arg⟩, hmem, hpair⟩ := List.mem_filterMap.mp hpair
    obtain ⟨typing, rfl, rfl⟩ := Option.map_eq_some_iff.mp hpair
    exact List.of_mem_zip hmem
  obtain ⟨u1, hu1, h⟩ := Option.bind_eq_some_iff.mp h
  obtain ⟨u2, hu2, h⟩ := Option.bind_eq_some_iff.mp h
  obtain ⟨u3, hu3, h⟩ := Option.bind_eq_some_iff.mp h
  have h1 : I u1 := by
    refine foldlM_invariant (fun u pair u' hpair hu hs => ?_) hnew hu1
    obtain ⟨param, typing⟩ := pair
    cases typing with
    | plain ty => exact hplain (hmem _ hpair).2 hu hs
    | _ => cases hs; exact hu
  have h2 : I u2 := by
    refine foldlM_invariant (fun u pair u' hpair hu hs => ?_) h1 hu2
    obtain ⟨param, typing⟩ := pair
    cases typing with
    | lambda ty => exact hlambda (hmem _ hpair).1 (hmem _ hpair).2 hu hs
    | _ => cases hs; exact hu
  have h3 : I u3 := by
    unfold Unifier.unifyResult at hu3
    split at hu3
    · split at hu3
      · exact hresult rfl h2 hu3
      · cases hu3
        exact h2
    · cases hu3
      exact h2
  exact .inr (.inr ⟨u3, h3, h⟩)

/-- Type arguments are those written, or parts of the types of the arguments and of the type the
    context expects. -/
theorem Rule.Formed.resolveTypeArgs (h : R.Formed env) (htp : ∀ p ∈ typeParams, R.param p)
    (hparams : ∀ t ∈ params, R.ty t) (hargs : ∀ a, some a ∈ args → R.Typing a) (hexplicit : ∀ t ∈ explicit, R.ty t)
    (hexpected : ∀ w ∈ expected, R.ty w.2)
    (hs : Lowering.resolveTypeArgs typeParams params args explicit expected = some types) : ∀ t ∈ types, R.ty t := by
  have hlambda : ∀ {u : Lowering.Unifier} {param : Ty}, param ∈ params → R.Unifier u →
      ∀ t ∈ u.expectedParams param, R.ty t := by
    intro u param hparam hu
    have happly : R.ty (u.apply param) := h.subst hu.bound (hparams param hparam)
    unfold Lowering.Unifier.expectedParams
    split
    · rename_i hfunc
      rw [hfunc] at happly
      exact (h.func.mp happly).1
    · simp
  rcases resolveTypeArgs_invariant (I := R.Unifier) (.new htp) (fun hmem hu => hu.unify? h (.inr (hargs _ hmem)))
    (fun hparam hmem hu => hu.unify? h (.inr (hargs _ hmem _ (hlambda hparam hu))))
    (fun hw hu => hu.unify? h (.inr (hexpected _ hw))) hs with ⟨rfl, -⟩ | ⟨rfl, -⟩ | ⟨u, hu, hs⟩
  · simp
  · exact hexplicit
  · exact hu.resolve hs

theorem length_resolveTypeArgs (h : resolveTypeArgs typeParams params args explicit expected = some types) :
    types.length = typeParams.length := by
  have hstep : ∀ {u u' : Unifier} {pattern known : Ty}, u.params = typeParams → u.unify? pattern known = some u' →
      u'.params = typeParams := fun hu hs => (Unifier.unify?_ok hs).1.trans hu
  rcases resolveTypeArgs_invariant (I := fun u => u.params = typeParams) rfl (fun _ => hstep) (fun _ _ => hstep)
    (fun _ => hstep) h with ⟨rfl, rfl⟩ | ⟨rfl, hlength⟩ | ⟨u, hu, h⟩
  · rfl
  · exact hlength
  · rw [← (forall₂_of_mapM h).length_eq, hu]

/-! ## Members -/

theorem Env.type?_of_entry? {t : Ty} {e : TypeEntry} (h : env.entry? t = some e) : ∃ name, env.type? name = some e := by
  fun_induction Env.entry? env t with
  | case1 elem ih | case2 base args ih => exact ih h
  | case3 name => exact ⟨name, h⟩
  | case4 package name => exact ⟨_, h⟩
  | case5 => cases h

namespace Rule

theorem headD {ts : List Ty} (hts : ∀ t ∈ ts, R.ty t) {d : Ty} (hd : R.ty d) : R.ty (ts.headD d) := by
  cases ts with
  | nil => exact hd
  | cons t ts => exact hts t (.head _)

theorem mention_member {scope : Lowering.Scope} {target : Located Source.Expr} {member : String} {package : String}
    (hp : packageOf? env scope target.val = some package) (hitems : R.Permits (Source.memberItems target member)) :
    R.mention (package ++ "." ++ member) := by
  obtain ⟨target, span⟩ := target
  obtain rfl : target = .ident package := Lower.packageOf?_eq_some hp
  exact hitems _ (.tail _ (.head _))

end Rule

namespace Rule.Formed

variable {receiver t : Ty} {name : String} {m : Method} (h : R.Formed env)
include h

variable {e : TypeEntry}

theorem receiverSubst (he : R.Entry e) (hr : R.ty receiver) : R.Substitutes (Env.receiverSubst e receiver) := by
  refine substitutes_ofParams he.typeParams (h.args ?_)
  split
  · exact h.pointer hr
  · exact hr

theorem field? (hr : R.ty receiver) {info : FieldInfo} (hs : env.field? receiver name = some info) : R.ty info.ty := by
  obtain ⟨e, he, hs⟩ := Option.bind_eq_some_iff.mp hs
  obtain ⟨i, -, hs⟩ := Option.bind_eq_some_iff.mp hs
  obtain ⟨declared, hdeclared, hs⟩ := Option.bind_eq_some_iff.mp hs
  cases hs
  obtain ⟨n, hn⟩ := Env.type?_of_entry? he
  have hdeclared : R.ty declared := (h.entry hn).fieldTypes declared (List.mem_of_getElem? hdeclared)
  exact h.subst (h.receiverSubst (h.entry hn) hr) (h.unwrap hdeclared)

theorem method? (hr : R.ty receiver) (hs : env.method? receiver name = some (e, m)) :
    R.Signature m.typeParams (m.subst (Env.receiverSubst e receiver)).params
      (m.subst (Env.receiverSubst e receiver)).result := by
  obtain ⟨e', he, hs⟩ := Option.bind_eq_some_iff.mp hs
  obtain ⟨m', hm, hs⟩ := Option.bind_eq_some_iff.mp hs
  cases hs
  obtain ⟨n, hn⟩ := Env.type?_of_entry? he
  have hsig := (h.entry hn).methods name m hm
  have hsubst := h.receiverSubst (h.entry hn) hr
  refine ⟨hsig.typeParams, ?_, h.subst_result hsubst hsig.result⟩
  intro t ht
  obtain ⟨p, hp, rfl⟩ := List.mem_map.mp ht
  exact h.subst hsubst (hsig.params p hp)

theorem methodSignature? (hr : R.ty receiver) (hs : env.methodSignature? receiver name = some m) :
    R.Signature m.typeParams m.params m.result := by
  obtain ⟨⟨e, m'⟩, hm, hs⟩ := Option.bind_eq_some_iff.mp hs
  cases hs
  exact h.method? hr hm

/-! ## Aliases -/

theorem expand (ht : R.ty t) : R.ty (env.expand t) := by
  refine Env.expand_induction (fun t next honce ht => ?_) ht
  obtain ⟨name, -, honce⟩ := Option.bind_eq_some_iff.mp honce
  obtain ⟨a, ha, honce⟩ := Option.bind_eq_some_iff.mp honce
  cases honce
  have hexpansion := h.expansion ha
  exact h.subst (substitutes_ofParams hexpansion.1 (h.args ht)) hexpansion.2

theorem expand_result (ht : R.Result t) : R.Result (env.expand t) := by
  rcases ht with rfl | ht
  · exact .inl rfl
  · exact .inr (h.expand ht)

/-! ## Types of names and members -/

theorem functionType {typeParams : List String} {params : List Ty} {result : Ty}
    (hs : R.Signature typeParams params result) : R.Known (Lowering.functionType params result typeParams) := by
  unfold Lowering.functionType
  split
  · exact .of_ty (h.func.mpr ⟨hs.params, hs.result.results⟩)
  · exact .inl rfl

theorem namedFunctionType (hn : R.mention name) : R.Known (Lowering.namedFunctionType env name) := by
  unfold Lowering.namedFunctionType
  split
  · exact h.functionType (h.function hn (by assumption))
  · exact .inl rfl

theorem identType {scope : Lowering.Scope}
    (hscope : ∀ b, scope.find? name = some b → R.Result b.ty.unwrap) (hn : R.mention name) :
    R.Known (Lowering.identType env scope name) := by
  unfold Lowering.identType
  dsimp only
  split
  · exact h.namedFunctionType hn
  · rename_i hnil
    unfold Scope.typeOf at hnil ⊢
    cases hb : scope.find? name with
    | none => simp [hb, Ty.isNil] at hnil
    | some b => exact .inr (hscope b hb)

theorem memberType (hr : R.Known receiver) {member : String} : R.Known (Lowering.memberType env receiver member) := by
  unfold Lowering.memberType
  split
  · rename_i field hfield
    exact .of_ty (h.field? (hr.of_field hfield) hfield)
  · split
    · rename_i m hm
      obtain ⟨found, hfound, -⟩ := Option.bind_eq_some_iff.mp hm
      exact h.functionType (h.methodSignature? (hr.of_method hfound) hm)
    · exact .inl rfl

theorem elementType {target : Ty} (ht : R.Known target) :
    R.Known ((⟨env, typeParams⟩ : Inference).elementType target) := by
  have hu := h.unwrap_known ht
  unfold Inference.elementType
  split
  · rename_i elem heq
    rw [heq] at hu
    exact .of_ty (h.array (hu.ty rfl rfl))
  · rename_i key elem heq
    rw [heq] at hu
    exact .of_ty (h.map (hu.ty rfl rfl)).2
  · split
    · exact .of_ty (h.builtin _ (by decide))
    · cases hm : (env.methodSignature? target.unwrap "Get").filter (·.params.length == 1) with
      | none => exact .inl rfl
      | some m =>
        have hm := (Option.filter_eq_some_iff.mp hm).1
        obtain ⟨found, hfound, -⟩ := Option.bind_eq_some_iff.mp hm
        exact .inr (h.methodSignature? (hu.of_method hfound) hm).result

end Rule.Formed

/-! ## Callees -/

/-- What a callee brings along is allowed. -/
def Rule.Callee (R : Rule) (env : Env) : Lowering.Callee → Prop
  | .function f => R.Signature f.typeParams f.params f.result
  | .constructor e => (∃ name, env.type? name = some e) ∧ e.kind = .struct
  | .companion e => (∃ name, env.type? name = some e) ∧ e.kind = .companion
  | .method ty _ _ m => R.ty ty ∧ R.Signature m.typeParams m.params m.result
  | .copy ty _ | .conversion ty => R.ty ty
  | .value ty => ty.isFunc = true → R.ty ty
  | .unknown => True

namespace Rule.Formed

theorem namedCallee (h : R.Formed env) {name : String} (hn : R.mention name) :
    R.Callee env (Lowering.namedCallee env name) := by
  unfold Lowering.namedCallee
  split
  · exact h.function hn (by assumption)
  · split
    · rename_i e he
      split
      · exact ⟨⟨name, he⟩, by assumption⟩
      · exact ⟨⟨name, he⟩, by assumption⟩
      · trivial
    · split
      · rename_i hb
        exact h.builtin name (by simpa [Ty.isBuiltin] using hb)
      · trivial

theorem memberCallee (h : R.Formed env) {receiver : Ty} (hr : R.ty receiver) (member : String) :
    R.Callee env (Lowering.memberCallee env receiver member) := by
  unfold Lowering.memberCallee
  split
  · exact ⟨hr, h.method? hr (by assumption)⟩
  · split
    · exact hr
    · unfold fieldCallee
      split
      · rename_i field hfield
        split
        · exact fun _ => h.field? hr hfield
        · trivial
      · trivial

end Rule.Formed

namespace Rule.Closed

theorem calleeOf (h : R.Closed env) {scope : Lowering.Scope} (hscope : R.Scope scope) {callee : Source.Expr}
    (hitems : R.Permits callee.items) {targetType ownType : Unit → Ty} (htarget : R.ty (targetType ()))
    (hown : R.ty (ownType ())) : R.Callee env (Lowering.calleeOf env scope callee targetType ownType) := by
  unfold Lowering.calleeOf
  split
  · rename_i name
    split
    · rename_i hcontains
      obtain ⟨b, hb⟩ := Option.isSome_iff_exists.mp hcontains
      simp only [Rule.Callee, Scope.typeOf, hb, Option.map_some, Option.getD_some]
      exact fun _ => h.ty_of_result (hscope name b hb).ty
    · exact h.namedCallee (hitems _ (.head _))
  · rename_i target member
    split
    · exact h.namedCallee (mention_member (by assumption) (permits_append.mp hitems).1)
    · exact h.memberCallee (h.unwrap htarget) _
  · exact fun _ => hown

end Rule.Closed

/-! ## Results of calls -/

theorem mem_byPosition {args : List (NamedArg α)} {a : α} (ha : some a ∈ byPosition args) :
    ∃ name, (name, a) ∈ args := by
  obtain ⟨⟨name, _⟩, hmem, ⟨⟩⟩ := List.mem_map.mp ha
  exact ⟨name, hmem⟩

/-- The type arguments that are found for a call with the given arguments are allowed. -/
def Rule.Finds (R : Rule) (args : List (NamedArg ArgTyping)) (explicit : List Ty) (expected : Option Ty) : Prop :=
  ∀ (typeParams : List String) (params : List Ty) (result : Ty) (slots : List (Option ArgTyping)) (types : List Ty),
    (∀ p ∈ typeParams, R.param p) → (∀ t ∈ params, R.ty t) → (∀ a, some a ∈ slots → ∃ name, (name, a) ∈ args) →
    Lowering.resolveTypeArgs typeParams params slots explicit (expected.map (result, ·)) = some types →
    ∀ t ∈ types, R.ty t

namespace Rule.Formed

variable {args : List (NamedArg ArgTyping)} {explicit : List Ty} {expected : Option Ty} (h : R.Formed env)
include h

theorem genericResult {typeParams : List String} {params : List Ty} {result : Ty}
    (hs : R.Signature typeParams params result) (hfinds : R.Finds args explicit expected) :
    R.Known (Lowering.genericResult typeParams params result (byPosition args) explicit expected) := by
  unfold Lowering.genericResult
  split
  · rename_i typeArgs hresolve
    have htypes := hfinds _ _ _ _ _ hs.typeParams hs.params (fun _ => mem_byPosition) hresolve
    exact .inr (h.subst_result (substitutes_ofParams hs.typeParams htypes) hs.result)
  · exact .inl rfl

theorem constructedType {name : String} {e : TypeEntry} (he : env.type? name = some e) (hkind : e.kind = .struct)
    (hfinds : R.Finds args explicit expected) :
    R.Known (Lowering.constructedType env e args explicit expected span) := by
  unfold Lowering.constructedType
  extract_lets slots
  have hslots : ∀ a, some a ∈ slots → ∃ name, (name, a) ∈ args := by
    intro a ha
    dsimp only [slots] at ha
    split at ha
    · rename_i slots' harrange
      exact (mem_arrange harrange).mp ha
    · exact mem_byPosition ha
  have hentry := h.entry he
  split
  · rename_i typeArgs hresolve
    have htypes := hfinds _ _ _ _ _ hentry.typeParams hentry.fieldTypes hslots hresolve
    exact .of_ty (h.built he (by simp [TypeEntry.isBuilt, hkind]) htypes)
  · exact .inl rfl

theorem callResult {callee : Lowering.Callee} (hc : R.Callee env callee) (hfinds : R.Finds args explicit expected) :
    R.Known (Lowering.callResult env callee explicit args expected span) := by
  unfold Lowering.callResult
  split
  · exact h.genericResult hc hfinds
  · obtain ⟨⟨name, he⟩, hkind⟩ := hc
    exact h.constructedType he hkind hfinds
  · rename_i e
    obtain ⟨⟨name, he⟩, -⟩ := hc
    split
    · rename_i m hm
      have hsig := (h.entry he).methods _ m hm
      exact h.genericResult ⟨(h.entry he).typeParams, hsig.params, hsig.result⟩ hfinds
    · exact .inl rfl
  · exact h.genericResult hc.2 hfinds
  · exact .of_ty hc
  · exact .of_ty hc
  · rename_i params results
    cases results with
    | nil => exact .inr (.inl rfl)
    | cons result results => exact .of_ty ((h.func.mp (hc rfl)).2 result (.head _))
  · exact .inl rfl
  · exact .inl rfl

end Rule.Formed

namespace Rule.Closed

def Typings (R : Rule) (args : List (NamedArg ArgTyping)) : Prop := ∀ a ∈ args, R.Typing a.2

variable {args : List (NamedArg ArgTyping)}

theorem byPosition (hargs : Typings R args) : ∀ a, some a ∈ Lowering.byPosition args → R.Typing a := by
  intro a ha
  obtain ⟨arg, hmem, heq⟩ := List.mem_map.mp ha
  cases heq
  exact hargs arg hmem

theorem finds (h : R.Closed env) (hargs : Typings R args) {explicit : List Ty} (hexplicit : ∀ t ∈ explicit, R.ty t)
    {expected : Option Ty} (hexpected : ∀ t ∈ expected, R.ty t) : R.Finds args explicit expected := by
  intro typeParams params result slots types htypeParams hparams hslots hresolve
  refine h.resolveTypeArgs htypeParams hparams (fun a ha => ?_) hexplicit (by simpa using hexpected) hresolve
  obtain ⟨name, hmem⟩ := hslots a ha
  exact hargs _ hmem

end Rule.Closed

/-! ## Extractions -/

namespace Rule

def Shape (R : Rule) : Match.UnapplyShape → Prop
  | .bool => True
  | .option payload expand => R.ty payload ∧ ∀ types ∈ expand, ∀ t ∈ types, R.ty t

def Extraction (R : Rule) : Match.Extraction → Prop
  | .unapply companion param shape => R.Headed companion ∧ R.ty param ∧ R.Shape shape
  | .structural head fields _ => R.ty head ∧ ∀ f ∈ fields, R.ty f.ty
  | .sequence seq elem _ => R.ty seq ∧ R.Result elem
  | .reflective head => R.Headed head

/-- The subject of an extractor call and the type arguments written there. -/
structure Site (R : Rule) (site : Match.Site) : Prop where
  subject : R.Result site.subject
  typeArgs : ∀ t ∈ site.call.typeArgs, R.ty t

end Rule

namespace Rule.Formed

variable {args : List Ty} {site : Match.Site} {name : String} {unapply : Method} {x : Match.Extraction} {e : TypeEntry}
  (h : R.Formed env)

theorem explicitArgs? (hsite : R.Site site) {params : List String} (hs : site.explicitArgs? params = some args) :
    ∀ t ∈ args, R.ty t := by
  unfold Match.Site.explicitArgs? at hs
  split at hs
  · cases hs
    exact hsite.typeArgs
  · cases hs

include h

theorem companionArgs? {head : String} {subject : Ty} (hsubject : R.Result subject)
    (hs : Match.companionArgs? env e head subject = some args) : ∀ t ∈ args, R.ty t := by
  obtain ⟨companion, -, hs⟩ := Option.bind_eq_some_iff.mp hs
  split at hs
  · refine forall_mem_of_mapM hs fun i t ht => ?_
    exact h.args_result hsubject t (List.mem_of_getElem? (Option.filter_eq_some_iff.mp ht).1)
  · cases hs

theorem extractorArgs (he : env.type? name = some e) (hsite : R.Site site)
    (hs : Match.extractorArgs env e unapply site = .ok args) : ∀ t ∈ args, R.ty t := by
  unfold Match.extractorArgs at hs
  split at hs
  · cases hs
    simp
  · have hsubject := h.expand_result hsite.subject
    dsimp only at hs
    split at hs
    · rename_i args' hargs
      cases hs
      simp only [Option.orElse_eq_orElse, Option.orElse_eq_or, Option.or_eq_some_iff] at hargs
      rcases hargs with hargs | ⟨-, hargs | ⟨-, hargs⟩⟩
      · exact explicitArgs? hsite hargs
      · exact h.companionArgs? hsubject hargs
      · obtain ⟨param, -, hargs⟩ := Option.bind_eq_some_iff.mp hargs
        exact h.unifyAll (h.entry he).typeParams hsubject hargs
    · cases hs

theorem unapplyShape {result : Ty} (hr : R.Result result) {shape : Match.UnapplyShape}
    (hs : Match.unapplyShape site result = .ok shape) : R.Shape shape := by
  have hpayload : R.ty (result.args.headD .any) := headD (h.args_result hr) h.any
  unfold Match.unapplyShape at hs
  split at hs
  · split at hs
    · cases hs
      trivial
    · cases hs
  · dsimp only at hs
    split at hs
    · cases hs
      exact ⟨hpayload, by simp⟩
    · split at hs
      · cases hs
        exact ⟨hpayload, by simpa using h.args hpayload⟩
      · cases hs

theorem directUnapply (he : env.type? name = some e) (hm : e.method? "Unapply" = some unapply) (hsite : R.Site site)
    (hs : Match.directUnapply env e unapply site = .ok x) : R.Extraction x := by
  obtain ⟨args, hargs, hs⟩ := checked_bind_ok hs
  have hargs := h.extractorArgs he hsite hargs
  have hsig := (h.entry he).methods _ unapply hm
  have hsubst := substitutes_ofParams (h.entry he).typeParams hargs
  split at hs
  · cases hs
  · obtain ⟨shape, hshape, rfl⟩ := checked_map_ok hs
    refine ⟨h.headedBuilt he (by simp [TypeEntry.isBuilt, hm]) hargs, ?_, h.unapplyShape (h.subst_result hsubst hsig.result) hshape⟩
    cases hparam : unapply.params.head? with
    | none => exact h.any
    | some param => exact h.subst hsubst (hsig.params param (List.mem_of_mem_head? hparam))

theorem reflectiveUnapply (he : env.type? name = some e)
    (hm : e.method? "Unapply" = some unapply) (hsite : R.Site site) (hs : Match.reflectiveUnapply env e site = .ok x) :
    R.Extraction x := by
  have hbuilt : ∀ args : List Ty, (∀ t ∈ args, R.ty t) → R.Headed ((env.typeRef e).apply args) := fun args hargs =>
    h.headedBuilt he (by simp [TypeEntry.isBuilt, hm]) hargs
  unfold Match.reflectiveUnapply at hs
  extract_lets reflected instantiated at hs
  have hinstantiated : instantiated () = .ok x → R.Extraction x := by
    intro hs
    dsimp only [instantiated] at hs
    split at hs
    · cases hs
      exact hbuilt [] (by simp)
    · split at hs
      · cases hs
        exact hbuilt _ (explicitArgs? hsite (by assumption))
      · cases hs
  split at hs
  · cases hs
  · exact hinstantiated hs

theorem instantiateHead (he : env.type? name = some e) (hbuilt : e.isBuilt = true)
    (hsite : R.Site site) {head : Ty × Bool} (hs : Match.instantiateHead env e site = .ok head) : R.ty head.1 := by
  unfold Match.instantiateHead at hs
  dsimp only at hs
  split at hs
  · rename_i hknown
    cases hs
    refine (h.expand_result hsite.subject).ty ?_
    -- A type that is known has a declaration at its head.
    cases hvoid : env.expand site.subject <;> simp_all [Env.entry?, Ty.isVoid]
  · split at hs
    · split at hs
      · cases hs
        have hhead : R.ty ((env.typeRef e).apply []) := h.built he hbuilt (by simp)
        exact hhead
      · split at hs
        · cases hs
          exact h.built he hbuilt (explicitArgs? hsite (by assumption))
        · cases hs
    · cases hs

theorem structuralMatch (he : env.type? name = some e) (hbuilt : e.isBuilt = true)
    (hsite : R.Site site) (hs : Match.structuralMatch env e site = .ok x) : R.Extraction x := by
  unfold Match.structuralMatch at hs
  split at hs
  · cases hs
  · obtain ⟨⟨head, downcast⟩, hhead, hs⟩ := checked_bind_ok hs
    obtain ⟨fields, hfields, rfl⟩ := checked_map_ok hs
    have hhead := h.instantiateHead he hbuilt hsite hhead
    refine ⟨hhead, forall_mem_of_mapM_ok hfields fun name f _ hf => ?_⟩
    split at hf
    · cases hf
      exact h.field? hhead (by assumption)
    · cases hf

theorem sequenceMatch (he : env.type? name = some e) (hbuilt : e.isBuilt = true)
    (hsite : R.Site site) (hs : Match.sequenceMatch env e site = .ok x) : R.Extraction x := by
  obtain ⟨rest, -, hs⟩ := checked_bind_ok hs
  obtain ⟨⟨seq, downcast⟩, hhead, hs⟩ := checked_bind_ok hs
  have hhead := h.instantiateHead he hbuilt hsite hhead
  dsimp only at hs
  split at hs
  · cases hs
  · cases hs
    refine ⟨hhead, ?_⟩
    cases hget : env.methodSignature? seq "Get" with
    | none => exact .inr h.any
    | some m => exact (h.methodSignature? hhead hget).result

theorem resolve (hsite : R.Site site) (hs : Match.resolve env site = .ok x) : R.Extraction x := by
  unfold Match.resolve at hs
  split at hs
  · cases hs
  · rename_i e he
    split at hs
    · rename_i unapply hm
      split at hs
      · exact h.directUnapply he hm hsite hs
      · split at hs
        · exact h.reflectiveUnapply he hm hsite hs
        · cases hs
    · split at hs
      · rename_i hstruct
        simp only [Bool.and_eq_true] at hstruct
        exact h.structuralMatch he (by simp [TypeEntry.isBuilt, hstruct.1.1]) hsite hs
      · split at hs
        · rename_i hseq
          exact h.sequenceMatch he (by simp [TypeEntry.isBuilt, hseq]) hsite hs
        · split at hs
          · cases hs
          · cases hs

end Rule.Formed

end Lowering