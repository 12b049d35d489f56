/-
  Composed — properties that lowering takes over from what it is put together from.

  Lowering is put together from a few actions: asking for types, looking names up, taking names from the supply,
  noting packages, failing, and brackets. A property that holds of these and is kept by putting actions after one
  another (`Composes`) holds of lowering in every position.
-/

import Lowering.Proofs.MatchCode

namespace Lowering

open Source (Expr Stmt Clause ValDecl LambdaParam Arg)

/-! ## Scopes that agree -/

namespace Scope

def Agree (names : String → Prop) (s s' : Scope) : Prop := ∀ x, names x → s'.find? x = s.find? x

namespace Agree

variable {names : String → Prop} {s s' : Scope} {x : String}

theorem contains (h : s.Agree names s') (hx : names x) : s'.contains x = s.contains x := by
  unfold Scope.contains
  rw [h x hx]

theorem typeOf (h : s.Agree names s') (hx : names x) : s'.typeOf x = s.typeOf x := by
  unfold Scope.typeOf
  rw [h x hx]

end Agree

end Scope

def Source.Expr.MentionsOnly (names : String → Prop) (e : Expr) : Prop :=
  ∀ x, e.references x = true → names x

def Source.Clause.MentionsOnly (names : String → Prop) (c : Clause) : Prop :=
  ∀ x, c.references x = true → names x

theorem packageOf?_congr {names : String → Prop} {env : Env} (h : scope.Agree names scope') {e : Expr}
    (he : e.MentionsOnly names) : packageOf? env scope' e = packageOf? env scope e := by
  cases e with
  | ident name =>
    have hname : names name := he name (by simp [Expr.references])
    dsimp only [packageOf?]
    rw [h.contains hname]
  | _ => rfl

/-! ## Properties of actions -/

abbrev Lower.Property := (α : Type) → Lower α → Prop

open Lower (Property)

/-- The properties pass from parts to the whole where these names are looked up: `holds` of actions that leave the
    scope as it was, `declares` of a statement and `binds` of actions in a frame of their own. -/
structure Composes (names : String → Prop) (holds binds : Property) (declares : Stmt → Property) : Prop where
  pure {α : Type} (a : α) : holds α (Pure.pure a)
  fail {α : Type} (fault : Fault) (span : Span) : holds α (Lower.fail fault span)
  /-- What follows only has to be looked at for results there are. -/
  bind_of {α β : Type} {x : Lower α} {f : α → Lower β} : holds α x →
    (∀ a s s', x s = .ok a s' → holds β (f a)) → holds β (x >>= f)
  /-- What is done with the scope is the same for scopes that agree. -/
  look {α : Type} {f : Scope → Lower α} : (∀ s s', s.Agree names s' → f s' = f s) → (∀ s, holds α (f s)) →
    holds α (Lower.scope >>= f)
  /-- What is done is the same inside the same functions. -/
  inFunctions {α : Type} {f : LowerState → Lower α} : (∀ s s', s'.functions = s.functions → f s' = f s) →
    (∀ s, holds α (f s)) → holds α (get >>= f)
  inference (env : Env) : holds _ (Lower.inference env)
  fresh : holds _ Lower.fresh
  freshFlag : holds _ Lower.freshFlag
  notePackage (env : Env) (package : String) : holds _ (Lower.notePackage env package)
  compilePattern (env : Env) (p : Located Source.Pattern) (subject : Target.Expr) (ty : Ty) :
    holds _ (Lower.compilePattern env p subject ty)
  typeOf (env : Env) {e : Located Expr} : e.val.MentionsOnly names → holds _ (Lower.typeOf env e)
  askCallee (env : Env) {e : Located Expr} : e.val.MentionsOnly names → holds _ (Lower.ask env (·.askCalleeOf e))
  askClauses (env : Env) (subject : Ty) {clauses : List Clause} : (∀ c ∈ clauses, c.MentionsOnly names) →
    holds _ (Lower.ask env (·.askClauses subject clauses))
  askTypeArgs (env : Env) (callee : Lower.Generic) {args : List (Option Piece)} (explicit : List Ty)
    (expected : Option Ty) : (∀ p, some p ∈ args → p.source.val.MentionsOnly names) →
    holds _ (Lower.ask env (Lower.typeArgsQuestion callee args explicit expected))
  withFunction {α : Type} {act : Lower α} (result : Ty) (synthetic : Bool) : holds α act →
    holds α (Lower.withFunction result synthetic act)
  nested {α : Type} {act : Lower α} (env : Env) (span : Span) : holds α act → holds α (Lower.nested env span act)
  withScope {α : Type} {act : Lower α} : binds α act → holds α (Lower.withScope act)
  bindAll (bindings : List (String × Ty)) : binds _ (Lower.bindAll bindings)
  binds_of_declares {α : Type} {act : Lower α} {stmt : Stmt} : declares stmt α act → binds α act
  andThen {α β : Type} {x : Lower α} {f : α → Lower β} : binds α x → (∀ a, binds β (f a)) → binds β (x >>= f)
  declares_of {α : Type} {act : Lower α} (stmt : Stmt) : holds α act → declares stmt α act
  declareAfter {α β : Type} {x : Lower α} {f : α → Lower β} {stmt : Stmt} : holds α x →
    (∀ a, declares stmt β (f a)) → declares stmt β (x >>= f)
  declare (decl : ValDecl) (mutability : Mutability) (ty : Ty) :
    declares (.val decl) _ (Lower.bind decl.name.val mutability ty)
  declaresMap {α β : Type} {x : Lower α} {stmt : Stmt} (f : α → β) : declares stmt α x →
    declares stmt β (x >>= fun a => Pure.pure (f a))

/-! ## Pieces -/

/-- The piece has the property in every position, and so do the pieces of its operands. -/
inductive Piece.Has (names : String → Prop) (holds : Property) : Piece → Prop
  | mk {p : Piece} (source : p.source.val.MentionsOnly names) (value : ∀ expected, holds _ (p.value expected))
      (tail : ∀ result, holds _ (p.tail result)) (effect : holds _ p.effect) (body : ∀ result, holds _ (p.body result))
      (parts : ∀ q ∈ p.parts, q.Has names holds) : p.Has names holds

namespace Piece.Has

variable {names : String → Prop} {holds : Property} {p : Piece}

theorem source : p.Has names holds → p.source.val.MentionsOnly names
  | mk source _ _ _ _ _ => source

theorem value : p.Has names holds → ∀ expected, holds _ (p.value expected)
  | mk _ value _ _ _ _ => value

theorem tail : p.Has names holds → ∀ result, holds _ (p.tail result)
  | mk _ _ tail _ _ _ => tail

theorem effect : p.Has names holds → holds _ p.effect
  | mk _ _ _ effect _ _ => effect

theorem body : p.Has names holds → ∀ result, holds _ (p.body result)
  | mk _ _ _ _ body _ => body

theorem parts : p.Has names holds → ∀ q ∈ p.parts, q.Has names holds
  | mk _ _ _ _ _ parts => parts

end Piece.Has

structure ClausePiece.Has (names : String → Prop) (holds : Property) (c : ClausePiece) : Prop where
  source : c.source.MentionsOnly names
  guard : ∀ g ∈ c.guard, g.Has names holds
  body : c.body.Has names holds

structure StmtPiece.Has (names : String → Prop) (holds : Property) (declares : Stmt → Property)
    (p : StmtPiece) : Prop where
  run : ∀ later, declares p.source _ (p.run later)
  expr : ∀ e ∈ p.expr, e.Has names holds

/-! ## Arguments -/

namespace Lower

variable {args : List ArgPiece} {s s' : LowerState} {values : List Piece} {span : Span}

theorem positional_ok {callee : String} (h : positional callee args s = .ok values s') :
    values = args.map (·.value) ∧ s' = s := by
  unfold positional at h
  cases hname : args.findSome? (·.name) with
  | some name =>
    rw [hname] at h
    cases h
  | none =>
    rw [hname] at h
    exact pure_ok h

theorem checkArity_ok
    (h : checkArity callee expected found span s = .ok u s') : expected = found ∧ s' = s := by
  unfold checkArity at h
  split at h
  · rename_i heq
    exact ⟨beq_iff_eq.mp heq, (pure_ok h).2⟩
  · cases h

theorem checkedArgs_ok (h : checkedArgs callee args span s = .ok values s') :
    values = args.map (·.value) ∧ callee.params.length = args.length ∧ s' = s := by
  obtain ⟨values', s1, hvalues, h⟩ := bind_ok h
  obtain ⟨_, harity, rfl⟩ := map_ok h
  obtain ⟨rfl, rfl⟩ := positional_ok hvalues
  obtain ⟨hlength, rfl⟩ := checkArity_ok harity
  exact ⟨rfl, by simpa using hlength, rfl⟩

theorem mem_constructorArgs {fields : List String}
    (h : constructorArgs e span fields slots s = .ok values s') : ∀ p ∈ values, some p ∈ slots := by
  fun_induction constructorArgs e span fields slots generalizing values s s' with
  | case1 field fields slots value ih =>
    obtain ⟨rest, hrest, rfl⟩ := map_ok h
    intro p hp
    rcases List.mem_cons.mp hp with rfl | hp
    · exact .head _
    · exact .tail _ (ih hrest p hp)
  | case2 => cases h
  | case3 =>
    rw [(pure_ok h).1]
    simp

end Lower

def HasAll (names : String → Prop) (holds : Property) (args : List ArgPiece) : Prop :=
  ∀ a ∈ args, a.value.Has names holds

/-! ## Constructions -/

namespace Composes

open Lower (Generic)

variable {names : String → Prop} {holds binds : Property} {declares : Stmt → Property}
  (H : Composes names holds binds declares)
include H

variable {α β : Type} {f : α → Lower β} {c : Prop} {span : Span}

theorem bind {x : Lower α} (hx : holds α x) (hf : ∀ a, holds β (f a)) :
    holds β (x >>= f) := H.bind_of hx fun a _ _ _ => hf a

theorem map {x : Lower α} {f : α → β} (hx : holds α x) : holds β (x >>= fun a => Pure.pure (f a)) :=
  H.bind hx fun a => H.pure (f a)

theorem ofChecked {c : Checked α} : holds α (Lower.ofChecked c) := by
  cases c with
  | ok a => exact H.pure a
  | error d => exact H.fail d.fault d.span

omit H in
theorem ite [Decidable c] {x y : Lower α} (hx : holds α x) (hy : holds α y) :
    holds α (if c then x else y) := by
  split
  · exact hx
  · exact hy

theorem check [Decidable c] {f : PUnit → Lower α}
    (hy : holds α y) : holds α (if c then Lower.fail fault span >>= f else y) :=
  ite (H.bind_of (H.fail _ _) fun _ _ _ hfail => by cases hfail) hy

theorem mapM : ∀ (l : List α), (∀ a ∈ l, holds β (f a)) → holds _ (l.mapM f)
  | [], _ => by
    exact H.pure _
  | a :: l, h => by
    rw [List.mapM_cons]
    exact H.bind (h a (.head _)) fun _ => H.map (mapM l fun b hb => h b (.tail _ hb))

theorem binds_of {act : Lower α} (h : holds α act) : binds α act :=
  H.binds_of_declares (H.declares_of (.ret none) h)

variable {env : Env} {name : String} {source : Located Expr} {tail : Ty → Lower (List Target.Stmt)}
  {target receiver callee body subject value cond : Piece} {args : List ArgPiece} {s : LowerState}
  {values elems : List Piece} {clauses : List ClausePiece} {decl : ValDecl} {stmts : List StmtPiece}
  {expected : Option Ty} {typeArgs params : List Ty} {ty result : Ty} {e owner : TypeEntry} {position : Position}

theorem lowerGlobalName : holds _ (Lower.lowerGlobalName env name expected span) := by
  unfold Lower.lowerGlobalName
  split
  · exact H.check (H.map (H.notePackage _ _))
  · unfold Lower.lowerCompanionName
    split
    · exact H.fail _ _
    · exact H.map (H.notePackage _ _)
  · exact ite (H.pure _) (H.fail _ _)

theorem lowerIdent (hname : names name) : holds _ (Lower.lowerIdent env name expected span) := by
  refine H.look (fun _ _ h => by rw [h name hname]) fun scope => ?_
  cases scope.find? name with
  | some binding => exact H.pure _
  | none => exact H.lowerGlobalName

theorem isWrapperRead {e : Expr} (he : e.MentionsOnly names) : holds _ (Lower.isWrapperRead env e) := by
  unfold Lower.isWrapperRead
  split
  · rename_i name
    have hname : names name := he name (by simp [Expr.references])
    exact H.look (fun _ _ h => by rw [h name hname]) fun _ => H.pure _
  · rename_i target member
    have htarget : target.val.MentionsOnly names := fun x hx => he x (by simpa [Expr.references] using hx)
    refine H.look (fun _ _ h => by rw [packageOf?_congr h htarget]) fun scope => ?_
    cases packageOf? env scope target.val with
    | some _ => exact H.pure _
    | none => exact H.map (H.typeOf env htarget)
  · exact H.pure _

theorem readsWrapperOf {e : Located Expr} (he : e.val.MentionsOnly names) :
    holds _ (Lower.readsWrapperOf env e expected) := by
  unfold Lower.readsWrapperOf
  split
  · exact H.pure _
  · exact H.bind (H.isWrapperRead he) fun _ => ite (H.map (H.typeOf env he)) (H.pure _)

theorem inPlaceType (hs : source.val.MentionsOnly names) :
    holds _ (Lower.inPlaceType env source expected) := by
  unfold Lower.inPlaceType
  split
  · exact H.pure _
  · exact H.typeOf env hs

theorem invokeInPlace (hs : source.val.MentionsOnly names)
    (h : ∀ result, holds _ (tail result)) : holds _ (Lower.invokeInPlace env source expected tail) := by
  exact H.bind (H.inPlaceType hs) fun ty => H.check (H.map (H.withFunction _ _ (h _)))

theorem ofValue {value : Option Ty → Lower Target.Expr} {parts : List Piece}
    (hs : source.val.MentionsOnly names) (h : ∀ expected, holds _ (value expected)) (hparts : ∀ q ∈ parts, q.Has names holds) :
    (Piece.ofValue env source value parts).Has names holds := by
  have hvalue := fun expected => H.nested env source.span (h expected)
  have heffect : holds _ (Piece.ofValue env source value parts).effect :=
    H.nested _ _ (H.map (hvalue none))
  have htail : ∀ result, holds _ ((Piece.ofValue env source value parts).tail result) := fun result =>
    ite heffect (H.nested _ _ (ite heffect (H.map (hvalue _))))
  exact ⟨hs, hvalue, htail, heffect, htail, hparts⟩

theorem ofStmts (hs : source.val.MentionsOnly names)
    (ht : ∀ result, holds _ (tail result)) (he : holds _ effect) :
    (Piece.ofStmts env source tail effect).Has names holds := by
  have heffect := H.nested env source.span he
  have htail : ∀ result, holds _ ((Piece.ofStmts env source tail effect).tail result) := fun result =>
    ite heffect (H.nested _ _ (ht result))
  exact ⟨hs, fun _ => H.nested _ _ (H.invokeInPlace hs htail), htail, heffect, htail, List.forall_mem_nil _⟩

theorem lowerSelect {member : Located String} (h : target.Has names holds) :
    holds _ (Lower.lowerSelect env target member) := by
  refine H.look (fun _ _ hscope => by rw [packageOf?_congr hscope h.source]) fun scope => ?_
  cases packageOf? env scope target.source.val with
  | some package => exact H.pure _
  | none =>
    refine H.bind (H.typeOf env h.source) fun ty => H.check (H.bind (h.value none) fun _ => ?_)
    unfold Lower.lowerMember
    split
    · exact H.pure _
    · exact ite (H.pure _) (H.fail _ _)

/-! ### Calls -/

theorem positional : holds _ (Lower.positional name args) := by
  unfold Lower.positional
  split
  · exact H.fail _ _
  · exact H.pure _

theorem checkArity {wanted found : Nat} : holds _ (Lower.checkArity name wanted found span) := by
  exact ite (H.pure _) (H.fail _ _)

theorem calleeTypeArgs {callee : Generic} {args : List (Option Piece)}
    (ha : ∀ p, some p ∈ args → p.source.val.MentionsOnly names) :
    holds _ (Lower.calleeTypeArgs env callee args typeArgs expected span) := by
  unfold Lower.calleeTypeArgs
  extract_lets rest
  have hrest : holds _ (rest ()) := by
    refine H.bind (H.askTypeArgs env callee typeArgs expected ha) fun resolved => ?_
    cases resolved with
    | some typeArgs => exact H.pure _
    | none => exact ite (H.pure _) (H.fail _ _)
  exact H.check hrest

theorem knownTypeArgs {callee : Generic} {args : List (Option Piece)}
    (ha : ∀ p, some p ∈ args → p.source.val.MentionsOnly names) :
    holds _ (Lower.knownTypeArgs env callee args typeArgs expected span) := by
  refine H.bind (H.calleeTypeArgs ha) fun typeArgs => ?_
  cases typeArgs with
  | some typeArgs => exact H.pure _
  | none => exact H.fail _ _

theorem lowerArgs {typeParams : List String} {typeArgs : Option (List Ty)} (h : ∀ p ∈ values, p.Has names holds) :
    holds _ (Lower.lowerArgs params typeParams typeArgs values) :=
  H.mapM _ fun ap hap => (h ap.1 (List.of_mem_zip hap).1).value _

theorem checkedArgs {callee : Generic} : holds _ (Lower.checkedArgs callee args span) :=
  H.bind H.positional fun _ => H.map H.checkArity

omit H in
theorem has_of_checkedArgs {callee : Generic} (hargs : HasAll names holds args)
    {s' : LowerState} (h : Lower.checkedArgs callee args span s = .ok values s') : ∀ p ∈ values, p.Has names holds := by
  rw [(Lower.checkedArgs_ok h).1]
  simpa [HasAll] using hargs

omit H in
theorem sources (h : ∀ p ∈ values, p.Has names holds) :
    ∀ p, some p ∈ values.map some → p.source.val.MentionsOnly names := by
  simpa using fun p hp => (h p hp).source

theorem callFunction {f : FunctionEntry} (hargs : HasAll names holds args) :
    holds _ (Lower.callFunction env f typeArgs args expected span) := by
  refine H.bind_of H.checkedArgs fun values _ _ hvalues => ?_
  have hhas := has_of_checkedArgs hargs hvalues
  exact H.bind (H.calleeTypeArgs (sources hhas)) fun _ => H.bind (H.lowerArgs hhas)
    fun _ => H.map (H.notePackage _ _)

theorem callCompanion (hargs : HasAll names holds args) :
    holds _ (Lower.callCompanion env e typeArgs args expected span) := by
  unfold Lower.callCompanion
  split
  · exact H.fail _ _
  · refine H.bind_of H.checkedArgs fun values _ _ hvalues => ?_
    have hhas := has_of_checkedArgs hargs hvalues
    exact H.bind (H.knownTypeArgs (sources hhas)) fun _ => H.bind (H.lowerArgs hhas)
      fun _ => H.map (H.notePackage _ _)

theorem callMethod {m : Method} (hreceiver : receiver.Has names holds) (hargs : HasAll names holds args) :
    holds _ (Lower.callMethod env receiver ty owner name m typeArgs args expected span) := by
  refine H.bind_of H.checkedArgs fun values _ _ hvalues => ?_
  have hhas := has_of_checkedArgs hargs hvalues
  refine H.bind (H.calleeTypeArgs (sources hhas)) fun own =>
    H.bind (H.lowerArgs hhas) fun _ => H.bind (hreceiver.value none) fun _ => ?_
  cases (owner.method? name).map (MethodForm.of owner name) with
  | none => exact H.pure _
  | some form =>
    cases form with
    | extract => exact H.map (H.notePackage _ _)
    | _ => exact H.pure _

theorem constructorArgs {fields : List String} {slots : List (Option Piece)} :
    holds _ (Lower.constructorArgs e span fields slots) := by
  fun_induction Lower.constructorArgs e span fields slots with
  | case1 field fields slots value ih => exact H.map ih
  | case2 => exact H.fail _ _
  | case3 => exact H.pure _

theorem constructorElements {position : Nat} (h : ∀ p ∈ values, p.Has names holds) :
    holds _ (Lower.constructorElements env e ty span position values) := by
  induction values generalizing position with
  | nil => exact H.pure _
  | cons value values ih =>
    have hvalue := h value (.head _)
    exact H.bind (H.readsWrapperOf hvalue.source) fun _ => H.bind (hvalue.value _) fun _ =>
      H.bind H.ofChecked fun _ => H.map (ih fun p hp => h p (.tail _ hp))

theorem construct (hargs : HasAll names holds args) :
    holds _ (Lower.construct env e typeArgs args expected span) := by
  refine H.bind_of H.ofChecked fun slots s1 s2 hslots => ?_
  have hhas : ∀ p, some p ∈ slots → p.Has names holds := by
    intro p hp
    obtain ⟨name, hmem⟩ := (mem_arrange (Lower.ofChecked_ok hslots).1).mp hp
    obtain ⟨a, ha, heq⟩ := List.mem_map.mp hmem
    cases heq
    exact hargs a ha
  refine H.bind H.checkArity fun _ => H.bind_of H.constructorArgs fun values s3 s4 hvalues =>
    H.bind (H.knownTypeArgs fun p hp => (hhas p hp).source) fun _ => H.bind (H.notePackage _ _) fun _ =>
      H.map (H.constructorElements fun p hp => ?_)
  exact hhas p (Lower.mem_constructorArgs hvalues p hp)

theorem copyOverrides {seen : List String} (hargs : HasAll names holds args) :
    holds _ (Lower.copyOverrides env ty seen args) := by
  induction args generalizing seen with
  | nil =>
    exact H.pure _
  | cons arg args ih =>
    obtain ⟨name, value⟩ := arg
    cases name with
    | none =>
      exact H.fail _ _
    | some name =>
      have hvalue : value.Has names holds := hargs _ (.head _)
      exact H.check (H.bind H.ofChecked fun _ => H.bind (H.readsWrapperOf hvalue.source) fun _ =>
        H.bind (hvalue.value _) fun _ =>
          H.map (ih fun a ha => hargs a (.tail _ ha)))

theorem callCopy (hreceiver : receiver.Has names holds) (hargs : HasAll names holds args) :
    holds _ (Lower.callCopy env receiver ty owner args span) :=
  H.bind (H.copyOverrides hargs) fun _ => H.bind (hreceiver.value none) fun _ =>
    ite H.ofChecked (H.bind H.fresh fun _ => H.map H.ofChecked)

theorem callConversion (hargs : HasAll names holds args) : holds _ (Lower.callConversion ty args span) := by
  refine H.bind_of H.positional fun values _ _ hvalues => ?_
  have hhas : ∀ p ∈ values, p.Has names holds := by
    rw [(Lower.positional_ok hvalues).1]
    simpa [HasAll] using hargs
  split
  · exact H.map ((hhas _ (.head _)).value none)
  · exact H.fail _ _

theorem callValue (hcallee : callee.Has names holds) (hargs : HasAll names holds args) :
    holds _ (Lower.callValue callee params args span) :=
  H.bind_of H.checkedArgs fun _ _ _ hvalues => H.bind (hcallee.value none) fun _ =>
    H.map (H.lowerArgs (has_of_checkedArgs hargs hvalues))

theorem callUntyped (hcallee : callee.Has names holds) (hargs : HasAll names holds args) :
    holds _ (Lower.callUntyped callee args) := by
  unfold Lower.callUntyped
  extract_lets rest
  have hrest : ∀ function, holds _ (rest function) := fun function =>
    H.bind_of H.positional fun values _ _ hvalues => H.map (H.mapM _ fun p hp => by
      rw [(Lower.positional_ok hvalues).1] at hp
      obtain ⟨a, ha, rfl⟩ := List.mem_map.mp hp
      exact (hargs a ha).value none)
  split
  · exact ite (H.bind (H.pure _) hrest) (H.bind (hcallee.value none) hrest)
  · exact H.bind (hcallee.value none) hrest

omit H in
theorem receiverOf (h : callee.Has names holds) : (Lower.receiverOf callee).Has names holds := by
  unfold Lower.receiverOf
  cases hp : callee.parts with
  | nil => exact h
  | cons q parts => exact h.parts q (hp ▸ .head _)

theorem lowerCall (hcallee : callee.Has names holds) (hargs : HasAll names holds args) :
    holds _ (Lower.lowerCall env callee typeArgs args expected span) := by
  refine H.bind (H.askCallee env hcallee.source) fun called => ?_
  cases called with
  | function f => exact H.callFunction hargs
  | constructor e => exact H.construct hargs
  | companion e => exact H.callCompanion hargs
  | method ty owner name m => exact H.callMethod (receiverOf hcallee) hargs
  | copy ty owner => exact H.callCopy (receiverOf hcallee) hargs
  | conversion ty => exact H.callConversion hargs
  | unknown => exact H.callUntyped hcallee hargs
  | value ty =>
    cases ty with
    | func params results => exact H.callValue hcallee hargs
    | nil => exact H.callUntyped hcallee hargs
    | _ => exact H.fail _ _

/-! ### Lambdas and tuples -/

theorem lambdaFields {params : List LambdaParam} {expected : List Ty} :
    holds _ (Lower.lambdaFields span params expected) := by
  induction params generalizing expected with
  | nil =>
    exact H.pure _
  | cons p params ih =>
    simp only [Lower.lambdaFields]
    split
    · exact H.map ih
    · exact H.fail _ _

theorem lambdaResult {expected : Option (List Ty)} {body : Located Expr}
    (hb : body.val.MentionsOnly names) : holds _ (Lower.lambdaResult env expected body) := by
  have hinferred := H.bind (H.typeOf env hb) fun ty => H.pure (if ty.isNil then .any else ty)
  refine H.bind (H.inference _) fun inf => ?_
  split
  · exact H.pure _
  · exact ite (H.pure _) hinferred
  · exact hinferred

theorem lowerLambda {params : List LambdaParam} (hbody : body.Has names holds) :
    holds _ (Lower.lowerLambda env params body expected span) :=
  H.bind H.lambdaFields fun _ => H.withScope (H.andThen (H.bindAll _) fun _ =>
    H.binds_of (H.bind (H.lambdaResult hbody.source) fun _ =>
      H.map (H.withFunction _ _ (hbody.body _))))

theorem elementType {position : Nat} (h : value.source.val.MentionsOnly names) :
    holds _ (Lower.elementType env expected value position) := by
  unfold Lower.elementType
  extract_lets known
  have hknown : ∀ ty, holds _ (known ty) := fun ty => H.check (H.pure _)
  split
  · exact H.bind (H.pure _) hknown
  · exact H.bind (H.typeOf env h) hknown

theorem tupleElements {position : Nat} (h : ∀ p ∈ elems, p.Has names holds) :
    holds _ (Lower.tupleElements env params position elems) := by
  induction elems generalizing position with
  | nil =>
    exact H.pure _
  | cons elem elems ih =>
    have helem := h elem (.head _)
    exact H.bind (H.elementType helem.source) fun _ => H.bind (helem.value _) fun _ =>
      H.map (ih fun p hp => h p (.tail _ hp))

theorem lowerTuple (h : ∀ p ∈ elems, p.Has names holds) :
    holds _ (Lower.lowerTuple env elems expected span) := by
  exact H.check (H.map (H.tupleElements h))

/-! ### Matches -/

theorem withGuard {compiled : Match.CompiledPattern} {guard : Option Piece} (h : ∀ g ∈ guard, g.Has names holds) :
    holds _ (Lower.withGuard compiled guard) := by
  unfold Lower.withGuard
  split
  · exact H.pure _
  · exact H.map ((h _ rfl).value _)

omit H in
theorem clauseBody (h : body.Has names holds) : holds _ (Lower.clauseBody body position) := by
  cases position with
  | effect => exact h.effect
  | tail result => exact h.tail result

theorem clauseCode {clause : ClausePiece} {subject : Target.Expr} (h : clause.Has names holds) :
    holds _ (Lower.clauseCode env clause subject ty position) :=
  H.bind (H.compilePattern _ _ _ _) fun _ => H.withScope (H.andThen (H.bindAll _) fun _ =>
    H.binds_of (H.bind (H.withGuard h.guard) fun _ => H.map (clauseBody h.body)))

theorem clauseCodes {subject : Target.Expr} (h : ∀ c ∈ clauses, c.Has names holds) :
    holds _ (Lower.clauseCodes env subject ty position clauses) := by
  induction clauses with
  | nil =>
    exact H.pure _
  | cons clause clauses ih =>
    exact H.bind (H.clauseCode (h clause (.head _))) fun _ =>
      ite (H.pure _) (H.map (ih fun c hc => h c (.tail _ hc)))

theorem checkMatch (hs : subject.source.val.MentionsOnly names)
    (hc : ∀ c ∈ clauses, c.source.MentionsOnly names) :
    holds _ (Lower.checkMatch env subject clauses position span) := by
  refine H.bind (H.typeOf env hs) fun ty => ?_
  extract_lets checked
  have hchecked : holds _ (checked ()) := by
    refine H.bind H.ofChecked fun coverage => ?_
    cases position with
    | effect => exact H.pure _
    | tail result =>
      exact H.map (H.bind (H.inference _) fun _ => H.bind (H.askClauses env ty (List.forall_mem_map.mpr hc)) fun _ =>
        H.map H.ofChecked)
  exact H.check hchecked

theorem matchSubject (h : subject.Has names holds) : holds _ (Lower.matchSubject subject) :=
  H.bind (h.value none) fun _ => ite (H.pure _) (H.map H.fresh)

theorem matchFlag {clauses : Nat} : holds _ (Lower.matchFlag position clauses) := by
  unfold Lower.matchFlag
  split
  · exact ite (H.map H.freshFlag) (H.pure _)
  · exact H.pure _

theorem matchCode (hs : subject.Has names holds)
    (hc : ∀ c ∈ clauses, c.Has names holds) : holds _ (Lower.matchCode env subject clauses position span) :=
  H.bind (H.checkMatch hs.source fun c h => (hc c h).source) fun _ => H.bind (H.matchSubject hs) fun _ =>
    H.bind H.matchFlag fun _ => H.map (H.clauseCodes hc)

theorem lowerMatch (hs : subject.Has names holds)
    (hc : ∀ c ∈ clauses, c.Has names holds) : holds _ (Lower.lowerMatch env subject clauses position span) := by
  rw [Lower.lowerMatch_eq]
  exact H.map (H.matchCode hs hc)

theorem identPiece (hname : names name) : (Lower.identPiece env name span).Has names holds := by
  refine H.ofValue (fun x hx => ?_) (fun _ => H.lowerIdent hname) (List.forall_mem_nil _)
  simp only [Expr.references, beq_iff_eq] at hx
  exact hx ▸ hname

/-! ### Statements -/

theorem bindingType (h : decl.value.val.MentionsOnly names) : holds _ (Lower.bindingType env decl) := by
  unfold Lower.bindingType
  extract_lets known
  have hknown : ∀ ty, holds _ (known ty) := fun ty => H.check (H.pure _)
  split
  · exact H.bind (H.pure _) hknown
  · exact H.bind (H.typeOf env h) hknown

theorem storeValue (hs : source.val.MentionsOnly names) {value : Target.Expr} :
    holds _ (Lower.storeValue env source value ty) :=
  H.bind (H.isWrapperRead hs) fun _ => ite H.ofChecked H.ofChecked

theorem lowerLocal (hd : decl.value.val.MentionsOnly names) (h : value.Has names holds) :
    declares (.val decl) _ (Lower.lowerLocal env decl value) := by
  refine H.declareAfter (H.bindingType hd) fun ty => H.declareAfter (h.value _) fun lowered => ?_
  exact ite (H.declaresMap _ (H.declare decl _ _)) (H.declareAfter (H.storeValue hd) fun _ =>
    H.declareAfter H.ofChecked fun _ => H.declaresMap _ (H.declare decl _ _))

theorem valStmt (hd : decl.value.val.MentionsOnly names) (h : value.Has names holds) :
    (Lower.valStmt env decl value).Has names holds declares :=
  ⟨fun _ => H.declaresMap _ (H.lowerLocal hd h), fun _ he => nomatch he⟩

theorem assignTarget (h : target.Has names holds) : holds _ (Lower.assignTarget env target span) := by
  unfold Lower.assignTarget
  split
  · rename_i name hsource
    have hname : names name := h.source name (by simp [hsource, Expr.references])
    refine H.look (fun scope scope' hscope => ?_) fun _ => H.map H.ofChecked
    have hmutability : scope'.mutabilityOf? name = scope.mutabilityOf? name := by
      unfold Scope.mutabilityOf?
      rw [hscope name hname]
    simp only [Storage.checkAssignBinding, hmutability, hscope.typeOf hname]
  · rename_i receiver _ hparts
    have hreceiver := h.parts receiver (hparts ▸ .head _)
    exact H.bind (H.typeOf env hreceiver.source) fun _ => H.bind H.ofChecked fun _ =>
      H.map (hreceiver.value _)
  · rename_i sequence index _ hparts
    have hsequence := h.parts sequence (hparts ▸ .head _)
    have hindex := h.parts index (hparts ▸ .tail _ (.head _))
    refine H.bind (H.typeOf env hsequence.source) fun ty => ?_
    split
    · exact H.bind (hsequence.value _) fun _ => H.map (hindex.value _)
    · exact H.bind (hsequence.value _) fun _ => H.map (hindex.value _)
    · exact H.fail _ _
  · exact H.fail _ _

theorem assignStmt {op : Option BinaryOp} (ht : target.Has names holds)
    (hv : value.Has names holds) : (Lower.assignStmt env target op value span).Has names holds declares :=
  ⟨fun _ => H.declares_of _ (H.bind (H.assignTarget ht) fun _ => H.map (hv.value _)),
    fun _ he => nomatch he⟩

theorem exprStmt {e : Piece} (h : e.Has names holds) : (Lower.exprStmt e).Has names holds declares :=
  ⟨fun _ => H.declares_of _ h.effect, fun _ he => by cases he; exact h⟩

theorem lowerReturn {value : Option Piece} (h : ∀ v ∈ value, v.Has names holds) :
    holds _ (Lower.lowerReturn value span) := by
  refine H.inFunctions (fun _ _ h => by dsimp only; rw [h]) fun s => ?_
  split
  · exact H.fail _ _
  · refine H.check ?_
    cases value with
    | none => exact ite (H.pure _) (H.fail _ _)
    | some v => exact ite (H.bind (h v rfl).effect fun _ => H.pure _) ((h v rfl).tail _)

theorem returnStmt {value : Option Piece} (h : ∀ v ∈ value, v.Has names holds) :
    (Lower.returnStmt value span).Has names holds declares :=
  ⟨fun _ => H.declares_of _ (H.lowerReturn h), fun _ he => nomatch he⟩

theorem lowerStmts (h : ∀ p ∈ stmts, p.Has names holds declares) :
    binds _ (Lower.lowerStmts result stmts) := by
  have hrun : ∀ p ∈ stmts, ∀ later, binds _ (p.run later) := fun p hp later => H.binds_of_declares ((h p hp).run later)
  fun_induction Lower.lowerStmts result stmts with
  | case1 => exact H.binds_of (H.pure _)
  | case2 last e he hvoid => exact hrun last (.head _) []
  | case3 last e he hvoid => exact H.binds_of (((h last (.head _)).expr e he).tail result)
  | case4 last he => exact hrun last (.head _) []
  | case5 stmt later hlater ih =>
    exact H.andThen (hrun stmt (.head _) _) fun _ => H.andThen (ih (fun p hp => h p (.tail _ hp))
      fun p hp => hrun p (.tail _ hp)) fun _ => H.binds_of (H.pure _)

theorem lowerBlock (h : ∀ p ∈ stmts, p.Has names holds declares) :
    holds _ (Lower.lowerBlock stmts result span) :=
  H.withScope (H.andThen (H.lowerStmts h) fun _ => H.binds_of (H.check (H.pure _)))

theorem loopStmt {body : List StmtPiece} {source : Located Stmt} (hc : cond.Has names holds)
    (hb : ∀ p ∈ body, p.Has names holds declares) : (Lower.loopStmt cond body source).Has names holds declares :=
  ⟨fun _ => H.declares_of _ (H.bind (hc.value _) fun _ => H.map (H.lowerBlock hb)),
    fun _ he => nomatch he⟩

theorem blockPiece (hs : source.val.MentionsOnly names) (h : ∀ p ∈ stmts, p.Has names holds declares) :
    (Lower.blockPiece env source stmts).Has names holds := by
  have hblock : ∀ result, holds _ (Lower.lowerBlock stmts result source.span) := fun _ => H.lowerBlock h
  have hbraces := fun result => H.bind (hblock result) fun body => H.pure [Target.Stmt.block body]
  have hpiece : (Piece.ofStmts env source _ _).Has names holds := H.ofStmts hs hbraces (hbraces .void)
  refine ⟨hs, fun expected => ?_, hpiece.tail, hpiece.effect, hblock, List.forall_mem_nil _⟩
  unfold Lower.blockPiece
  split
  · rename_i e
    exact H.nested _ _ (((h _ (.head _)).expr e rfl).value expected)
  · exact hpiece.value expected

theorem ifPiece {thenBranch : Piece} {elseBranch : Option Piece} (hs : source.val.MentionsOnly names)
    (hc : cond.Has names holds) (ht : thenBranch.Has names holds) (he : ∀ e ∈ elseBranch, e.Has names holds) :
    (Lower.ifPiece env source cond thenBranch elseBranch).Has names holds := by
  refine H.ofStmts hs (fun result => ?_) (H.bind (hc.value _) fun _ => H.bind ht.effect fun _ => ?_)
  · cases elseBranch with
    | none => exact H.fail _ _
    | some e =>
      exact H.bind (hc.value _) fun _ => H.bind (ht.tail _) fun _ => H.map ((he e rfl).tail _)
  · cases elseBranch with
    | none => exact H.map (H.pure _)
    | some e => exact H.bind (he e rfl).effect fun _ => H.pure _

theorem matchPiece (hm : source.val.MentionsOnly names) (hs : subject.Has names holds)
    (hc : ∀ c ∈ clauses, c.Has names holds) : (Lower.matchPiece env source subject clauses).Has names holds :=
  H.ofStmts hm (fun _ => H.lowerMatch hs hc) (H.lowerMatch hs hc)

omit H

end Composes

/-! ## The source -/

/-- Properties that pass from parts to the whole, for all sets of names, and in which an argument may be looked up
    where it is bound. -/
structure Family (holds binds : (String → Prop) → Property) (declares : (String → Prop) → Stmt → Property) :
    Prop where
  composes : ∀ names, Composes names (holds names) (binds names) (declares names)
  bound {names : String → Prop} {α : Type} {act : Lower α} (arg : String) (param : Ty) :
    holds (fun x => names x ∨ x = arg) α act →
    holds names α (Lower.withScope (Lower.bind arg .val param >>= fun _ => act))

namespace Lower

variable {holds binds : (String → Prop) → Property} {declares : (String → Prop) → Stmt → Property}

theorem lowerCaseFunction_has (F : Family holds binds declares) {names : String → Prop} {clauses : List ClausePiece}
    {env : Env} (expected : Option Ty) (span : Span)
    (hc : ∀ arg, ∀ c ∈ clauses, c.Has (fun x => names x ∨ x = arg) (holds fun x => names x ∨ x = arg)) :
    holds names _ (lowerCaseFunction env clauses expected span) := by
  have H := F.composes names
  unfold lowerCaseFunction
  split
  · refine H.bind H.fresh fun arg => H.map (F.bound arg _ ?_)
    have H' := F.composes fun x => names x ∨ x = arg
    exact H'.withFunction _ _ (H'.lowerMatch (H'.identPiece (.inr rfl)) (hc arg))
  · exact H.fail _ _
  · exact H.fail _ _

variable (env : Env)

mutual

theorem piece_has (F : Family holds binds declares) : ∀ (e : Located Expr) {names},
    e.val.MentionsOnly names → (piece env e).Has names (holds names)
  | ⟨e, span⟩, names, h => by
    have H := F.composes names
    cases e with
    | lit _ | nil =>
      simp only [piece]
      exact H.ofValue h (fun _ => H.pure _) (List.forall_mem_nil _)
    | ident name =>
      simp only [piece]
      exact H.identPiece (h name (by simp [Expr.references]))
    | call callee typeArgs args =>
      obtain ⟨hl, hr⟩ := forall_or h
      have hcallee := piece_has F callee hl
      have hargs := argPieces_has F args hr
      simp only [piece]
      exact H.ofValue h (fun _ => H.lowerCall hcallee hargs) (List.forall_mem_nil _)
    | select target member =>
      have htarget := piece_has F target h
      simp only [piece]
      exact H.ofValue h (fun _ => H.lowerSelect htarget) (List.forall_mem_singleton.mpr htarget)
    | index target index =>
      obtain ⟨hl, hr⟩ := forall_or h
      have htarget := piece_has F target hl
      have hindex := piece_has F index hr
      simp only [piece]
      refine H.ofValue h (fun _ => ?_) (List.forall_mem_cons.mpr ⟨htarget, List.forall_mem_singleton.mpr hindex⟩)
      exact H.bind (H.typeOf env htarget.source) fun _ => H.bind (htarget.value _) fun _ =>
        H.map (hindex.value _)
    | binary left op right =>
      obtain ⟨hl, hr⟩ := forall_or h
      have hleft := piece_has F left hl
      have hright := piece_has F right hr
      simp only [piece]
      exact H.ofValue h (fun _ => H.bind (hleft.value _) fun _ => H.map (hright.value _))
        (List.forall_mem_nil _)
    | unary op operand =>
      have hoperand := piece_has F operand h
      simp only [piece]
      exact H.ofValue h (fun _ => H.map (hoperand.value _)) (List.forall_mem_nil _)
    | lambda params body =>
      have hbody := piece_has F body h
      simp only [piece]
      exact H.ofValue h (fun _ => H.lowerLambda hbody) (List.forall_mem_nil _)
    | ifElse cond thenBranch elseBranch =>
      cases elseBranch with
      | none =>
        obtain ⟨hl, hr⟩ := forall_or h
        have hcond := piece_has F cond hl
        have hthen := piece_has F thenBranch hr
        simp only [piece]
        exact H.ifPiece h hcond hthen fun _ he => nomatch he
      | some elseBranch =>
        obtain ⟨hl, he⟩ := forall_or h
        obtain ⟨hc, ht⟩ := forall_or hl
        have hcond := piece_has F cond hc
        have hthen := piece_has F thenBranch ht
        have helse := piece_has F elseBranch he
        simp only [piece]
        exact H.ifPiece h hcond hthen fun e he => Option.some.inj he ▸ helse
    | matchOn subject clauses =>
      obtain ⟨hl, hr⟩ := forall_or h
      have hsubject := piece_has F subject hl
      have hclauses := clausePieces_has F clauses hr
      simp only [piece]
      exact H.matchPiece h hsubject hclauses
    | tuple elems =>
      have helems := exprPieces_has F elems h
      simp only [piece]
      exact H.ofValue h (fun _ => H.lowerTuple helems) (List.forall_mem_nil _)
    | caseFunction clauses =>
      simp only [piece]
      refine H.ofValue h (fun _ => lowerCaseFunction_has F _ _ fun arg => ?_) (List.forall_mem_nil _)
      exact clausePieces_has F clauses fun x hx => .inl (h x (by simp [Expr.references, hx]))
    | block stmts =>
      have hstmts := stmtPieces_has F stmts h
      simp only [piece]
      exact H.blockPiece h hstmts

theorem exprPieces_has (F : Family holds binds declares) : ∀ (es : List (Located Expr)) {names},
    (∀ x, Expr.anyReferences x es = true → names x) → ∀ p ∈ exprPieces env es, p.Has names (holds names)
  | [], _, _ => by simp [exprPieces]
  | e :: es, names, h => by
    obtain ⟨hl, hr⟩ := forall_or h
    have he := piece_has F e hl
    have hes := exprPieces_has F es hr
    simp only [exprPieces]
    exact List.forall_mem_cons.mpr ⟨he, hes⟩

theorem argPieces_has (F : Family holds binds declares) : ∀ (args : List Arg) {names},
    (∀ x, Arg.anyReferences x args = true → names x) → HasAll names (holds names) (argPieces env args)
  | [], _, _ => by simp [argPieces, HasAll]
  | ⟨name, value⟩ :: args, names, h => by
    obtain ⟨hl, hr⟩ := forall_or h
    have hvalue := piece_has F value hl
    have hargs := argPieces_has F args hr
    simp only [argPieces]
    exact List.forall_mem_cons.mpr ⟨hvalue, hargs⟩

theorem clausePiece_has (F : Family holds binds declares) : ∀ (c : Clause) {names},
    c.MentionsOnly names → (clausePiece env c).Has names (holds names)
  | ⟨pattern, none, body⟩, names, h => by
    have hbody := piece_has F body h
    simp only [clausePiece]
    exact ⟨h, (fun _ hg => nomatch hg), hbody⟩
  | ⟨pattern, some guard, body⟩, names, h => by
    obtain ⟨hr, hl⟩ := forall_or h
    have hguard := piece_has F guard hl
    have hbody := piece_has F body hr
    simp only [clausePiece]
    exact ⟨h, fun g hg => Option.some.inj hg ▸ hguard, hbody⟩

theorem clausePieces_has (F : Family holds binds declares) : ∀ (cs : List Clause) {names},
    (∀ x, Clause.anyReferences x cs = true → names x) → ∀ c ∈ clausePieces env cs, c.Has names (holds names)
  | [], _, _ => by simp [clausePieces]
  | c :: cs, names, h => by
    obtain ⟨hl, hr⟩ := forall_or h
    have hc := clausePiece_has F c hl
    have hcs := clausePieces_has F cs hr
    simp only [clausePieces]
    exact List.forall_mem_cons.mpr ⟨hc, hcs⟩

theorem stmtPiece_has (F : Family holds binds declares) : ∀ (s : Located Stmt) {names},
    (∀ x, s.val.references x = true → names x) → (stmtPiece env s).Has names (holds names) (declares names)
  | ⟨s, span⟩, names, h => by
    have H := F.composes names
    cases s with
    | val decl =>
      obtain ⟨name, mutable, ty, value⟩ := decl
      have hvalue := piece_has F value h
      simp only [stmtPiece]
      exact H.valStmt h hvalue
    | assign target op value =>
      obtain ⟨hl, hr⟩ := forall_or h
      have htarget := piece_has F target hl
      have hvalue := piece_has F value hr
      simp only [stmtPiece]
      exact H.assignStmt htarget hvalue
    | expr e =>
      have he := piece_has F e h
      simp only [stmtPiece]
      exact H.exprStmt he
    | ret value =>
      cases value with
      | none =>
        simp only [stmtPiece]
        exact H.returnStmt fun _ hv => nomatch hv
      | some value =>
        have hvalue := piece_has F value h
        simp only [stmtPiece]
        exact H.returnStmt fun v hv => Option.some.inj hv ▸ hvalue
    | loop cond body =>
      obtain ⟨hl, hr⟩ := forall_or h
      have hcond := piece_has F cond hl
      have hbody := stmtPieces_has F body hr
      simp only [stmtPiece]
      exact H.loopStmt hcond hbody

theorem stmtPieces_has (F : Family holds binds declares) : ∀ (ss : List (Located Stmt)) {names},
    (∀ x, Stmt.anyReferences x ss = true → names x) → ∀ p ∈ stmtPieces env ss, p.Has names (holds names) (declares names)
  | [], _, _ => by simp [stmtPieces]
  | s :: ss, names, h => by
    obtain ⟨hl, hr⟩ := forall_or h
    have hs := stmtPiece_has F s hl
    have hss := stmtPieces_has F ss hr
    simp only [stmtPieces]
    exact List.forall_mem_cons.mpr ⟨hs, hss⟩

end

end Lower

end Lowering
