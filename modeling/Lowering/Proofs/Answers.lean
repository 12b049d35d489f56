/-
  Answers — a question leaves the scope as it was.

  Typing an expression enters frames, binds in them and leaves them again. What a bracket around such uses of the
  scope gives back is the scope it was given as long as only the innermost frame was bound in (`Scope.Inner`).
-/

import Lowering.Inference.Query

namespace Lowering

open Source (Expr Stmt Clause Arg LambdaParam)

/-! ## The innermost frame -/

namespace Scope

/-- The scopes differ in the innermost frame at most. -/
structure Inner (s s' : Scope) : Prop where
  outer : s'.inner.tail = s.inner.tail
  depth : s'.inner.length = s.inner.length
  package : s.inner ≠ [] → s'.package = s.package

namespace Inner

theorem refl (s : Scope) : s.Inner s := ⟨rfl, rfl, fun _ => rfl⟩

theorem trans {s1 s2 s3 : Scope} (h : s1.Inner s2) (h' : s2.Inner s3) : s1.Inner s3 where
  outer := h'.outer.trans h.outer
  depth := h'.depth.trans h.depth
  package hne := by
    have hne2 : s2.inner ≠ [] := by
      rwa [← List.length_pos_iff, h.depth, List.length_pos_iff]
    exact (h'.package hne2).trans (h.package hne)

end Inner

theorem inner_bind (s : Scope) (name : String) (mutability : Mutability) (ty : Ty) :
    s.Inner (s.bind name mutability ty) := by
  obtain ⟨inner, package⟩ := s
  cases inner with
  | nil => exact ⟨rfl, rfl, fun hne => absurd rfl hne⟩
  | cons frame outer => exact ⟨rfl, rfl, fun _ => rfl⟩

theorem inner_bindAll (s : Scope) {bindings : List (String × Ty)} : s.Inner (s.bindAll bindings) :=
  List.foldlRecOn _ _ (.refl s) fun s' hs b _ => hs.trans (s'.inner_bind b.1 .val b.2)

theorem leave_of_inner {s s' : Scope} (h : s.enter.Inner s') : s'.leave = s := by
  obtain ⟨inner, package⟩ := s'
  have houter : inner.tail = s.inner := h.outer
  have hpackage : package = s.package := h.package (List.cons_ne_nil _ _)
  rw [leave, houter, hpackage]

end Scope

/-! ## Answers -/

def Query.Answers {α : Type} (q : Query α) (scope : Scope) (a : α) : Prop := q scope = (a, scope)

def Query.Restores {α : Type} (q : Query α) : Prop := ∀ scope, (q.run scope).2 = scope

variable {α : Type} {slots slots' : List (Option α)} {b : α} {args : List (NamedArg α)}

theorem Query.restores_of_answers {q : Query α} {a : Scope → α} (h : ∀ scope, q.Answers scope (a scope)) :
    q.Restores := fun scope => congrArg Prod.snd (h scope)

namespace Query.Answers

variable {α β : Type} {scope : Scope}

theorem pure (a : α) : (Pure.pure a : Query α).Answers scope a := rfl

theorem get : (MonadState.get : Query Scope).Answers scope scope := rfl

variable {a : α} {q : Query α}

theorem run_bind (hq : q.Answers scope a) (f : α → Query β) : (q >>= f) scope = f a scope := by
  unfold Query.Answers at hq
  simp only [Bind.bind, StateT.bind, hq]

theorem bind (hq : q.Answers scope a) (hf : (f a).Answers scope b) :
    (q >>= f).Answers scope b :=
  (hq.run_bind f).trans hf

theorem map {f : α → β} (hq : q.Answers scope a) : (do return f (← q)).Answers scope (f a) := hq.bind (.pure _)

theorem inFrame {scope' : Scope} (hq : q scope.enter = (a, scope')) (hinner : scope.enter.Inner scope') :
    q.inFrame.Answers scope a := by
  have hrun : q.inFrame scope = (a, scope'.leave) := by
    show ((q scope.enter).1, (q scope.enter).2.leave) = _
    rw [hq]
  rw [Query.Answers, hrun, Scope.leave_of_inner hinner]

theorem declareAll (bindings : List (String × Ty)) (hq : q.Answers (scope.enter.bindAll bindings) a) : (Query.inFrame do
      Query.declareAll bindings
      q).Answers scope a := by
  have hrun : (do
      Query.declareAll bindings
      q) scope.enter = (a, scope.enter.bindAll bindings) := hq
  exact .inFrame hrun scope.enter.inner_bindAll

theorem optionBind {x : OptionT Query α} {f : α → OptionT Query β} {o : Option α} {g : α → Option β}
    (hx : Query.Answers x.run scope o) (hf : ∀ a, Query.Answers (f a).run scope (g a)) :
    Query.Answers (x >>= f).run scope (o.bind g) := by
  rw [OptionT.run_bind]
  refine Answers.bind hx ?_
  cases o with
  | none => exact .pure none
  | some a => exact hf a

theorem foldlM {γ : Type} {f : α → γ → OptionT Query α} {g : α → γ → Option α} {l : List γ}
    (hf : ∀ c ∈ l, ∀ a, Query.Answers (f a c).run scope (g a c)) (a : α) :
    Query.Answers (l.foldlM f a).run scope (l.foldlM g a) := by
  induction l generalizing a with
  | nil => exact .pure (some a)
  | cons c l ih =>
    exact .optionBind (hf c (.head _) a) (ih fun c' hc' => hf c' (.tail _ hc'))

end Query.Answers

/-! ## Arguments -/

section

variable {α β : Type} (f : α → β)

theorem placeArg_map (names : List String) (slots : List (Option α)) (name : Located String) (a : α) :
    placeArg names (slots.map (Option.map f)) name (f a) =
      (placeArg names slots name a).map (List.map (Option.map f)) := by
  unfold placeArg
  cases names.findIdx? (· == name.val) with
  | none => rfl
  | some i =>
    simp only [List.getElem?_map]
    cases slots[i]? with
    | none => rfl
    | some slot =>
      cases slot with
      | some b => rfl
      | none =>
        have hset : (slots.map (Option.map f)).set i (some (f a)) = (slots.set i (some a)).map (Option.map f) := by
          rw [List.map_set, Option.map_some]
        exact congrArg Except.ok hset

theorem placeArgs_map (names : List String) (slots : List (Option α)) (args : List (NamedArg α)) :
    placeArgs names (slots.map (Option.map f)) (args.map fun a => (a.1, f a.2)) =
      (placeArgs names slots args).map (List.map (Option.map f)) := by
  induction args generalizing slots with
  | nil => rfl
  | cons arg args ih =>
    obtain ⟨name, a⟩ := arg
    cases name with
    | none => exact ih slots
    | some name =>
      simp only [List.map_cons, placeArgs, placeArg_map]
      cases placeArg names slots name a with
      | error d => rfl
      | ok slots => exact ih slots

theorem arrange_map (names : List String) (args : List (NamedArg α)) (span : Span) :
    arrange names (args.map fun a => (a.1, f a.2)) span = (arrange names args span).map (List.map (Option.map f)) := by
  have hslots : (List.replicate names.length none : List (Option β)) =
      (List.replicate names.length none).map (Option.map f) := by
    rw [List.map_replicate, Option.map_none]
  unfold arrange
  simp only [List.all_map, List.any_map, Function.comp_def]
  split
  · simp [byPosition, Except.map, Pure.pure, Except.pure]
  · split
    · rfl
    · rw [hslots, placeArgs_map]

end

variable {names : List String}

theorem mem_placeArg (h : placeArg names slots name a = .ok slots') : some b ∈ slots' ↔ some b ∈ slots ∨ b = a := by
  unfold placeArg at h
  split at h
  · cases h
  · rename_i i _
    split at h
    · rename_i hslot
      cases h
      obtain ⟨hi, hnone⟩ := List.getElem?_eq_some_iff.mp hslot
      have hslots : slots = slots.take i ++ none :: slots.drop (i + 1) := by
        rw [← hnone, ← List.drop_eq_getElem_cons hi, List.take_append_drop]
      have hmem : some b ∈ slots ↔ some b ∈ slots.take i ∨ some b ∈ slots.drop (i + 1) := by
        conv => lhs; rw [hslots]
        simp
      simp [List.set_eq_take_append_cons_drop, hi, hmem, or_assoc, or_comm (a := b = a)]
    · cases h

theorem mem_placeArgs (hnamed : args.any (·.1.isNone) = false) (h : placeArgs names slots args = .ok slots') :
    some b ∈ slots' ↔ some b ∈ slots ∨ ∃ name, (name, b) ∈ args := by
  fun_induction placeArgs names slots args with
  | case1 slots =>
    cases h
    simp
  | case2 => simp at hnamed
  | case3 slots name a args ih =>
    cases hplace : placeArg names slots name a with
    | error d =>
      rw [hplace] at h
      cases h
    | ok slots1 =>
      rw [hplace] at h
      rw [ih slots1 (by simpa using hnamed) h, mem_placeArg hplace]
      simp [or_assoc, exists_or]

theorem mem_arrange (h : arrange names args span = .ok slots) :
    some b ∈ slots ↔ ∃ name, (name, b) ∈ args := by
  unfold arrange at h
  split at h
  · cases h
    simp [byPosition]
  · split at h
    · cases h
    · rename_i hnamed
      rw [mem_placeArgs (Bool.eq_false_iff.mpr hnamed) h]
      simp

namespace ArgQuery

def typing (scope : Scope) : ArgQuery → ArgTyping
  | .plain ty => .plain fun _ => (ty scope).1
  | .lambda ty => .lambda fun expected => (ty expected scope).1
  | .caseFunction => .caseFunction

def Restores (scope : Scope) : ArgQuery → Prop
  | .plain ty => ty.Answers scope (ty scope).1
  | .lambda ty => ∀ expected, (ty expected).Answers scope (ty expected scope).1
  | .caseFunction => True

end ArgQuery

section

variable {scope : Scope} {args : List (Option ArgQuery)}

variable {pair : Ty × ArgQuery}

theorem Unifier.askPlain_answers (u : Unifier) (h : pair.2.Restores scope) :
    Query.Answers (u.askPlain pair).run scope (u.unifyPlain (pair.1, pair.2.typing scope)) := by
  obtain ⟨param, arg⟩ := pair
  cases arg with
  | plain ty => exact Query.Answers.map h
  | lambda ty | caseFunction => exact .pure _

theorem Unifier.askLambda_answers (u : Unifier) (h : pair.2.Restores scope) :
    Query.Answers (u.askLambda pair).run scope (u.unifyLambda (pair.1, pair.2.typing scope)) := by
  obtain ⟨param, arg⟩ := pair
  cases arg with
  | plain ty => exact .pure _
  | lambda ty => exact Query.Answers.map (h _)
  | caseFunction => exact .pure _

theorem askTypeArgs_answers {typeParams : List String} {params : List Ty} (h : ∀ a, some a ∈ args → a.Restores scope)
    {explicit : List Ty} {expected : Option (Ty × Ty)} :
    (askTypeArgs typeParams params args explicit expected).Answers scope
      (resolveTypeArgs typeParams params (args.map (Option.map (·.typing scope))) explicit expected) := by
  unfold askTypeArgs resolveTypeArgs
  split
  · exact .pure _
  split
  · exact .pure _
  have hpairs : (params.zip (args.map (Option.map (·.typing scope)))).filterMap (fun p => p.2.map (p.1, ·)) =
      ((params.zip args).filterMap fun p => p.2.map (p.1, ·)).map fun p => (p.1, p.2.typing scope) := by
    rw [List.zip_map_right, List.filterMap_map, List.map_filterMap]
    congr 1
    funext p
    obtain ⟨param, arg⟩ := p
    cases arg <;> rfl
  have hrestores : ∀ p ∈ (params.zip args).filterMap fun p => p.2.map (p.1, ·), p.2.Restores scope := by
    intro p hp
    obtain ⟨⟨param, arg⟩, hmem, hp⟩ := List.mem_filterMap.mp hp
    obtain ⟨a, rfl, rfl⟩ := Option.map_eq_some_iff.mp hp
    exact h a (List.of_mem_zip hmem).2
  simp only [hpairs, List.foldlM_map, Option.bind_eq_bind]
  refine .optionBind (.foldlM (fun p hp u => u.askPlain_answers (hrestores p hp)) _) fun u => ?_
  refine .optionBind (.foldlM (fun p hp u => u.askLambda_answers (hrestores p hp)) _) fun u => ?_
  exact .optionBind (.pure _) fun u => .pure _

end

/-! ## Calls -/

theorem askCallee_answers {env : Env} {callee : Expr} (ht : targetType.Answers scope target)
    (ho : ownType.Answers scope own) : (askCallee env callee targetType ownType).Answers scope
      (calleeOf env scope callee (fun _ => target) (fun _ => own)) := by
  unfold askCallee calleeOf
  cases callee with
  | ident name => exact .bind .get (.pure _)
  | select target member =>
    refine .bind .get ?_
    dsimp only
    cases packageOf? env scope target.val with
    | some package => exact .pure _
    | none => exact .map ht
  | _ => exact .map ho

section

variable {scope : Scope}

def typingsIn (scope : Scope) (args : List (NamedArg ArgQuery)) : List (NamedArg ArgTyping) :=
  args.map fun a => (a.1, a.2.typing scope)

theorem byPosition_typingsIn (args : List (NamedArg ArgQuery)) :
    byPosition (typingsIn scope args) = (byPosition args).map (Option.map (·.typing scope)) := by
  simp [byPosition, typingsIn]

theorem askGeneric_answers {typeParams : List String} {params : List Ty} {result : Ty} {args : List (Option ArgQuery)}
    (h : ∀ a, some a ∈ args → a.Restores scope) :
    (askGeneric typeParams params result args explicit expected).Answers scope
      (genericResult typeParams params result (args.map (Option.map (·.typing scope))) explicit expected) := by
  refine .bind (askTypeArgs_answers h) ?_
  unfold genericResult
  cases resolveTypeArgs typeParams params (args.map (Option.map (·.typing scope))) explicit
      (expected.map (result, ·)) with
  | none | some typeArgs => exact .pure _

theorem constructorSlots_typingsIn (fields : List String) (args : List (NamedArg ArgQuery)) (span : Span) :
    constructorSlots fields (typingsIn scope args) span =
      (constructorSlots fields args span).map (Option.map (·.typing scope)) := by
  unfold constructorSlots
  rw [typingsIn, arrange_map]
  cases arrange fields args span with
  | ok slots => rfl
  | error d => exact byPosition_typingsIn args

variable {args : List (NamedArg ArgQuery)}

theorem restores_byPosition (h : ∀ a ∈ args, a.2.Restores scope) :
    ∀ a, some a ∈ byPosition args → a.Restores scope := by
  intro a ha
  obtain ⟨arg, hmem, harg⟩ := List.mem_map.mp ha
  cases harg
  exact h arg hmem

theorem restores_constructorSlots (h : ∀ a ∈ args, a.2.Restores scope) :
    ∀ a, some a ∈ constructorSlots fields args span → a.Restores scope := by
  intro a ha
  unfold constructorSlots at ha
  split at ha
  · rename_i slots harrange
    obtain ⟨name, hmem⟩ := (mem_arrange harrange).mp ha
    exact h _ hmem
  · exact restores_byPosition h a ha

theorem constructedType_eq (args : List (NamedArg ArgTyping)) {span : Span} :
    constructedType env e args explicit expected span =
      (resolveTypeArgs e.typeParams e.fieldTypes (constructorSlots e.fields args span) explicit
        (expected.map (e.selfType (env.qualifier e.package), ·))).elim .nil (env.typeRef e).apply := by
  unfold constructedType constructorSlots
  cases arrange e.fields args span with
  | ok slots =>
    dsimp only
    cases resolveTypeArgs e.typeParams e.fieldTypes slots explicit
      (expected.map (e.selfType (env.qualifier e.package), ·)) <;> rfl
  | error d =>
    dsimp only
    cases resolveTypeArgs e.typeParams e.fieldTypes (byPosition args) explicit
      (expected.map (e.selfType (env.qualifier e.package), ·)) <;> rfl

theorem askConstructed_answers (h : ∀ a ∈ args, a.2.Restores scope) :
    (askConstructed env e args explicit expected span).Answers scope
      (constructedType env e (typingsIn scope args) explicit expected span) := by
  refine .bind (askTypeArgs_answers (restores_constructorSlots h)) ?_
  rw [constructedType_eq, ← constructorSlots_typingsIn]
  cases resolveTypeArgs e.typeParams e.fieldTypes (constructorSlots e.fields (typingsIn scope args) span) explicit
      (expected.map (e.selfType (env.qualifier e.package), ·)) with
  | some typeArgs | none => exact .pure _

theorem askCall_answers (callee : Callee) (h : ∀ a ∈ args, a.2.Restores scope) :
    (askCall env callee explicit args expected span).Answers scope
      (callResult env callee explicit (typingsIn scope args) expected span) := by
  have hgeneric : ∀ typeParams params result,
      (askGeneric typeParams params result (byPosition args) explicit expected).Answers scope
        (genericResult typeParams params result (byPosition (typingsIn scope args)) explicit expected) := by
    intro typeParams params result
    rw [byPosition_typingsIn]
    exact askGeneric_answers (restores_byPosition h)
  unfold askCall callResult
  cases callee with
  | function f => exact hgeneric f.typeParams f.params f.result
  | constructor e => exact askConstructed_answers h
  | companion e =>
    dsimp only
    cases e.method? "Apply" with
    | some m => exact hgeneric e.typeParams m.params m.result
    | none => exact .pure _
  | method receiver owner name m => exact hgeneric m.typeParams m.params m.result
  | value ty => cases ty <;> exact .pure _
  | _ => exact .pure _

end

/-! ## Expressions -/

namespace Inference

variable {scope : Scope} {ty : Ty}

theorem askSelect_answers (inf : Inference) {target : Expr} {member : String} (h : targetType.Answers scope ty) :
    (inf.askSelect target member targetType).Answers scope (inf.selectType scope target member fun _ => ty) := by
  refine .bind .get ?_
  unfold selectType
  cases packageOf? inf.env scope target with
  | some package => exact .pure _
  | none => exact .map h

theorem askLambda_answers {body : Query Ty} {bodyType : Scope → Ty} (h : ∀ scope, body.Answers scope (bodyType scope)) :
    (askLambda params expected body).Answers scope (lambdaOf params expected scope bodyType) :=
  .bind (.declareAll _ (h _)) (.pure _)

theorem argQuery_typing {e : Expr} {lambdaType : List Ty → Ty} (hp : plain.Answers scope ty)
    (hl : ∀ expected, (lambda expected).Answers scope (lambdaType expected)) :
    (argQuery e plain lambda).Restores scope ∧
      (argQuery e plain lambda).typing scope = argTyping e (fun _ => ty) lambdaType := by
  have hplain : (plain scope).1 = ty := by rw [hp]
  have hlambda : (fun expected => (lambda expected scope).1) = lambdaType := by
    funext expected
    rw [hl expected]
  unfold argQuery argTyping
  cases e with
  | lambda params body =>
    refine ⟨fun expected => ?_, congrArg ArgTyping.lambda hlambda⟩
    rw [hl expected]
    exact hl expected
  | caseFunction clauses => exact ⟨trivial, rfl⟩
  | _ =>
    refine ⟨?_, congrArg ArgTyping.plain (funext fun _ => hplain)⟩
    dsimp only [ArgQuery.Restores]
    rw [hplain]
    exact hp

variable (inf : Inference)

mutual

theorem ask_answers : ∀ (e : Located Expr) (scope : Scope), (inf.ask e).Answers scope (inf.typeOf scope e)
  | ⟨.lit _, _⟩, scope | ⟨.nil, _⟩, scope | ⟨.ifElse _ _ none, _⟩, scope | ⟨.caseFunction _, _⟩, scope => by
    simp only [ask, typeOf]
    exact .pure _
  | ⟨.ident name, _⟩, scope => by
    simp only [ask, typeOf]
    exact .bind .get (.pure _)
  | ⟨.call callee typeArgs args, _⟩, scope => by
    simp only [ask, typeOf]
    obtain ⟨hrestores, htypings⟩ := argQueries_typings args scope
    rw [← htypings]
    exact .bind (askCallee_answers (askTarget_answers callee scope) (ask_answers callee scope))
      (askCall_answers _ hrestores)
  | ⟨.select target member, _⟩, scope => by
    simp only [ask, typeOf]
    exact askSelect_answers inf (ask_answers target scope)
  | ⟨.index target _, _⟩, scope => by
    simp only [ask, typeOf]
    exact .map (ask_answers target scope)
  | ⟨.binary left op right, _⟩, scope => by
    simp only [ask, typeOf]
    split
    · exact .pure _
    · exact .bind (ask_answers left scope) (.bind (ask_answers right scope) (.pure _))
  | ⟨.unary op operand, _⟩, scope => by
    simp only [ask, typeOf]
    cases op with
    | not => exact .pure _
    | _ => exact ask_answers operand scope
  | ⟨.lambda params body, _⟩, scope => by
    simp only [ask, typeOf]
    exact askLambda_answers (ask_answers body)
  | ⟨.ifElse _ thenBranch (some elseBranch), _⟩, scope => by
    simp only [ask, typeOf]
    refine .bind (ask_answers thenBranch scope) ?_
    split
    · exact ask_answers elseBranch scope
    · exact .pure _
  | ⟨.matchOn subject clauses, _⟩, scope => by
    simp only [ask, typeOf]
    exact .bind (ask_answers subject scope) (.map (askClauses_answers clauses scope _))
  | ⟨.tuple elems, _⟩, scope => by
    simp only [ask, typeOf]
    exact .map (askAll_answers elems scope)
  | ⟨.block stmts, _⟩, scope => by
    simp only [ask, typeOf]
    obtain ⟨scope', hrun, hinner⟩ := askStmts_inner stmts scope.enter .void
    exact .inFrame hrun hinner

theorem askAll_answers : ∀ (es : List (Located Expr)) (scope : Scope),
    (inf.askAll es).Answers scope (inf.typesOf scope es)
  | [], scope => by
    simp only [askAll, typesOf]
    exact .pure _
  | e :: es, scope => by
    simp only [askAll, typesOf]
    exact .bind (ask_answers e scope) (.bind (askAll_answers es scope) (.pure _))

theorem askTarget_answers : ∀ (e : Located Expr) (scope : Scope),
    (inf.askTarget e).Answers scope (inf.targetTypeOf scope e)
  | ⟨e, _⟩, scope => by
    cases e with
    | select target _ =>
      simp only [askTarget, targetTypeOf]
      exact ask_answers target scope
    | _ =>
      simp only [askTarget, targetTypeOf]
      exact .pure _

theorem askLambdaOf_answers : ∀ (e : Located Expr) (scope : Scope) (expected : List Ty),
    (inf.askLambdaOf expected e).Answers scope (inf.lambdaTypeOf scope expected e)
  | ⟨e, _⟩, scope, expected => by
    cases e with
    | lambda params body =>
      simp only [askLambdaOf, lambdaTypeOf]
      exact askLambda_answers (ask_answers body)
    | _ =>
      simp only [askLambdaOf, lambdaTypeOf]
      exact .pure _

theorem argQueries_typings : ∀ (args : List Arg) (scope : Scope), (∀ a ∈ inf.argQueries args, a.2.Restores scope) ∧
      typingsIn scope (inf.argQueries args) = inf.argTypings scope args
  | [], scope => by
    simp only [argQueries, argTypings]
    exact ⟨List.forall_mem_nil _, rfl⟩
  | ⟨name, value⟩ :: args, scope => by
    simp only [argQueries, argTypings]
    obtain ⟨hvalue, htyping⟩ := argQuery_typing (ask_answers value scope) (askLambdaOf_answers value scope)
    obtain ⟨hargs, htypings⟩ := argQueries_typings args scope
    refine ⟨List.forall_mem_cons.mpr ⟨hvalue, hargs⟩, ?_⟩
    rw [← htypings, ← htyping]
    rfl

theorem askClause_answers : ∀ (c : Clause) (scope : Scope) (subject : Ty),
    (inf.askClause subject c).Answers scope (inf.clauseType scope subject c)
  | ⟨pattern, _, body⟩, scope, subject => by
    simp only [askClause, clauseType]
    exact .declareAll _ (ask_answers body _)

theorem askClauses_answers : ∀ (cs : List Clause) (scope : Scope) (subject : Ty),
    (inf.askClauses subject cs).Answers scope (inf.clauseTypes scope subject cs)
  | [], scope, subject => by
    simp only [askClauses, clauseTypes]
    exact .pure _
  | c :: cs, scope, subject => by
    simp only [askClauses, clauseTypes]
    exact .bind (askClause_answers c scope subject) (.bind (askClauses_answers cs scope subject) (.pure _))

theorem askStmts_inner : ∀ (ss : List (Located Stmt)) (scope : Scope) (last : Ty),
    ∃ scope', inf.askStmts last ss scope = (inf.stmtsType scope last ss, scope') ∧ scope.Inner scope'
  | [], scope, last => by
    simp only [askStmts, stmtsType]
    exact ⟨scope, rfl, .refl scope⟩
  | ⟨.val ⟨name, mutable, some ty, _⟩, _⟩ :: ss, scope, last => by
    simp only [askStmts, stmtsType]
    obtain ⟨scope', hrun, hinner⟩ := askStmts_inner ss (scope.bind name.val (valMutability mutable) ty) .void
    exact ⟨scope', hrun, (scope.inner_bind _ _ _).trans hinner⟩
  | ⟨.val ⟨name, mutable, none, value⟩, _⟩ :: ss, scope, last => by
    simp only [askStmts, stmtsType]
    obtain ⟨scope', hrun, hinner⟩ :=
      askStmts_inner ss (scope.bind name.val (valMutability mutable) (inf.typeOf scope value)) .void
    refine ⟨scope', ?_, (scope.inner_bind _ _ _).trans hinner⟩
    rw [(ask_answers value scope).run_bind]
    exact hrun
  | ⟨.expr e, _⟩ :: ss, scope, last => by
    simp only [askStmts, stmtsType]
    obtain ⟨scope', hrun, hinner⟩ := askStmts_inner ss scope (inf.typeOf scope e)
    refine ⟨scope', ?_, hinner⟩
    rw [(ask_answers e scope).run_bind]
    exact hrun
  | ⟨.assign _ _ _, _⟩ :: ss, scope, last | ⟨.ret _, _⟩ :: ss, scope, last | ⟨.loop _ _, _⟩ :: ss, scope, last => by
    simp only [askStmts, stmtsType]
    exact askStmts_inner ss scope .void

end

/-! ## Other questions -/

theorem askCalleeOf_answers (scope : Scope) : (inf.askCalleeOf e).Answers scope (inf.callee scope e) :=
  askCallee_answers (askTarget_answers inf e scope) (ask_answers inf e scope)

theorem askCallType_answers {callee : Located Expr} {typeArgs : List Ty} {args : List Arg} {expected : Option Ty}
    (scope : Scope) :
    (inf.askCallType callee typeArgs args expected).Answers scope (inf.callType scope callee typeArgs args expected) := by
  obtain ⟨hrestores, htypings⟩ := argQueries_typings inf args scope
  rw [callType, ← htypings]
  exact .bind (askCalleeOf_answers inf scope) (askCall_answers _ hrestores)

theorem askLambdaType_answers (body : Located Expr) (scope : Scope) :
    (inf.askLambdaType params body expected).Answers scope (inf.lambdaType scope params body expected) :=
  askLambda_answers (ask_answers inf body)

theorem askBlockType_answers {stmts : List (Located Stmt)} (scope : Scope) :
    (inf.askBlockType stmts).Answers scope (inf.blockType scope stmts) := by
  obtain ⟨scope', hrun, hinner⟩ := askStmts_inner inf stmts scope.enter .void
  exact .inFrame hrun hinner

theorem askMatchType_answers {subject : Located Expr} {clauses : List Clause} {declared : Option Ty} (scope : Scope) :
    (inf.askMatchType subject clauses declared).Answers scope (inf.matchType scope subject clauses declared) :=
  .bind (ask_answers inf subject scope) (.map (askClauses_answers inf clauses scope _))

theorem argQueryOf_typing :
    (inf.argQueryOf e).Restores scope ∧ (inf.argQueryOf e).typing scope = inf.argTypingOf scope e :=
  argQuery_typing (ask_answers inf e scope) (askLambdaOf_answers inf e scope)

end Inference

end Lowering
