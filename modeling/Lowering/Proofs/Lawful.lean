/-
  Lawful — rules that lowering keeps.

  A rule is lawful when the functions and assignments that lowering emits obey it, given how they come about
  (`Rule.Made`). Everything else is plain. Whatever inference answers is within the rule.
-/

import Lowering.Proofs.Inferred

namespace Lowering

open Source (Origin Gap Item)
open Target (Expr Stmt Node)

/-! ## Laws -/

/-- A function of the target comes from an origin with the given body; `made` are parameters that the
    origin does not have. -/
structure Source.Origin.Makes (o : Origin) (body : Source.Expr) (result : Ty) (made : List String) (n : Node) :
    Prop where
  body : o.body = body
  params : n.parameters.Sublist (made ++ o.params)
  returns : ∀ r ∈ o.returns, r = !result.isVoid

inductive Task.From : Task → Source.Expr → Prop
  | expr (e : Located Source.Expr) : From (.expr e) e.val
  | body (e : Located Source.Expr) : From (.body e) e.val
  /-- A case function matches on its argument. -/
  | matchOn (arg : String) (span : Span) (clauses : List Source.Clause) :
      From (.matchOn ⟨.ident arg, span⟩ clauses) (.matchOn ⟨.nil, .synthetic⟩ clauses)

/-- How a function of the target comes about. Its results are what its body is lowered against, or those
    that are expected of a case function, which also makes up its argument. -/
inductive Rule.Made (R : Rule) (env : Env) (n : Node) : Prop
  | intro {task : Task} {e : Source.Expr} {s : LowerState} {result : Ty} {results : List Ty} {stmts : List Stmt}
      {names : NameSupply} {o : Origin} {made : List String} (hfrom : task.From e) (hitems : R.Permits e.items)
      (hs : R.State s) (hinside : s.Inside result) (hflow : Flow env s (!result.isVoid) task stmts names)
      (hn : n.function? = some (results, stmts))
      (hresults : results = result.results ∨ n.isLiteral = true ∧ result = results.headD .void)
      (ho : R.origin o) (hmakes : o.Makes e result made n)
      (hmade : made = [] ∨ ∃ before : NameSupply, made = [before.fresh.1] ∧ before.fresh.2 = s.names) : R.Made env n

variable {e : Source.Expr} {task : Task} {x : String} {R : Rule} {env : Env} {p : Piece} {own : List Origin}

theorem Task.From.binds (h : task.From e) (he : e.binds x = false) : task.binds x = false := by
  cases h with
  | expr e | body e => exact he
  | matchOn arg span clauses => simpa [Source.Expr.binds, Task.binds] using he

theorem Task.From.silent (h : task.From e) {stmts : List Stmt} (hs : task.Spares x stmts) :
    Silent x stmts := by cases h <;> exact hs

theorem Rule.Made.function {n : Node} (h : R.Made env n) : ∃ f, n.function? = some f := by
  obtain ⟨-, -, -, -, -, hn, -, -, -, -⟩ := h
  exact ⟨_, hn⟩

/-- A body that is written out: it terminates, returns a value for each result and writes to temporaries. -/
structure Rule.Straight (R : Rule) (results : List Ty) (stmts : List Stmt) : Prop where
  ends : Stmt.terminates stmts = true
  returns : Stmt.allReturn results.length stmts = true
  writes : ∀ x, Stmt.anyWrites x stmts = true → ∃ stem, R.stem stem ∧ ∃ n : Nat, x = stem ++ toString n

/-- The scopes of the function declare distinct names, the subject `s` or names that may be bound, or what a function
    is made from. -/
def Rule.Scoped (R : Rule) (n : Node) : Prop :=
  (n.scopes.flatten.Nodup ∧ ∀ x ∈ n.scopes.flatten, x = "s" ∨ R.name x) ∨
    ∃ o : Origin, R.origin o ∧ n.scopes.flatten = o.params

/-- The functions and assignments that lowering emits obey the rule. -/
structure Rule.Emitting (R : Rule) (env : Env) : Prop extends R.Naming env where
  stem : R.stem env.settings.tempStem
  temporary : ∀ {stem : String}, R.stem stem → ∀ n : Nat, R.name (stem ++ toString n) ∧ R.mention (stem ++ toString n)
  wrapper : ∀ {t w : Ty}, R.ty t → env.wrapperType t = .ok w → R.emitted w
  own : ∀ {name : String} {e : TypeEntry}, env.index.types.find? name = some e → R.Entry e
  named : ∀ (name : String) (params : List String), R.emitted ((Ty.own name).apply (params.map .basic))
  option : ∀ {t : Ty}, R.emitted t → ∀ name ∈ ["Option", "Some", "None"],
    R.emitted (.generic (.named env.runtime name) [t])
  dropped : ∀ value : Expr, R.node (.stmt (.discard value))
  flagged : ∀ n : Nat, R.node (.stmt (.assign1 (.ident ("_matched" ++ toString n)) (.bool true)))
  place : ∀ {target : Located Source.Expr} {span : Span} {s s' : LowerState} {place : Expr × Ty}, R.place target →
    R.State s → Lower.assignTarget env (Lower.piece env target) span s = .ok place s' →
    ∀ (op : Option BinaryOp) (value : Expr), R.node (.stmt (.assign [place.1] op [value]))
  copied : ∀ {target : Located Source.Expr} {name : Located String} {place : Span} {typeArgs : List Ty}
    {args : List ArgPiece} {expected : Option Ty} {span : Span} {s s' : LowerState} {v : Expr} {ty : Ty}
    {owner : TypeEntry}, R.selects target name.val → R.State s →
    s.callee env ⟨.select target name, place⟩ = .copy ty owner →
    Lower.lowerCall env (Lower.piece env ⟨.select target name, place⟩) typeArgs args expected span s = .ok v s' →
    R.literal ty := by
      intros
      trivial
  made : ∀ {n : Node}, R.Made env n → (∀ t ∈ n.types, R.emitted t) → R.node n
  straight : ∀ {results : List Ty} {stmts : List Stmt}, R.Straight results stmts →
    ∀ n : Node, n.function? = some (results, stmts) → (∀ t ∈ n.types, R.emitted t) → R.Scoped n → R.node n

/-- So does everything else, inference stays within the rule, and functions may be made from anything. -/
structure Rule.Lawful (R : Rule) (env : Env) : Prop extends R.Closed env, R.Emitting env where
  origins : ∀ o, R.origin o := by
    intro _
    trivial

/-- A rule about functions: all types and all names may be written, and every place that is no function obeys it. -/
structure Rule.Functional (R : Rule) (env : Env) : Prop where
  types : ∀ t, R.ty t ∧ R.emitted t ∧ R.literal t := by
    exact fun _ => ⟨trivial, trivial, trivial⟩
  written : ∀ x, R.param x ∧ R.mention x ∧ R.ident x := by
    exact fun _ => ⟨trivial, trivial, trivial⟩
  plain : ∀ {n : Node}, n.function? = none → R.node n
  stem : R.stem env.settings.tempStem
  temporary : ∀ {stem : String}, R.stem stem → ∀ n : Nat, R.name (stem ++ toString n)
  made : ∀ {n : Node}, R.Made env n → R.node n
  straight : ∀ {results : List Ty} {stmts : List Stmt}, R.Straight results stmts →
    ∀ {n : Node}, n.function? = some (results, stmts) → R.Scoped n → R.node n

namespace Rule.Functional

variable (h : R.Functional env)
include h

theorem closed : R.Closed env :=
  Rule.closed_of_all (fun t => (h.types t).1) (fun _ _ _ => (h.types _).2.2) fun x => (h.written x).1

theorem ident : R.ident x := (h.written x).2.2

theorem writes {qualifier name : String} : R.Writes qualifier name := by
  unfold Rule.Writes
  split <;> exact h.ident

theorem emitting : R.Emitting env where
  emitted {t} _ := (h.types t).2.1
  plain _ hn _ _ _ := h.plain (Node.function?_of_isPlain hn)
  identAt _ := h.ident
  boundName _ := h.ident
  madeName _ _ := h.ident
  flagName _ := h.ident
  builtinName _ := h.ident
  packageName _ := h.ident
  runtimeName _ := h.writes
  functionName _ := h.writes
  extractedName _ _ := h.writes
  stem := h.stem
  temporary hstem n := ⟨h.temporary hstem n, (h.written _).2.1⟩
  wrapper _ _ := (h.types _).2.1
  own {_ e} _ := Rule.entry_of_all (fun t => (h.types t).1) (fun x => (h.written x).1)
  named _ _ := (h.types _).2.1
  option _ _ _ := (h.types _).2.1
  dropped _ := h.plain rfl
  flagged _ := h.plain rfl
  place _ _ _ _ _ := h.plain rfl
  copied _ _ _ _ := (h.types _).2.2
  made hmade _ := h.made hmade
  straight hstraight _ hn _ := h.straight hstraight hn

theorem lawful (horigins : ∀ o, R.origin o) : R.Lawful env := { h.closed, h.emitting with origins := horigins }

end Rule.Functional

theorem Rule.Known.orAny {t : Ty} (h : R.Known t) (hany : R.ty .any) : R.Result t.orAny := by
  rcases h with rfl | h
  · exact .inr hany
  · unfold Ty.orAny
    split
    · exact .inr hany
    · exact h

/-- Lowered where the scope is that of a state, the piece has a type within the rule, as far as it is
    known. -/
def Piece.TypedIn (R : Rule) (env : Env) (s : LowerState) (p : Piece) : Prop :=
  ∀ s1, p.Lowers env s1 → s.Alike s1 → R.Known (s.typeOf env p.source)

theorem Piece.TypedIn.alike {s s' : LowerState} (h : p.TypedIn R env s) (hs : s.Alike s') : p.TypedIn R env s' := by
  intro s1 hlowers hs1
  rw [LowerState.typeOf, hs.inferred]
  exact h s1 hlowers (hs.trans hs1)

def Piece.Typed (R : Rule) (env : Env) (p : Piece) : Prop := ∀ s, R.Scope s.scope → p.TypedIn R env s

def Rule.TypesTail (R : Rule) (env : Env) (source : Located Source.Expr) (tail : Ty → Lower (List Stmt)) : Prop :=
  ∀ s result stmts s', R.Scope s.scope → (s.inferred env source).Fits result → tail result s = .ok stmts s' →
    R.Known (s.typeOf env source)

theorem Piece.Typed.tail (h : p.Typed R env) : R.TypesTail env p.source p.tail :=
  fun s _ _ _ hscope hfits hrun => h s hscope s (.tail hfits hrun) (.refl)

def Source.Expr.Filled (G : Gap → Prop) (e : Source.Expr) : Prop := ∀ g ∈ e.ownGaps ++ e.gaps, G g

/-- Where the gaps are filled, the types of what is lowered are within the rule, and so are the type
    arguments that are found. -/
structure Rule.Sound (R : Rule) (G : Gap → Prop) (env : Env) : Prop extends R.Formed env, R.Emitting env where
  typed : ∀ {e : Located Source.Expr}, R.Permits e.val.items → e.val.Filled G → (Lower.piece env e).Typed R env
  typeArgs : ∀ {callee : Lower.Generic} {args : List (Option Piece)} {explicit : List Ty} {expected : Option Ty}
    {inf : Inference} {scope : Lowering.Scope} {types : List Ty}, inf.env = env → R.Scope scope →
    (∀ p ∈ callee.typeParams, R.param p) → (∀ t ∈ callee.params, R.ty t) →
    (∀ p, some p ∈ args → R.Permits p.source.val.items) → (∀ t ∈ explicit, R.ty t) → (∀ t ∈ expected, R.ty t) →
    resolveTypeArgs callee.typeParams callee.params (args.map (·.map fun p => inf.argTypingOf scope p.source)) explicit
      (expected.map (callee.result, ·)) = some types → ∀ t ∈ types, R.ty t

theorem Rule.Closed.sound {R : Rule} {env : Env} (h : R.Closed env) (hemitting : R.Emitting env) :
    R.Sound (fun _ => True) env where
  toFormed := h.toFormed
  toEmitting := hemitting
  typed {e} hitems _ := by
    intro s hscope _ _ _
    rw [Lower.piece_source]
    exact .of_ty (h.unwrap (typeOf s.typeParams e ⟨h, hscope, hitems⟩))
  typeArgs {callee args explicit expected inf scope types} henv hscope htp hparams hargs hexplicit hexpected hs := by
    obtain ⟨env', typeParams⟩ := inf
    subst henv
    have htypings : ∀ a, some a ∈ args.map (·.map fun p => (⟨env', typeParams⟩ : Inference).argTypingOf scope p.source) →
        R.Typing a := by
      intro a ha
      obtain ⟨arg, hmem, heq⟩ := List.mem_map.mp ha
      obtain ⟨p, rfl, rfl⟩ := Option.map_eq_some_iff.mp heq
      exact h.argTypingOf typeParams hscope (hargs p hmem)
    exact h.resolveTypeArgs htp hparams htypings hexplicit (by simpa using hexpected) hs

theorem Rule.Lawful.sound (h : R.Lawful env) : R.Sound (fun _ => True) env :=
  h.toClosed.sound h.toEmitting

/-! ## What actions do -/

def Rule.Runs {α : Type} (R : Rule) (Q : α → Prop) (act : Lower α) : Prop :=
  ∀ s a s', R.State s → act s = .ok a s' → Q a ∧ R.State s'

abbrev Rule.Yields (R : Rule) (act : Lower Expr) : Prop := R.Runs (·.Every R.node) act

variable {R : Rule} {env : Env}

namespace Rule.Stmts

variable {stmt : Stmt} {stmts stmts' : List Stmt}

theorem nil : R.Stmts [] := List.forall_mem_nil _

theorem cons (h : stmt.Every R.node) (hs : R.Stmts stmts) : R.Stmts (stmt :: stmts) := List.forall_mem_cons.mpr ⟨h, hs⟩

theorem one (h : stmt.Every R.node) : R.Stmts [stmt] := .cons h .nil

theorem append (h : R.Stmts stmts) (h' : R.Stmts stmts') : R.Stmts (stmts ++ stmts') :=
  List.forall_mem_append.mpr ⟨h, h'⟩

end Rule.Stmts

namespace Rule.Runs

variable {α β : Type} {Q : α → Prop} {f : β → Lower α} {y : Lower β} {act z : Lower α} {c : Prop}

theorem of_framed (hframe : Keeps Framed act) (h : ∀ s a s', R.State s → act s = .ok a s' → Q a) : R.Runs Q act :=
  fun s a s' hs hrun => ⟨h s a s' hs hrun, hs.framed (hframe.ok hrun)⟩

theorem pure {a : α} (h : Q a) : R.Runs Q (Pure.pure a) := by
  intro s b s' hs hrun
  obtain ⟨rfl, rfl⟩ := pure_ok hrun
  exact ⟨h, hs⟩

theorem fail {fault : Fault} : R.Runs Q (Lower.fail fault span) := by
  intro s b s' _ hs
  cases hs

theorem ofChecked {c : Checked α} (h : ∀ a, c = .ok a → Q a) : R.Runs Q (Lower.ofChecked c) :=
  of_framed Lower.ofChecked_framed fun _ a _ _ hrun => h a (Lower.ofChecked_ok hrun).1

theorem bind {P : β → Prop} (hy : R.Runs P y) (hf : ∀ b, P b → R.Runs Q (f b)) : R.Runs Q (y >>= f) := by
  intro s a s' hs h
  obtain ⟨b, s1, hb, h⟩ := bind_ok h
  obtain ⟨hP, hs1⟩ := hy s b s1 hs hb
  exact hf b hP s1 a s' hs1 h

theorem after (hframe : Keeps Framed y) (hf : ∀ b, R.Runs Q (f b)) : R.Runs Q (y >>= f) :=
  bind (of_framed hframe fun _ _ _ _ _ => trivial) fun b _ => hf b

theorem ite [Decidable c] {y : Lower α} (hy : c → R.Runs Q y) (hz : ¬ c → R.Runs Q z) :
    R.Runs Q (if c then y else z) := by
  split
  · exact hy (by assumption)
  · exact hz (by assumption)

theorem check [Decidable c] {fault : Fault} {span : Span} {f : PUnit → Lower α} (hz : R.Runs Q z) :
    R.Runs Q (if c then Lower.fail fault span >>= f else z) :=
  ite (fun _ => bind (P := fun _ => False) fail fun _ => False.elim) fun _ => hz

theorem mapM {f : β → Lower α} : ∀ (l : List β), (∀ b ∈ l, R.Runs Q (f b)) → R.Runs (fun as => ∀ a ∈ as, Q a) (l.mapM f)
  | [], _ => by
    exact pure (by simp)
  | b :: l, h => by
    rw [List.mapM_cons]
    exact bind (h b (.head _)) fun a ha => bind (mapM l fun b hb => h b (.tail _ hb))
      fun as has => pure (List.forall_mem_cons.mpr ⟨ha, has⟩)

theorem nested (h : R.Runs Q act) : R.Runs Q (Lower.nested env span act) := by
  intro s a s' hs hrun
  obtain ⟨s1, hact, rfl⟩ := Lower.nested_bracket hrun
  obtain ⟨ha, hs1⟩ := h { s with depth := s.depth + 1 } a s1 ⟨hs.scope, hs.functions, hs.stem⟩ hact
  exact ⟨ha, hs1.scope, hs1.functions, hs1.stem⟩

theorem inScope {s s' : LowerState} {a : α} (h : R.Runs Q act) (hs : R.State s)
    (hrun : Lower.withScope act s = .ok a s') : Q a := by
  obtain ⟨s1, hs1⟩ := Lower.withScope_ok hrun
  refine (h _ _ _ ?_ hs1).1
  exact ⟨hs.scope.enter, hs.functions, hs.stem⟩

theorem bindAll (h : R.Formed env) {bindings : List (String × Ty)} (hb : ∀ b ∈ bindings, R.name b.1 ∧ R.Result b.2)
    (hact : R.Runs Q act) : R.Runs Q (Lower.bindAll bindings >>= fun _ => act) := by
  intro s a s' hs hrun
  obtain ⟨_, s1, hbind, hrun⟩ := bind_ok hrun
  cases hbind
  refine hact _ _ _ ?_ hrun
  exact ⟨h.scope_bindAll hs.scope hb, hs.functions, hs.stem⟩

theorem scope : R.Runs R.Scope Lower.scope := of_framed Lower.scope_framed fun s scope s' hs h => by
  cases h
  exact hs.scope

end Rule.Runs

/-! ## Pieces -/

/-- Wherever it is statements, the piece obeys the rule. -/
structure Piece.Flows (R : Rule) (p : Piece) : Prop where
  tidy : p.Tidy
  source : R.Permits p.source.val.items
  tail : ∀ {result}, R.Result result → R.Runs R.Stmts (p.tail result)
  effect : R.Runs R.Stmts p.effect
  body : ∀ {result}, R.Result result → R.Runs R.Stmts (p.body result)

/-- In every position the piece obeys the rule, and so do the pieces of its operands. -/
inductive Piece.Obeys (R : Rule) : Piece → Prop
  | mk {p : Piece} (flows : p.Flows R) (value : ∀ expected, (∀ t ∈ expected, R.ty t) → R.Yields (p.value expected))
      (parts : ∀ q ∈ p.parts, q.Obeys R) : p.Obeys R

namespace Piece.Obeys

variable {p : Piece}

theorem flows : p.Obeys R → p.Flows R
  | mk flows _ _ => flows

theorem value : p.Obeys R → ∀ {expected}, (∀ t ∈ expected, R.ty t) → R.Yields (p.value expected)
  | mk _ value _ => fun h => value _ h

theorem parts : p.Obeys R → ∀ q ∈ p.parts, q.Obeys R
  | mk _ _ parts => parts

theorem tidy (h : p.Obeys R) : p.Tidy := h.flows.tidy

theorem source (h : p.Obeys R) : R.Permits p.source.val.items := h.flows.source

theorem plainValue (h : p.Obeys R) : R.Yields (p.value none) := h.value (by simp)

end Piece.Obeys

/-- In the place of a value the piece obeys the rule if the origins that it then has do. -/
structure Piece.ObeysFrom (R : Rule) (own : List Origin) (p : Piece) : Prop where
  flows : p.Flows R
  obeys : (∀ o ∈ own, R.origin o) → p.Obeys R

theorem Piece.Obeys.obeysFrom (h : p.Obeys R) : p.ObeysFrom R own :=
  ⟨h.flows, fun _ => h⟩

theorem Piece.Flows.obeysFrom (h : p.Flows R) (hvalue : p.Flows R → (∀ o ∈ own, R.origin o) → p.Obeys R) :
    p.ObeysFrom R own := ⟨h, hvalue h⟩

/-- What a part of the source holds is within the rule: its items and origins, and its gaps are filled. -/
structure Rule.Admits (R : Rule) (G : Gap → Prop) (items : List Item) (gaps : List Gap)
    (origins : List Origin) : Prop where
  items : R.Permits items
  gaps : ∀ g ∈ gaps, G g
  origins : ∀ o ∈ origins, R.origin o

section

variable {G : Gap → Prop} {items items' : List Item} {gaps gaps' : List Gap}
  {origins origins' : List Origin}

theorem Rule.Admits.split (h : R.Admits G (items ++ items') (gaps ++ gaps') (origins ++ origins')) :
    R.Admits G items gaps origins ∧ R.Admits G items' gaps' origins' := by
  obtain ⟨hitems, hitems'⟩ := permits_append.mp h.items
  obtain ⟨hgaps, hgaps'⟩ := List.forall_mem_append.mp h.gaps
  obtain ⟨horigins, horigins'⟩ := List.forall_mem_append.mp h.origins
  exact ⟨⟨hitems, hgaps, horigins⟩, ⟨hitems', hgaps', horigins'⟩⟩

theorem Rule.Admits.inside (h : R.Admits G items (gaps ++ gaps') origins) : R.Admits G items gaps' origins :=
  { h with gaps := (List.forall_mem_append.mp h.gaps).2 }

theorem Rule.Admits.obeys (h : R.Admits G items gaps (own ++ origins))
    (hp : R.Admits G items gaps origins → p.ObeysFrom R own) : p.Obeys R :=
  (hp { h with origins := (List.forall_mem_append.mp h.origins).2 }).obeys (List.forall_mem_append.mp h.origins).1

end

structure ClausePiece.Obeys (R : Rule) (c : ClausePiece) : Prop where
  pattern : R.Permits c.source.pattern.val.items
  guard : ∀ g ∈ c.guard, g.Obeys R
  body : c.body.Flows R

theorem ClausePiece.Obeys.tidy {c : ClausePiece} (h : c.Obeys R) : c.Tidy :=
  ⟨fun _ _ => trivial, fun g hg => (h.guard g hg).tidy, h.body.tidy⟩

/-! ## Callees -/

namespace Rule.Formed

open Lower

variable {args : List ArgPiece} {expected : Option Ty} {span : Span} {typeArgs : List Ty} {v : Expr} {s s' : LowerState}

theorem memberCallee_of_lowered (h : R.Formed env) {target : Located Source.Expr} {member : Located String}
    {cspan : Span} (htyped : (piece env target).TypedIn R env s) (hargs : TidyArgs args)
    (hpackage : packageOf? env s.scope target.val = none)
    (hrun : lowerCall env (piece env ⟨.select target member, cspan⟩) typeArgs args expected span s = .ok v s') :
    R.Callee env (Lowering.memberCallee env (s.typeOf env target) member.val) := by
  have htarget : ∀ {r s1 s2}, (piece env target).value none s1 = .ok r s2 → s.Alike s1 →
      R.Known (s.typeOf env target) := by
    intro r s1 s2 hr halike
    rw [← piece_source env target]
    exact htyped s1 (.plain hr) halike
  have hreceiver : receiverOf (piece env ⟨.select target member, cspan⟩) = piece env target := by
    rfl
  have hcallee : (⟨env, s.typeParams⟩ : Inference).callee s.scope (piece env ⟨.select target member, cspan⟩).source =
      Lowering.memberCallee env (s.typeOf env target) member.val := by
    rw [piece_source]
    simp only [Inference.callee, calleeOf, hpackage]
    rfl
  obtain ⟨called, s1, hask, hrun⟩ := bind_ok hrun
  rw [askCalleeOf_run, hcallee] at hask
  cases hask
  unfold Lowering.memberCallee at hrun ⊢
  cases hmethod : env.method? (s.typeOf env target) member.val with
  | some found =>
    simp only [hmethod] at hrun ⊢
    obtain ⟨r, s1, s2, hframed, hr⟩ := callMethod_ok hargs hrun
    have hty := (htarget hr hframed.alike).of_method hmethod
    exact ⟨hty, h.method? hty hmethod⟩
  | none =>
    cases hcopy : (env.entry? (s.typeOf env target)).filter fun e => member.val == "Copy" && e.kind == .struct with
    | some owner =>
      simp only [hmethod, hcopy] at hrun ⊢
      obtain ⟨r, s1, s2, hframed, hr⟩ := callCopy_ok hargs hrun
      exact (htarget hr hframed.alike).of_entry (Option.filter_eq_some_iff.mp hcopy).1
    | none =>
      simp only [hmethod, hcopy] at hrun ⊢
      unfold fieldCallee at hrun ⊢
      cases hfield : env.field? (s.typeOf env target) member.val with
      | none => trivial
      | some field =>
        simp only [hfield] at hrun ⊢
        split
        · rename_i hfunc
          obtain ⟨params, results, heq⟩ := Ty.isFunc_iff.mp hfunc
          rw [if_pos hfunc, heq] at hrun
          obtain ⟨function, s1, s2, hframed, hfunction⟩ := callValue_ok hrun
          obtain ⟨r, s3, hr⟩ := select_ok hfunction (by rw [hframed.scope]; exact hpackage)
          exact fun _ => h.field? ((htarget hr ⟨hframed.scope, hframed.typeParams⟩).of_field hfield) hfield
        · trivial

theorem callee_of_lowered (h : R.Formed env) {callee : Located Source.Expr} (hitems : R.Permits callee.val.items)
    (hscope : ∀ name, callee.val.references name = true → ∀ b, s.scope.find? name = some b → R.Result b.ty.unwrap)
    (htyped : (piece env callee).TypedIn R env s) (hhead : ∀ q ∈ (piece env callee).parts.head?, q.TypedIn R env s)
    (hargs : TidyArgs args) (hrun : lowerCall env (piece env callee) typeArgs args expected span s = .ok v s') :
    R.Callee env ((⟨env, s.typeParams⟩ : Inference).callee s.scope callee) := by
  have hvalue : (⟨env, s.typeParams⟩ : Inference).callee s.scope callee = .value (s.inferred env callee) →
      R.Callee env ((⟨env, s.typeParams⟩ : Inference).callee s.scope callee) := by
    intro hcallee
    rw [hcallee]
    intro hfunc
    obtain ⟨params, results, heq⟩ := Ty.isFunc_iff.mp hfunc
    obtain ⟨called, s1, hask, hrun⟩ := bind_ok hrun
    rw [askCalleeOf_run, piece_source, hcallee, heq] at hask
    cases hask
    obtain ⟨function, s1, s2, hframed, hfunction⟩ := callValue_ok hrun
    have hknown := htyped s1 (.plain hfunction) hframed.alike
    rw [piece_source, LowerState.typeOf, heq] at hknown
    rw [heq]
    exact hknown.of_isFunc rfl
  obtain ⟨e, cspan⟩ := callee
  cases e with
  | ident name =>
    simp only [Inference.callee, calleeOf]
    split
    · rename_i hcontains
      obtain ⟨b, hb⟩ := Option.isSome_iff_exists.mp hcontains
      simp only [Rule.Callee, Scope.typeOf, hb, Option.map_some, Option.getD_some]
      exact Known.of_isFunc (.inr (hscope name (by simp [Source.Expr.references]) b hb))
    · exact h.namedCallee (hitems _ (.head _))
  | select target member =>
    cases hpackage : packageOf? env s.scope target.val with
    | some package =>
      simp only [Inference.callee, calleeOf, hpackage]
      exact h.namedCallee (mention_member hpackage (permits_append.mp hitems).1)
    | none =>
      have htarget := hhead (piece env target) (by simp only [piece]; rfl)
      simp only [Inference.callee, calleeOf, hpackage]
      exact h.memberCallee_of_lowered htarget hargs hpackage hrun
  | _ => exact hvalue rfl

end Rule.Formed

namespace Rule.Sound

open Lower

variable {G : Gap → Prop} (h : R.Sound G env)
include h

/-! ## Names -/

variable {owner : TypeEntry} {ty : Ty} {s' : LowerState}

theorem bool : R.ty .bool := h.builtin "bool" (by decide)

variable {f : FunctionEntry} {name field : String} {apply : Method} {expected : Option Ty}
  {receiver value v stored read : Expr} {source : Located Source.Expr} {body stmts : List Stmt}
  {tail : Ty → Lower (List Stmt)} {effect : Lower (List Stmt)} {inner ty : Ty} {span : Span} {element : Target.Element}
  {overrides : List Storage.Override} {args : List ArgPiece} {explicit typeArgs : List Ty} {typeParams : List String}
  {callee subject : Piece} {params : List Source.LambdaParam} {s : LowerState} {elems : List Piece}
  {compiled : Match.CompiledPattern} {flag : Option String} {position : Position} {clauses : List ClausePiece}

omit h in
theorem bareCompanion?_eq {e : TypeEntry} (hs : bareCompanion? env name = some (e, apply)) :
    env.type? name = some e ∧ e.kind = .companion ∧ e.method? "Apply" = some apply := by
  obtain ⟨e', he, hs⟩ := Option.bind_eq_some_iff.mp hs
  obtain ⟨m, hm, hs⟩ := Option.bind_eq_some_iff.mp hs
  cases hs
  have he := Option.filter_eq_some_iff.mp he
  exact ⟨he.1, by simpa using he.2, (Option.filter_eq_some_iff.mp hm).1⟩

theorem lowerCompanionName {e : TypeEntry} (he : env.type? name = some e)
    (hkind : e.kind = .companion) (hexpected : ∀ t ∈ expected, R.ty t) :
    R.Yields (Lower.lowerCompanionName env name e apply expected span) := by
  unfold Lower.lowerCompanionName
  split
  · exact .fail
  · rename_i args hargs
    have htypes : ∀ t ∈ args, R.ty t := by
      unfold companionTypeArgs at hargs
      split at hargs
      · cases hargs
        simp
      · obtain ⟨wanted, hwanted, hargs⟩ := Option.bind_eq_some_iff.mp hargs
        exact h.unifyAll (h.entry he).typeParams (.of_ty (hexpected wanted hwanted)) hargs
    have hty := h.headedBuilt he (by simp [TypeEntry.isBuilt, hkind]) htypes
    exact .after (notePackage_framed _ _) fun _ => .pure (h.method (h.zero hty) (by simp))

theorem lowerGlobalName (hexpected : ∀ t ∈ expected, R.ty t) :
    R.Yields (Lower.lowerGlobalName env name expected span) := by
  unfold Lower.lowerGlobalName
  split
  · rename_i hf
    exact .check (.after (notePackage_framed _ _) fun _ => .pure (h.qualified (h.functionName hf)))
  · rename_i e apply _ hc
    obtain ⟨he, hkind, -⟩ := bareCompanion?_eq hc
    exact h.lowerCompanionName he hkind hexpected
  · exact .ite (fun hbuiltin => .pure (h.written (h.builtinName (.inl hbuiltin)))) fun _ => .fail

theorem lowerIdent (hexpected : ∀ t ∈ expected, R.ty t) : R.Yields (Lower.lowerIdent env name expected span) := by
  refine .bind .scope fun scope hscope => ?_
  split
  · rename_i b hb
    have hname := h.written (h.boundName (hscope name b hb).name)
    refine .pure ?_
    split
    · exact h.method hname (by simp)
    · exact hname
  · exact h.lowerGlobalName hexpected

theorem lowerMember (hr : receiver.Every R.node) : R.Yields (Lower.lowerMember env receiver ty member) := by
  have hplace : (Expr.selector receiver member.val).Every R.node := h.selector hr
  unfold Lower.lowerMember
  split
  · rename_i value _ hread
    obtain ⟨info, -, hread⟩ := Option.bind_eq_some_iff.mp hread
    cases hread
    refine .pure ?_
    split
    · exact h.method hplace (by simp)
    · exact hplace
  · exact .ite (fun _ => .pure hplace) fun _ => .fail

theorem lowerSelect {target : Piece} (ht : target.Obeys R) : R.Yields (Lower.lowerSelect env target member) := by
  refine .after scope_framed fun scope => ?_
  cases hpackage : packageOf? env scope target.source.val with
  | some package => exact .pure (h.selector (h.written (h.packageName (packageOf?_isPackage hpackage))))
  | none =>
    refine .after typeOf_framed fun ty => .check ?_
    exact .bind ht.plainValue fun receiver hr => h.lowerMember hr

/-! ## Positions -/

theorem touch (hv : value.Every R.node) : (Stmt.discard value).Every R.node :=
  Stmt.every_assign.mpr ⟨h.dropped value,
    List.forall_mem_singleton.mpr (h.written (h.builtinName (.inr (by decide)))), List.forall_mem_singleton.mpr hv⟩

theorem discard (hv : v.Every R.node) : R.Stmts [Lower.discard v] := by
  refine .one ?_
  unfold Lower.discard
  split
  · exact h.expr hv
  · exact h.touch hv

theorem ret1 (hv : v.Every R.node) : R.Stmts [Stmt.ret1 v] := .one (h.ret (by simpa using hv))

theorem ofValue {value : Option Ty → Lower Expr} {parts : List Piece}
    (ht : (Piece.ofValue env source value parts).Tidy) (hsource : R.Permits source.val.items)
    (hvalue : ∀ expected, (∀ t ∈ expected, R.ty t) → R.Yields (value expected))
    (hparts : ∀ q ∈ parts, q.Obeys R) : (Piece.ofValue env source value parts).Obeys R := by
  have hnested : ∀ expected, (∀ t ∈ expected, R.ty t) →
      R.Yields ((Piece.ofValue env source value parts).value expected) :=
    fun expected he => (hvalue expected he).nested
  have heffect : R.Runs R.Stmts (Piece.ofValue env source value parts).effect :=
    .nested (.bind (hnested none (by simp)) fun v hv => .pure (h.discard hv))
  have htail : ∀ result, R.Result result → R.Runs R.Stmts ((Piece.ofValue env source value parts).tail result) := by
    intro result hresult
    refine .ite (fun _ => heffect) fun hvoid => .nested (.ite (fun _ => heffect) fun _ => ?_)
    have hty : R.ty result := hresult.ty (by simpa using hvoid)
    exact .bind (hnested _ (by simpa using hty)) fun v hv => .pure (h.ret1 hv)
  exact ⟨⟨ht, hsource, htail _, heffect, htail _⟩, hnested, hparts⟩

theorem invoked {results : List Ty} (hf : R.node (.expr (.funcLit [] results body)))
    (hb : R.Stmts body) : (Expr.invoked results body).Every R.node :=
  h.apply (Expr.every_funcLit.mpr ⟨hf, hb⟩) (by simp)

def MakesLit (R : Rule) (result : Ty) (act : Lower (List Stmt)) : Prop := ∀ s body s', R.State s → s.Inside result →
  act s = .ok body s' → R.node (.expr (.funcLit [] result.results body))

theorem invokeInPlace (htyped : R.TypesTail env source tail) (he : ∀ t ∈ expected, R.ty t)
    (hframe : ∀ result, Keeps Framed (tail result)) (htail : ∀ result, R.Result result → R.Runs R.Stmts (tail result))
    (hf : ∀ result, R.Result result → result.isVoid = false → MakesLit R result (tail result)) :
    R.Yields (Lower.invokeInPlace env source expected tail) := by
  refine .of_framed (framed.invokeInPlace mentionsAny hframe) fun s v s' hs hrun => ?_
  obtain ⟨ty, body, s1, hasked, hvoid, hbody, rfl⟩ := invokeInPlace_ok hrun
  have hknown : R.Known ty := by
    rcases hasked with ⟨hty, -⟩ | rfl
    · exact .of_ty (he ty hty)
    · exact htyped { s with functions := _ :: s.functions } _ _ _ hs.scope Ty.fits_orAny hbody
  have hresult : R.Result ty.orAny := hknown.orAny h.any
  have hvoid : ty.orAny.isVoid = false := by
    unfold Ty.orAny
    split
    · rfl
    · exact hvoid
  have hstate : R.State { s with functions := ⟨ty.orAny, true⟩ :: s.functions } :=
    ⟨hs.scope, List.forall_mem_cons.mpr ⟨hresult, hs.functions⟩, hs.stem⟩
  exact h.invoked (hf _ hresult hvoid _ _ _ hstate ⟨_, _, rfl⟩ hbody) (htail _ hresult _ _ _ hstate hbody).1

omit h in
theorem ofStmts_flows (ht : (Piece.ofStmts env source tail effect).Tidy) (hsource : R.Permits source.val.items)
    (htail : ∀ result, R.Result result → R.Runs R.Stmts (tail result)) (heffect : R.Runs R.Stmts effect) :
    (Piece.ofStmts env source tail effect).Flows R := by
  have heffect : R.Runs R.Stmts (Piece.ofStmts env source tail effect).effect := heffect.nested
  have htail : ∀ result, R.Result result → R.Runs R.Stmts ((Piece.ofStmts env source tail effect).tail result) :=
    fun result hresult => .ite (fun _ => heffect) fun _ => (htail result hresult).nested
  exact ⟨ht, hsource, htail _, heffect, htail _⟩

theorem ofStmts (hflows : (Piece.ofStmts env source tail effect).Flows R)
    (htyped : R.TypesTail env source (Piece.ofStmts env source tail effect).tail)
    (hf : ∀ result, R.Result result → result.isVoid = false →
      MakesLit R result ((Piece.ofStmts env source tail effect).tail result)) :
    (Piece.ofStmts env source tail effect).Obeys R :=
  ⟨hflows, fun _ he => .nested (h.invokeInPlace htyped he hflows.tidy.tail (fun _ => hflows.tail) hf),
    fun _ hq => nomatch hq⟩

/-! ## Storage -/

theorem wrap (hv : value.Every R.node) (hty : R.ty inner)
    (hs : Storage.wrap env value inner span = .ok stored) : stored.Every R.node := by
  obtain ⟨w, -, rfl⟩ := checked_map_ok hs
  exact h.call (h.qualified (h.runtimeName (by decide))) (by simpa using hty) (by simpa using hv)

omit h in
theorem getReceiver {wrapper : Expr} (hr : read.Every R.node) (hs : read.getReceiver? = some wrapper) :
    wrapper.Every R.node := by
  unfold Expr.getReceiver? at hs
  split at hs
  · split at hs
    · cases hs
      exact (Expr.every_selector.mp (Expr.every_call.mp hr).2.1).2
    · cases hs
  · cases hs

theorem rewrap (hr : read.Every R.node) (hty : R.ty inner)
    (hs : Storage.rewrap env read inner span = .ok stored) : stored.Every R.node := by
  unfold Storage.rewrap at hs
  split at hs
  · rename_i wrapper hwrapper
    obtain ⟨w, -, rfl⟩ := checked_map_ok hs
    exact getReceiver hr hwrapper
  · exact h.wrap hr hty hs

theorem fieldInfo (hty : R.ty ty) {info : FieldInfo}
    (hs : Storage.fieldInfo env ty field span = .ok info) : R.ty info.ty := by
  unfold Storage.fieldInfo at hs
  split at hs
  · rename_i info' hinfo
    cases hs
    exact h.field? hty hinfo
  · cases hs

theorem storeField (hty : R.ty ty) {position : Nat} (hv : value.Every R.node)
    {wrapperRead : Bool} (hs : Storage.storeField env owner ty position value wrapperRead span = .ok element) :
    element.value.Every R.node := by
  unfold Storage.storeField at hs
  split at hs
  · cases hs
  · obtain ⟨info, hinfo, hs⟩ := checked_bind_ok hs
    have hfield := h.fieldInfo hty hinfo
    split at hs
    all_goals
      obtain ⟨stored, hstored, rfl⟩ := checked_map_ok hs
    · exact h.rewrap hv hfield hstored
    · exact h.wrap hv hfield hstored
    · cases hstored
      exact hv

theorem copyField (hr : receiver.Every R.node) (hty : R.ty ty)
    (hs : Storage.copyField env receiver ty field span = .ok element) : element.value.Every R.node := by
  obtain ⟨info, hinfo, rfl⟩ := checked_map_ok hs
  have hcurrent : (Expr.selector receiver field).Every R.node := h.selector hr
  split
  · exact h.call (h.qualified (h.runtimeName (by decide))) (by simpa using h.fieldInfo hty hinfo) (by simpa using hcurrent)
  · exact hcurrent

def Overrides (R : Rule) (overrides : List Storage.Override) : Prop := ∀ o ∈ overrides, o.value.Every R.node

omit h in
theorem takeOverride {others : List Storage.Override} {o : Storage.Override} (ho : Overrides R overrides)
    (hs : Storage.takeOverride field overrides = some (o, others)) : o.value.Every R.node ∧ Overrides R others := by
  obtain ⟨i, -, hs⟩ := Option.bind_eq_some_iff.mp hs
  obtain ⟨taken, htaken, hs⟩ := Option.bind_eq_some_iff.mp hs
  obtain ⟨last, hlast, hs⟩ := Option.bind_eq_some_iff.mp hs
  cases hs
  refine ⟨ho _ (List.mem_of_getElem? htaken), fun other hmem => ?_⟩
  rcases List.mem_or_eq_of_mem_set (List.dropLast_subset _ hmem) with hmem | rfl
  · exact ho other hmem
  · exact ho other (List.mem_of_getLast? hlast)

theorem copyFields (hr : receiver.Every R.node) (hty : R.ty ty) {position : Nat}
    {fields : List String} {left : List Storage.Override} {elements : List Target.Element} (ho : Overrides R overrides)
    (hs : Storage.copyFields env owner receiver ty span position fields overrides = .ok (elements, left)) :
    ∀ el ∈ elements, el.value.Every R.node := by
  fun_induction Storage.copyFields env owner receiver ty span position fields overrides generalizing elements left with
  | case1 position overrides =>
    cases hs
    simp
  | case2 position overrides field fields o others htake ih =>
    obtain ⟨element, helement, hs⟩ := checked_bind_ok hs
    obtain ⟨⟨rest, left'⟩, hrest, ⟨⟩⟩ := checked_map_ok hs
    obtain ⟨hvalue, hothers⟩ := takeOverride ho htake
    exact List.forall_mem_cons.mpr ⟨h.storeField hty hvalue helement, ih hothers hrest⟩
  | case3 position overrides field fields htake ih =>
    obtain ⟨element, helement, hs⟩ := checked_bind_ok hs
    obtain ⟨⟨rest, left'⟩, hrest, ⟨⟩⟩ := checked_map_ok hs
    exact List.forall_mem_cons.mpr ⟨h.copyField hr hty helement, ih ho hrest⟩

theorem copyStruct (hr : receiver.Every R.node) (hty : R.Headed ty)
    (ho : Overrides R overrides) {copy : Expr}
    (hs : Storage.copyStruct env owner receiver ty overrides span = .ok copy) : copy.Every R.node := by
  obtain ⟨⟨elements, left⟩, hfields, hs⟩ := checked_bind_ok hs
  dsimp only at hs
  split at hs
  · cases hs
    exact h.composite hty (h.copyFields hr hty.1 ho hfields)
  · cases hs

/-! ## Calls -/

def Args (R : Rule) (args : List ArgPiece) : Prop := ∀ a ∈ args, a.value.Obeys R

omit h in
theorem Args.tidy (h : Args R args) : TidyArgs args := fun a ha => (h a ha).tidy

omit h in
theorem positional (hargs : Args R args) {callee : String} :
    R.Runs (fun values => ∀ p ∈ values, p.Obeys R) (Lower.positional callee args) := by
  refine .of_framed framed.positional fun s values s' _ hs => ?_
  rw [(positional_ok hs).1]
  simpa [Args] using hargs

omit h in
theorem checkedArgs (hargs : Args R args) {callee : Generic} :
    R.Runs (fun values => ∀ p ∈ values, p.Obeys R) (Lower.checkedArgs callee args span) := by
  refine .of_framed framed.checkedArgs fun s values s' _ hs => ?_
  rw [(checkedArgs_ok hs).1]
  simpa [Args] using hargs

section

variable {callee : Generic} {args : List (Option Piece)} (htp : ∀ p ∈ callee.typeParams, R.param p)
  (hparams : ∀ t ∈ callee.params, R.ty t) (hargs : ∀ p, some p ∈ args → p.Obeys R)
  (hexplicit : ∀ t ∈ explicit, R.ty t) (hexpected : ∀ t ∈ expected, R.ty t)
include htp hparams hargs hexplicit hexpected

theorem calleeTypeArgs :
    R.Runs (fun types => ∀ ts ∈ types, ∀ t ∈ ts, R.ty t)
      (Lower.calleeTypeArgs env callee args explicit expected span) := by
  have hask : R.Runs (fun types => ∀ ts ∈ types, ∀ t ∈ ts, R.ty t)
      (ask env (typeArgsQuestion callee args explicit expected)) := by
    refine .of_framed (framed.askTypeArgs env callee explicit expected fun _ _ => mentionsAny) ?_
    intro s types s' hs hrun ts hts
    rw [askTypeArgs_run] at hrun
    cases hrun
    exact h.typeArgs rfl hs.scope htp hparams (fun p hp => (hargs p hp).source) hexplicit hexpected hts
  refine .check (.bind hask fun resolved hresolved => ?_)
  cases resolved with
  | some found => exact .pure hresolved
  | none => exact .ite (fun _ => .pure nofun) fun _ => .fail

theorem knownTypeArgs :
    R.Runs (fun types => ∀ t ∈ types, R.ty t) (Lower.knownTypeArgs env callee args explicit expected span) := by
  refine .bind (h.calleeTypeArgs htp hparams hargs hexplicit hexpected) fun types htypes => ?_
  split
  · exact .pure (htypes _ rfl)
  · exact .fail

end

theorem argExpected (htp : ∀ p ∈ typeParams, R.param p) {typeArgs : Option (List Ty)}
    (hargs : ∀ ts ∈ typeArgs, ∀ t ∈ ts, R.ty t) {param : Ty} (hparam : R.ty param) :
    ∀ t ∈ Lower.argExpected typeParams typeArgs param, R.ty t := by
  intro t ht
  unfold Lower.argExpected at ht
  split at ht
  · cases ht
    exact h.subst (Rule.substitutes_ofParams htp (hargs _ rfl)) hparam
  · split at ht
    · cases ht
    · cases ht
      exact hparam

theorem lowerArgs {params : List Ty} (hparams : ∀ t ∈ params, R.ty t)
    (htp : ∀ p ∈ typeParams, R.param p) {typeArgs : Option (List Ty)} (hta : ∀ ts ∈ typeArgs, ∀ t ∈ ts, R.ty t)
    {args : List Piece} (hargs : ∀ p ∈ args, p.Obeys R) :
    R.Runs (fun es => ∀ e ∈ es, e.Every R.node) (Lower.lowerArgs params typeParams typeArgs args) := by
  refine .mapM _ fun ap hap => ?_
  obtain ⟨harg, hparam⟩ := List.of_mem_zip hap
  exact (hargs ap.1 harg).value (h.argExpected htp hta (hparams ap.2 hparam))

omit h in
theorem some_mem_map_some {args : List Piece} (hargs : ∀ p ∈ args, p.Obeys R) :
    ∀ p, some p ∈ args.map some → p.Obeys R := by
  intro p hp
  obtain ⟨q, hq, heq⟩ := List.mem_map.mp hp
  rw [← Option.some.inj heq]
  exact hargs q hq

omit h in
theorem getD_types {types : Option (List Ty)} (h : ∀ ts ∈ types, ∀ t ∈ ts, R.ty t) : ∀ t ∈ types.getD [], R.ty t := by
  cases types with
  | none => simp
  | some ts => exact h ts rfl

section

variable (hta : ∀ t ∈ typeArgs, R.ty t) (hargs : Args R args) (he : ∀ t ∈ expected, R.ty t)
include hta hargs he

theorem callFunction (hname : env.function? name = some f) (hf : R.Signature f.typeParams f.params f.result) :
    R.Yields (Lower.callFunction env f typeArgs args expected span) := by
  refine .bind (checkedArgs hargs) fun values hvalues => ?_
  refine .bind (h.calleeTypeArgs hf.typeParams hf.params (some_mem_map_some hvalues) hta he) fun types htypes => ?_
  refine .bind (h.lowerArgs hf.params hf.typeParams htypes hvalues) fun lowered hlowered => ?_
  exact .after (notePackage_framed _ _) fun _ =>
    .pure (h.call (h.qualified (h.functionName hname)) (getD_types htypes) hlowered)

theorem callCompanion {e : TypeEntry} (hentry : env.type? name = some e) (hkind : e.kind = .companion) :
    R.Yields (Lower.callCompanion env e typeArgs args expected span) := by
  unfold Lower.callCompanion
  split
  · exact .fail
  · rename_i apply happly
    have htp := (h.entry hentry).typeParams
    have hparams := ((h.entry hentry).methods _ apply happly).params
    refine .bind (checkedArgs hargs) fun values hvalues => ?_
    refine .bind (h.knownTypeArgs htp hparams (some_mem_map_some hvalues) hta he) fun types htypes => ?_
    have htypes' : ∀ ts ∈ some types, ∀ t ∈ ts, R.ty t := by simpa using htypes
    refine .bind (h.lowerArgs hparams htp htypes' hvalues) fun lowered hlowered => ?_
    have hty := h.headedBuilt hentry (by simp [TypeEntry.isBuilt, hkind]) htypes
    exact .after (notePackage_framed _ _) fun _ => .pure (h.method (h.zero hty) hlowered)

omit hta hargs he in
theorem receiverArgs (hty : R.ty ty) : ∀ t ∈ Lower.receiverArgs ty, R.ty t := by
  unfold Lower.receiverArgs
  split
  · exact h.args (h.pointer hty)
  · exact h.args hty

omit hta hargs he in
theorem methodTypeArgs (hty : R.ty ty) {own : List Ty} (hown : ∀ t ∈ own, R.ty t) (kept : List Bool) :
    ∀ t ∈ MethodForm.typeArgs (Lower.receiverArgs ty) own kept, R.ty t := by
  intro t ht
  rcases List.mem_append.mp ht with ht | ht
  · exact h.receiverArgs hty t ht
  · obtain ⟨⟨t', keep⟩, hmem, rfl⟩ := List.mem_map.mp ht
    exact hown _ (List.of_mem_zip (List.mem_filter.mp hmem).1).1

theorem callMethod {receiver : Piece} (hr : receiver.Obeys R) (hty : R.ty ty)
    {m found : Method} (hfound : env.method? ty name = some (owner, found))
    (hm : R.Signature m.typeParams m.params m.result) :
    R.Yields (Lower.callMethod env receiver ty owner name m typeArgs args expected span) := by
  refine .bind (checkedArgs hargs) fun values hvalues => ?_
  refine .bind (h.calleeTypeArgs hm.typeParams hm.params (some_mem_map_some hvalues) hta he) fun own hown => ?_
  refine .bind (h.lowerArgs hm.params hm.typeParams hown hvalues) fun lowered hlowered => ?_
  refine .bind hr.plainValue fun receiver hreceiver => ?_
  have hkeep : R.Yields (pure (Expr.method receiver name lowered)) :=
    .pure (h.method hreceiver hlowered)
  cases hmethod : owner.method? name with
  | none => exact hkeep
  | some declared =>
    simp only [Option.map_some, MethodForm.of]
    by_cases hmust : MethodForm.mustExtract owner declared = true
    · rw [if_pos hmust]
      refine .after (notePackage_framed _ _) fun _ => .pure ?_
      refine h.call (h.qualified (h.extractedName hfound (by rwa [hmethod]))) ?_
        (List.forall_mem_cons.mpr ⟨hreceiver, hlowered⟩)
      cases own with
      | none => simp
      | some own => exact h.methodTypeArgs hty (hown own rfl) _
    · rw [if_neg hmust]
      exact hkeep

/-! ## Structs -/

omit hta hargs he in
theorem constructorElements {e : TypeEntry} (hty : R.ty ty) :
    ∀ (position : Nat) {values : List Piece}, (∀ p ∈ values, p.Obeys R) →
      R.Runs (fun els => ∀ el ∈ els, el.value.Every R.node) (Lower.constructorElements env e ty span position values)
  | _, [], _ => .pure (by simp)
  | position, value :: values, hvalues => by
    have hfield : ∀ t ∈ ((e.fields[position]?).bind (env.field? ty)).map (·.ty), R.ty t := by
      intro t ht
      obtain ⟨info, hinfo, rfl⟩ := Option.map_eq_some_iff.mp ht
      obtain ⟨name, -, hinfo⟩ := Option.bind_eq_some_iff.mp hinfo
      exact h.field? hty hinfo
    have hvalue := hvalues value (.head _)
    refine .after (framed.readsWrapperOf mentionsAny) fun wrapperRead => ?_
    refine .bind (hvalue.value hfield) fun lowered hlowered => ?_
    refine .bind (.ofChecked fun el hel => h.storeField hty hlowered hel) fun element hel => ?_
    exact .bind (constructorElements hty (position + 1) fun p hp => hvalues p (.tail _ hp)) fun els hels =>
      .pure (List.forall_mem_cons.mpr ⟨hel, hels⟩)

theorem construct {e : TypeEntry} (hentry : env.type? name = some e) (hkind : e.kind = .struct) :
    R.Yields (Lower.construct env e typeArgs args expected span) := by
  have hslots : R.Runs (fun slots => ∀ p, some p ∈ slots → p.Obeys R)
      (Lower.ofChecked (arrange e.fields (args.map fun a => (a.name, a.value)) span)) := by
    refine .ofChecked fun slots hslots p hp => ?_
    obtain ⟨argName, hmem⟩ := (mem_arrange hslots).mp hp
    obtain ⟨a, ha, heq⟩ := List.mem_map.mp hmem
    cases heq
    exact hargs a ha
  refine .bind hslots fun slots hslots => .after framed.checkArity fun _ => ?_
  have hvalues : R.Runs (fun values => ∀ p ∈ values, p.Obeys R) (Lower.constructorArgs e span e.fields slots) :=
    .of_framed framed.constructorArgs fun s values s' _ hrun p hp => hslots p (mem_constructorArgs hrun p hp)
  refine .bind hvalues fun values hvalues => ?_
  have hparams : ∀ t ∈ e.fieldTypes.map Ty.unwrap, R.ty t := by
    intro t ht
    obtain ⟨t', hmem, rfl⟩ := List.mem_map.mp ht
    exact h.unwrap ((h.entry hentry).fieldTypes t' hmem)
  refine .bind (h.knownTypeArgs (h.entry hentry).typeParams hparams hslots hta he) fun types htypes => ?_
  have hty := h.headedBuilt hentry (by simp [TypeEntry.isBuilt, hkind]) htypes
  refine .after (notePackage_framed _ _) fun _ => ?_
  exact .bind (h.constructorElements hty.1 0 hvalues) fun els hels => .pure (h.composite hty hels)

end

theorem copyOverrides (hty : R.ty ty) : ∀ (seen : List String) {args : List ArgPiece},
    Args R args → R.Runs (Overrides R) (Lower.copyOverrides env ty seen args)
  | _, [], _ => by
    exact .pure (by simp [Overrides])
  | _, ⟨none, value⟩ :: _, _ => by
    exact .fail
  | seen, ⟨some name, value⟩ :: args, hargs => by
    have hvalue := hargs ⟨some name, value⟩ (.head _)
    refine .check (.bind (.ofChecked fun info hinfo => h.fieldInfo hty hinfo) fun info hinfo => ?_)
    refine .after (framed.readsWrapperOf mentionsAny) fun wrapperRead => ?_
    refine .bind (hvalue.value (by simpa using hinfo)) fun lowered hlowered => ?_
    exact .bind (copyOverrides hty (name.val :: seen) fun a ha => hargs a (.tail _ ha)) fun overrides ho =>
      .pure (List.forall_mem_cons.mpr ⟨hlowered, ho⟩)

theorem fresh : R.Runs (fun x => (R.name x ∧ R.mention x) ∧ ∃ stem, R.stem stem ∧ ∃ n : Nat, x = stem ++ toString n) Lower.fresh := by
  refine .of_framed fresh_framed fun s x s' hstate hs => ?_
  cases hs
  exact ⟨h.temporary hstate.stem _, s.names.stem, hstate.stem, s.names.next, rfl⟩

section

variable (hargs : Args R args)
include hargs

theorem callCopy {receiver : Piece} (hr : receiver.Obeys R) (hty : R.Headed ty) :
    R.Yields (Lower.callCopy env receiver ty owner args span) := by
  refine .bind (h.copyOverrides hty.1 [] hargs) fun overrides ho => ?_
  refine .bind hr.plainValue fun receiver hreceiver => .ite (fun _ => ?_) fun _ => ?_
  · exact .ofChecked fun copy hcopy => h.copyStruct hreceiver hty ho hcopy
  · refine .bind h.fresh fun tmp htmp => ?_
    have hread := h.written (h.boundName htmp.1.1)
    refine .bind (.ofChecked fun copy hcopy => h.copyStruct hread hty ho hcopy) fun copy hcopy => .pure ?_
    have hstraight : R.Straight [ty] [.define1 tmp receiver, .ret1 copy] := by
      refine ⟨rfl, rfl, fun x hx => ?_⟩
      obtain rfl : x = tmp := by simpa [Stmt.anyWrites, Stmt.define1, Stmt.ret1, Stmt.writes] using hx
      exact htmp.2
    have hscopes : R.Scoped (.expr (.funcLit [] [ty] [.define1 tmp receiver, .ret1 copy])) :=
      .inl ⟨List.pairwise_singleton _ tmp, List.forall_mem_singleton.mpr (.inr htmp.1.1)⟩
    exact h.invoked (h.straight hstraight _ rfl (by simpa using h.emitted hty.1) hscopes)
      (.cons (h.define hreceiver) (h.ret1 hcopy))

theorem callConversion (hty : R.ty ty) : R.Yields (Lower.callConversion ty args span) := by
  refine .bind (positional hargs) fun values hvalues => ?_
  split
  · exact .bind (hvalues _ (.head _)).plainValue fun lowered hlowered =>
      .pure (h.apply (h.type hty) (by simpa using hlowered))
  · exact .fail

theorem callValue (hc : callee.Obeys R) {params : List Ty} (hparams : ∀ t ∈ params, R.ty t) :
    R.Yields (Lower.callValue callee params args span) := by
  refine .bind (checkedArgs hargs) fun values hvalues => .bind hc.plainValue fun function hfunction => ?_
  exact .bind (h.lowerArgs hparams (by simp) (by simp) hvalues) fun lowered hlowered =>
    .pure (h.apply hfunction hlowered)

theorem callUntyped (hc : callee.Obeys R) : R.Yields (Lower.callUntyped callee args) := by
  unfold Lower.callUntyped
  extract_lets rest
  have hrest : ∀ function : Expr, function.Every R.node → R.Yields (rest function) := by
    intro function hfunction
    refine .bind (positional hargs) fun values hvalues => ?_
    exact .bind (.mapM _ fun p hp => (hvalues p hp).plainValue) fun lowered hlowered =>
      .pure (h.apply hfunction hlowered)
  have hvalue : R.Yields (callee.value none >>= rest) :=
    .bind hc.plainValue hrest
  split
  · exact .ite (fun hbuiltin => .bind (.pure (h.written (h.builtinName (.inl hbuiltin)))) hrest) fun _ => hvalue
  · exact hvalue

end

omit h in
theorem receiverOf (h : callee.Obeys R) : (Lower.receiverOf callee).Obeys R := by
  unfold Lower.receiverOf
  cases hp : callee.parts with
  | nil => exact h
  | cons q parts => exact h.parts q (hp ▸ .head _)

theorem head_typed {e : Located Source.Expr} (hitems : R.Permits e.val.items)
    (hgaps : ∀ g ∈ e.val.gaps, G g) : ∀ q ∈ (Lower.piece env e).parts.head?, q.Typed R env := by
  obtain ⟨e, span⟩ := e
  intro q hq
  cases e with
  | select target member =>
    cases hq
    exact h.typed (permits_append.mp hitems).2 hgaps
  | index target index =>
    cases hq
    exact h.typed (permits_append.mp hitems).1 fun g hg => hgaps g (List.mem_append_left _ hg)
  | ifElse cond thenBranch elseBranch =>
    cases elseBranch <;> simp only [Lower.piece] at hq <;> cases hq
  | _ =>
    cases hq

theorem lowerCall {callee : Located Source.Expr} (hc : (Lower.piece env callee).Obeys R)
    (hitems : R.Permits callee.val.items) (hfilled : callee.val.Filled G) (hta : ∀ t ∈ typeArgs, R.ty t)
    (hargs : Args R args) (he : ∀ t ∈ expected, R.ty t) :
    R.Yields (Lower.lowerCall env (Lower.piece env callee) typeArgs args expected span) := by
  refine .of_framed (framed.lowerCall hc.tidy hargs.tidy) fun s v s' hs hrun => ?_
  have hhead := h.head_typed (e := callee) hitems fun g hg => hfilled g (List.mem_append_right _ hg)
  have hcallee := h.callee_of_lowered hitems (fun name _ b hb => (hs.scope name b hb).ty)
    (h.typed hitems hfilled s hs.scope) (fun q hq => hhead q hq s hs.scope) hargs.tidy hrun
  have hcall := hrun
  obtain ⟨called, s1, hask, hrun⟩ := bind_ok hrun
  rw [askCalleeOf_run, piece_source] at hask
  cases hask
  generalize hcalled : (⟨env, s.typeParams⟩ : Inference).callee s.scope callee = target at hcallee hrun
  cases target with
  | function f =>
    obtain ⟨name, hname⟩ := exists_function hcalled
    exact (h.callFunction hta hargs he hname hcallee _ _ _ hs hrun).1
  | constructor e =>
    obtain ⟨⟨name, hentry⟩, hkind⟩ := hcallee
    exact (h.construct hta hargs he hentry hkind _ _ _ hs hrun).1
  | companion e =>
    obtain ⟨⟨name, hentry⟩, hkind⟩ := hcallee
    exact (h.callCompanion hta hargs he hentry hkind _ _ _ hs hrun).1
  | method ty owner name m =>
    obtain ⟨found, hfound⟩ := exists_method hcalled
    exact (h.callMethod hta hargs he (receiverOf hc) hcallee.1 hfound hcallee.2 _ _ _ hs hrun).1
  | copy ty owner =>
    obtain ⟨target, name, place, rfl⟩ := exists_select hcalled
    have hliteral := h.copied ((permits_append.mp hitems).1 _ (.head _)) hs hcalled hcall
    exact (h.callCopy hargs (receiverOf hc) ⟨hcallee, hliteral⟩ _ _ _ hs hrun).1
  | conversion ty => exact (h.callConversion hargs hcallee _ _ _ hs hrun).1
  | unknown => exact (h.callUntyped hargs hc _ _ _ hs hrun).1
  | value ty =>
    cases ty with
    | func params results => exact (h.callValue hargs hc (h.func.mp (hcallee rfl)).1 _ _ _ hs hrun).1
    | nil => exact (h.callUntyped hargs hc _ _ _ hs hrun).1
    | _ => cases hrun

/-! ## Lambdas and tuples -/

theorem expectedSignature (he : ∀ t ∈ expected, R.ty t) : (∀ t ∈ (Lower.expectedSignature expected).1, R.ty t) ∧
      ∀ ts ∈ (Lower.expectedSignature expected).2, ∀ t ∈ ts, R.ty t := by
  unfold Lower.expectedSignature
  split
  · have hfunc := h.func.mp (he _ rfl)
    exact ⟨hfunc.1, by simpa using hfunc.2⟩
  · simp

omit h in
theorem lambdaFields (hp : ∀ p ∈ params, R.name p.name ∧ ∀ t ∈ p.ty, R.ty t) {expected : List Ty}
    (he : ∀ t ∈ expected, R.ty t) :
    R.Runs (fun fields => ∀ f ∈ fields, R.name f.name ∧ R.ty f.ty) (Lower.lambdaFields span params expected) := by
  induction params generalizing expected with
  | nil =>
    exact .pure (by simp)
  | cons p params ih =>
    simp only [Lower.lambdaFields]
    split
    · rename_i ty hty
      have hp' := hp p (.head _)
      have hty : R.ty ty := by
        simp only [Option.orElse_eq_orElse, Option.orElse_eq_or, Option.or_eq_some_iff] at hty
        rcases hty with hty | ⟨-, hty⟩
        · exact hp'.2 ty hty
        · exact he ty (List.mem_of_head? (Option.filter_eq_some_iff.mp hty).1)
      have htail : ∀ t ∈ expected.tail, R.ty t := fun t ht => he t (List.mem_of_mem_tail ht)
      exact .bind (ih (fun q hq => hp q (.tail _ hq)) htail) fun fields hfields =>
        .pure (List.forall_mem_cons.mpr ⟨⟨hp'.1, hty⟩, hfields⟩)
    · exact .fail

theorem lambdaResult {expected : Option (List Ty)} (he : ∀ ts ∈ expected, ∀ t ∈ ts, R.ty t)
    {body : Piece} (hb : body.Typed R env) (hs : R.Scope s.scope) {result : Ty}
    (hresult : Lower.lambdaResult env expected body.source s = .ok result s) {functions : List FunctionFrame}
    (hbody : body.body result { s with functions := functions } = .ok stmts s') : R.Result result := by
  obtain ⟨-, ⟨-, rfl⟩ | ⟨ts, hts, hmem, -⟩ | rfl⟩ := lambdaResult_ok hresult
  · exact .inl rfl
  · exact .inr (he ts hts _ hmem)
  · have hknown := hb s hs { s with functions := functions } (.body Ty.fits_orAny hbody) ⟨rfl, rfl⟩
    exact hknown.orAny h.any

theorem lowerLambda (hp : ∀ p ∈ params, R.name p.name ∧ ∀ t ∈ p.ty, R.ty t) {body : Piece}
    (hb : body.Flows R) (htyped : body.Typed R env) (he : ∀ t ∈ expected, R.ty t)
    (hf : ∀ result s stmts s', R.State s → s.Inside result → body.body result s = .ok stmts s' →
      ∀ n : Node, n.function? = some (result.results, stmts) → (∀ t ∈ n.types, R.emitted t) →
      n.parameters = params.map (·.name) → R.node n) :
    R.Yields (Lower.lowerLambda env params body expected span) := by
  refine .of_framed (framed.lowerLambda hb.tidy) fun s v s' hs hrun => ?_
  have hsignature := h.expectedSignature he
  obtain ⟨fields, result, stmts, s1, hlowered, hasked, hbody, rfl⟩ := lowerLambda_ok hrun
  have hfields := (lambdaFields hp hsignature.1 _ _ _ hs hlowered).1
  have hscope : R.Scope (s.inLambda (fields.map fun f => (f.name, f.ty))).scope :=
    h.scope_bindAll hs.scope.enter (List.forall_mem_map.mpr fun f hf => ⟨(hfields f hf).1, .inr (hfields f hf).2⟩)
  have hresult := h.lambdaResult hsignature.2 htyped hscope hasked hbody
  have hstate : R.State { s.inLambda (fields.map fun f => (f.name, f.ty)) with
      functions := ⟨result, false⟩ :: s.functions } :=
    ⟨hscope, List.forall_mem_cons.mpr ⟨hresult, hs.functions⟩, hs.stem⟩
  refine Expr.every_funcLit.mpr ⟨hf result _ _ _ hstate ⟨_, _, rfl⟩ hbody _ rfl ?_ (lambdaFields_names hlowered),
    (hb.body hresult _ _ _ hstate hbody).1⟩
  simp only [Node.types, List.forall_mem_append, List.forall_mem_map]
  exact ⟨fun f hfield => h.emitted (hfields f hfield).2, fun t ht => h.emitted (hresult.results t ht)⟩

omit h in
theorem elementType {hint : Option Ty} (hh : ∀ t ∈ hint, R.ty t) {elem : Piece} (he : elem.Typed R env) {position : Nat}
    (hs : R.State s) (hty : Lower.elementType env hint elem position s = .ok ty s)
    (hv : elem.value (some ty) s = .ok v s') : R.ty ty := by
  obtain ⟨-, hconcrete, hmem | rfl⟩ := elementType_ok hty
  · exact hh ty hmem
  · obtain ⟨hnil, hvoid⟩ := Ty.known_of_isConcrete hconcrete
    exact (he s hs.scope s (.value (by simpa using s.fits_typeOf) hv) (.refl)).ty hnil hvoid

omit h in
theorem tupleElements {hints : List Ty} (hh : ∀ t ∈ hints, R.ty t) (position : Nat) (he : ∀ p ∈ elems, p.Obeys R)
    (htyped : ∀ p ∈ elems, p.Typed R env) :
    R.Runs (fun els => ∀ el ∈ els, R.ty el.1 ∧ el.2.value.Every R.node)
      (Lower.tupleElements env hints position elems) := by
  induction elems generalizing position with
  | nil =>
    exact .pure (by simp)
  | cons elem elems ih =>
    obtain ⟨helem, hrest⟩ := List.forall_mem_cons.mp he
    obtain ⟨helemTyped, hrestTyped⟩ := List.forall_mem_cons.mp htyped
    intro s els s' hs hrun
    obtain ⟨ty, s1, hty, hlowered⟩ := bind_ok hrun
    obtain rfl := (elementType_ok hty).1
    obtain ⟨value, s2, hvalue, hothers⟩ := bind_ok hlowered
    obtain ⟨rest, s3, hels, hdone⟩ := bind_ok hothers
    have helemTy := elementType (fun t ht => hh t (List.mem_of_getElem? ht)) helemTyped hs hty hvalue
    obtain ⟨hv, hstate⟩ := helem.value (by simpa using helemTy) _ _ _ hs hvalue
    obtain ⟨hrest, hstate⟩ := ih (position + 1) hrest hrestTyped _ _ _ hstate hels
    obtain ⟨rfl, rfl⟩ := pure_ok hdone
    exact ⟨List.forall_mem_cons.mpr ⟨⟨helemTy, hv⟩, hrest⟩, hstate⟩

theorem lowerTuple (he : ∀ p ∈ elems, p.Obeys R) (htyped : ∀ p ∈ elems, p.Typed R env)
    (hexpected : ∀ t ∈ expected, R.ty t) :
    R.Yields (Lower.lowerTuple env elems expected span) := by
  have hhints : ∀ t ∈ ((expected.filter (·.tupleArity? == some elems.length)).map Ty.args).getD [], R.ty t := by
    cases hfilter : expected.filter (·.tupleArity? == some elems.length) with
    | none => simp
    | some wanted => exact h.args (hexpected wanted (Option.filter_eq_some_iff.mp hfilter).1)
  refine .check (.bind (tupleElements hhints 0 he htyped) fun els hels => .pure (h.composite ⟨h.tuple ?_, h.headed _ _ _⟩ ?_))
  · simpa using fun t el hmem => (hels (t, el) hmem).1
  · simpa using fun el t hmem => (hels (t, el) hmem).2

/-! ## Matches -/

theorem step_wrap {step : Match.Step} (hstep : R.Step step) {rest : List Stmt × Bool} (hrest : R.Stmts rest.1) :
    R.Stmts (step.wrap used rest).1 := by
  cases step with
  | define names value => exact .cons (h.define hstep) hrest
  | bind name value =>
    simp only [Match.Step.wrap]
    split
    · exact .cons (h.define hstep) hrest
    · exact hrest
  | touch value => exact .cons (h.touch hstep) hrest
  | check cond =>
    simp only [Match.Step.wrap]
    split
    · rename_i inner thenBody els
      obtain ⟨-, hinner, hthen, hels⟩ := Stmt.every_ifElse.mp (hrest _ (.head _))
      exact .one (h.ifElse (h.binary hstep hinner) hthen hels)
    · exact .one (h.ifElse hstep hrest .nil)
  | assert name user ok value ty =>
    obtain ⟨hvalue, hty, hok⟩ := hstep
    have hassert : (Expr.typeAssert (.apply (.ident "any") [value]) ty).Every R.node :=
      h.typeAssert (h.apply (h.written (h.builtinName (.inr (by decide)))) (by simpa using hvalue)) hty
    exact .cons (h.define hassert) (.one (h.ifElse hok hrest .nil))

theorem assemble (hsteps : ∀ step ∈ compiled.steps, R.Step step) (hb : R.Stmts body) :
    R.Stmts (compiled.assemble used body) := by
  unfold Match.CompiledPattern.assemble
  generalize compiled.steps = steps at hsteps
  induction steps with
  | nil => exact hb
  | cons step steps ih =>
    exact h.step_wrap (hsteps step (.head _)) (ih fun s hs => hsteps s (.tail _ hs))

theorem guarded {cond : Expr} (hc : cond.Every R.node) (hb : R.Stmts body) : R.Stmts [.guarded cond body] :=
  .one (h.ifElse hc hb .nil)

structure Code (R : Rule) (c : ClauseCode) : Prop where
  steps : ∀ step ∈ c.pattern.steps, R.Step step
  body : R.Stmts c.body

def Flag (R : Rule) (flag : Option String) : Prop :=
  ∀ x ∈ flag, (Expr.ident x).Every R.node ∧ R.node (.stmt (.assign1 (.ident x) (.bool true)))

theorem matchFlag (clauses : Nat) : R.Runs (Flag R) (Lower.matchFlag position clauses) := by
  cases position with
  | tail result => exact .pure nofun
  | effect =>
    refine .ite (fun _ => .of_framed (.map freshFlag_framed) fun s flag s' _ hrun x hx => ?_) fun _ => .pure nofun
    cases hrun
    cases hx
    exact ⟨h.written (h.flagName _), h.flagged s.names.matched⟩

theorem clauseStmts {c : ClauseCode} (hc : Code R c) (hf : Flag R flag) : R.Stmts (c.stmts flag) := by
  refine h.assemble hc.steps (.append ?_ hc.body)
  cases flag with
  | none => exact .nil
  | some flag =>
    refine .one (Stmt.every_assign.mpr ⟨(hf flag rfl).2, ?_, ?_⟩)
    · exact List.forall_mem_singleton.mpr (hf flag rfl).1
    · exact List.forall_mem_singleton.mpr h.lit

theorem placeClause (hf : Flag R flag) (hs : R.Stmts stmts) (always : Bool) :
    R.Stmts (Lower.placeClause flag stmts always) := by
  unfold Lower.placeClause
  split
  · exact h.guarded (h.unary (hf _ rfl).1) hs
  · split
    · exact .one (h.block hs)
    · exact hs

theorem unreachable (hf : Flag R flag) : R.Stmts [Lower.unreachable ty flag] := by
  have hpanic : ∀ message : String, R.Stmts [.expr (.apply (.ident "panic") [.string message])] := fun message =>
    .one (h.expr (h.apply (h.written (h.builtinName (.inl (by decide))))
      (List.forall_mem_singleton.mpr h.lit)))
  unfold Lower.unreachable
  split
  · exact h.guarded (h.unary (hf _ rfl).1) (hpanic _)
  · exact hpanic _

theorem compilePattern {p : Located Source.Pattern} (hp : R.Permits p.val.items) {subject : Expr}
    (hs : subject.Every R.node) (hty : R.ty ty) :
    R.Runs (fun compiled => R.Compiled compiled.steps compiled.bindings) (Lower.compilePattern env p subject ty) := by
  exact .of_framed (compilePattern_framed _ _ _ _) fun s compiled s' hstate hrun =>
    h.compile h.toNaming hp hs (.of_ty hty) hstate.stem (ofChecked_ok hrun).1

theorem withGuard (hc : ∀ step ∈ compiled.steps, R.Step step) {guard : Option Piece} (hg : ∀ g ∈ guard, g.Obeys R) :
    R.Runs (fun compiled => ∀ step ∈ compiled.steps, R.Step step) (Lower.withGuard compiled guard) := by
  unfold Lower.withGuard
  split
  · exact .pure hc
  · rename_i g
    have hg := hg g rfl
    refine .bind (hg.value (by simpa using h.bool)) fun cond hcond => .pure ?_
    simpa [Match.CompiledPattern.guard, or_imp, forall_and] using ⟨hc, hcond⟩

def Stands (R : Rule) : Position → Prop
  | .effect => True
  | .tail result => R.Result result

omit h in
theorem clauseBody {body : Piece} (hb : body.Flows R) (hp : Stands R position) :
    R.Runs R.Stmts (Lower.clauseBody body position) := by
  cases position with
  | effect => exact hb.effect
  | tail result => exact hb.tail hp

theorem clauseCode {clause : ClausePiece} (hc : clause.Obeys R) {subject : Expr}
    (hs : subject.Every R.node) (hty : R.ty ty) (hp : Stands R position) :
    R.Runs (Code R) (Lower.clauseCode env clause subject ty position) := by
  refine .of_framed (framed.clauseCode hc.tidy) fun s code s' hstate hrun => ?_
  obtain ⟨compiled, s1, hcompiled, hrun⟩ := bind_ok hrun
  obtain ⟨hcompiled, hstate⟩ := h.compilePattern hc.pattern hs hty _ _ _ hstate hcompiled
  refine (Runs.bindAll h.toFormed hcompiled.bindings ?_).inScope hstate hrun
  exact .bind (h.withGuard hcompiled.steps hc.guard) fun guarded hguarded =>
    .bind (clauseBody hc.body hp) fun body hbody => .pure ⟨hguarded, hbody⟩

theorem clauseCodes (hc : ∀ c ∈ clauses, c.Obeys R) {subject : Expr} (hs : subject.Every R.node)
    (hty : R.ty ty) (hp : Stands R position) :
    R.Runs (fun codes => ∀ c ∈ codes, Code R c) (Lower.clauseCodes env subject ty position clauses) := by
  induction clauses with
  | nil =>
    exact .pure (by simp)
  | cons clause clauses ih =>
    refine .bind (h.clauseCode (hc clause (.head _)) hs hty hp) fun code hcode =>
      .ite (fun _ => .pure (by simpa using hcode)) fun _ => ?_
    exact .bind (ih fun c hmem => hc c (.tail _ hmem)) fun codes hcodes =>
      .pure (List.forall_mem_cons.mpr ⟨hcode, hcodes⟩)

theorem matchSubject (hs : subject.Obeys R) :
    R.Runs (fun start => R.Stmts start.1 ∧ start.2.Every R.node) (Lower.matchSubject subject) := by
  refine .bind hs.plainValue fun lowered hlowered => .ite (fun _ => .pure ?_) fun _ => ?_
  · exact ⟨.nil, hlowered⟩
  · exact .bind h.fresh fun tmp htmp =>
      .pure ⟨.one (h.define hlowered), h.written (h.boundName htmp.1.1)⟩

omit h in
theorem subjectType (hs : subject.Typed R env) {s1 s2 : LowerState} (hstate : R.State s) {checked : Ty × Match.Coverage}
    (hchecked : Lower.checkMatch env subject clauses position span s = .ok checked s1) {start : List Stmt × Expr}
    (hstart : Lower.matchSubject subject s1 = .ok start s2) : R.ty checked.1 := by
  obtain ⟨heq, hnil, hvoid⟩ := checkMatch_type hchecked
  obtain ⟨v, s3, hv⟩ := matchSubject_ok hstart
  have hframed := (framed.checkMatch mentionsAny fun _ _ _ _ => trivial).ok hchecked
  have hknown := hs s hstate.scope _ (.plain hv) hframed.alike
  rw [← heq] at hknown
  exact hknown.ty hnil hvoid

structure Parts (R : Rule) (code : MatchCode) : Prop where
  start : R.Stmts code.start
  flag : Flag R code.flag
  clauses : ∀ c ∈ code.clauses, Code R c

theorem matchCode (hs : subject.Obeys R) (htyped : subject.Typed R env) (hc : ∀ c ∈ clauses, c.Obeys R)
    (hp : Stands R position) : R.Runs (Parts R) (Lower.matchCode env subject clauses position span) := by
  intro s code s' hstate hrun
  obtain ⟨checked, s1, hchecked, hrun⟩ := bind_ok hrun
  obtain ⟨start, s2, hstarted, hrun⟩ := bind_ok hrun
  have hty := subjectType htyped hstate hchecked hstarted
  have hstate1 := hstate.framed ((framed.checkMatch mentionsAny fun _ _ _ _ => trivial).ok hchecked)
  obtain ⟨hstart, hstate2⟩ := h.matchSubject hs _ _ _ hstate1 hstarted
  refine Runs.bind (h.matchFlag _) (fun flag hflag => ?_) _ _ _ hstate2 hrun
  exact .bind (h.clauseCodes hc hstart.2 hty hp) fun codes hcodes => .pure ⟨hstart.1, hflag, hcodes⟩

theorem lowerMatch (hs : subject.Obeys R) (htyped : subject.Typed R env) (hc : ∀ c ∈ clauses, c.Obeys R)
    (hp : Stands R position) : R.Runs R.Stmts (Lower.lowerMatch env subject clauses position span) := by
  rw [lowerMatch_eq]
  refine .bind (h.matchCode hs htyped hc hp) fun code hcode => .pure ?_
  have hflag : R.Stmts code.flagStart := by
    unfold MatchCode.flagStart
    split
    · exact .one (h.define h.lit)
    · exact .nil
  have hchain : R.Stmts (chain code.flag code.clauses) := by
    intro stmt hmem
    obtain ⟨c, hcmem, hmem⟩ := List.mem_flatMap.mp hmem
    exact h.placeClause hcode.flag (h.clauseStmts (hcode.clauses c hcmem) hcode.flag) _ stmt hmem
  have hending : R.Stmts (if code.panics then [Lower.unreachable code.ty code.flag] else []) := by
    split
    · exact h.unreachable hcode.flag
    · exact .nil
  simp only [MatchCode.stmts, Rule.Stmts, List.forall_mem_append]
  exact ⟨⟨⟨hcode.start, hflag⟩, hchain⟩, hending⟩

end Rule.Sound

end Lowering
