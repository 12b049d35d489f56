/-
  Mentioned — lowering sees of the scope only what the source mentions.

  Two runs from states that differ in the scope only, and there only in names that the source does not mention,
  give the same code or the same diagnostic.
-/

import Lowering.Proofs.Globals

namespace Lowering

/-! ## Scopes that agree -/

namespace Scope

theorem find?_eq_of_lookups {s s' : Scope} {x : String} (hty : s'.typeOf x = s.typeOf x)
    (hmutability : s'.mutabilityOf? x = s.mutabilityOf? x) : s'.find? x = s.find? x := by
  unfold typeOf at hty
  unfold mutabilityOf? at hmutability
  cases h : s.find? x with
  | none =>
    cases h' : s'.find? x with
    | none => rfl
    | some b' => simp [h, h'] at hmutability
  | some b =>
    cases h' : s'.find? x with
    | none => simp [h, h'] at hmutability
    | some b' =>
      obtain ⟨mutability', ty'⟩ := b'
      simp only [h, h', Option.map_some, Option.getD_some, Option.some.injEq] at hty hmutability
      rw [hty, hmutability]

namespace Agree

variable {names : String → Prop} {s s' : Scope}

theorem enter (h : s.Agree names s') : s.enter.Agree names s'.enter := by
  intro x hx
  rw [find?_enter, find?_enter, h x hx]

theorem bind (h : s.Agree names s') {name : String} {mutability : Mutability} {ty : Ty} :
    (s.bind name mutability ty).Agree (fun x => names x ∨ x = name) (s'.bind name mutability ty) := by
  intro x hx
  rw [find?_bind, find?_bind]
  by_cases hname : x = name
  · rw [if_pos hname, if_pos hname]
  · rw [if_neg hname, if_neg hname]
    exact h x (hx.resolve_right hname)

theorem mono {names' : String → Prop} (h : s.Agree names s') (hsub : ∀ x, names' x → names x) : s.Agree names' s' :=
  fun x hx => h x (hsub x hx)

theorem bindAll (h : s.Agree names s') {bindings : List (String × Ty)} :
    (s.bindAll bindings).Agree names (s'.bindAll bindings) :=
  List.foldl_rel h fun b _ _ _ hs => hs.bind.mono fun _ => .inl

end Agree

end Scope

/-! ## Two runs -/

/-- The states differ in the scope only, and there in other names only. -/
structure LowerState.Agree (names : String → Prop) (s s' : LowerState) : Prop where
  scope : s.scope.Agree names s'.scope
  rest : s' = { s with scope := s'.scope }

/-- The same result or the same diagnostic, in states that agree. -/
inductive Agreeing (names : String → Prop) {α : Type} :
    EStateM.Result Diagnostic LowerState α → EStateM.Result Diagnostic LowerState α → Prop
  | ok (a : α) {s s' : LowerState} : s.Agree names s' → Agreeing names (.ok a s) (.ok a s')
  | error (d : Diagnostic) {s s' : LowerState} : s.Agree names s' → Agreeing names (.error d s) (.error d s')

def inScope {α : Type} (scope : Scope) : EStateM.Result Diagnostic LowerState α → EStateM.Result Diagnostic LowerState α
  | .ok a s => .ok a { s with scope := scope }
  | .error d s => .error d { s with scope := scope }

def Blind (names : String → Prop) {α : Type} (act : Lower α) : Prop :=
  ∀ s s', s.Agree names s' → Agreeing names (act s) (act s')

namespace Blind

open Lower

variable {names : String → Prop} {α β γ : Type}

theorem pure (a : α) : Blind names (Pure.pure a : Lower α) := fun _ _ h => .ok a h

theorem fail {fault : Fault} : Blind names (Lower.fail fault span : Lower α) := fun _ _ h => .error _ h

variable {f : α → Lower β} {x act : Lower α} {e : Located Source.Expr}

theorem bind_of (hx : Blind names x) (hf : ∀ a s s', x s = .ok a s' → Blind names (f a)) : Blind names (x >>= f) := by
  intro s s' h
  have hstart := hx s s' h
  simp only [Bind.bind, EStateM.bind]
  generalize hrun : x s = r at hstart
  generalize x s' = r' at hstart
  cases hstart with
  | ok a hend => exact hf a _ _ hrun _ _ hend
  | error d hend => exact .error d hend

theorem bind (hx : Blind names x) (hf : ∀ a, Blind names (f a)) :
    Blind names (x >>= f) := hx.bind_of fun a _ _ _ => hf a

theorem look {f : Scope → Lower β} (hf : ∀ scope scope', scope.Agree names scope' → f scope' = f scope)
    (hblind : ∀ scope, Blind names (f scope)) : Blind names (Lower.scope >>= f) := by
  intro s s' h
  show Agreeing names (f s.scope s) (f s'.scope s')
  rw [hf _ _ h.scope]
  exact hblind _ s s' h

theorem inFunctions {f : LowerState → Lower β} (hf : ∀ s s', s'.functions = s.functions → f s' = f s)
    (hblind : ∀ s, Blind names (f s)) : Blind names (get >>= f) := by
  intro s s' h
  show Agreeing names (f s s) (f s' s')
  rw [hf s s' (by rw [h.rest])]
  exact hblind s s s' h

theorem of_apart (hframed : Keeps Framed act)
    (hact : ∀ s scope, act { s with scope := scope } = inScope scope (act s)) : Blind names act := by
  intro s s' h
  have hkeep : (final act s).scope = s.scope := (hframed s).scope
  unfold final at hkeep
  rw [h.rest, hact s s'.scope]
  generalize act s = r at hkeep
  cases r with
  | ok a t => exact .ok a ⟨hkeep ▸ h.scope, rfl⟩
  | error d t => exact .error d ⟨hkeep ▸ h.scope, rfl⟩

theorem apply (hact : Blind names act) (hframed : Keeps Framed act) {s : LowerState} {scope : Scope}
    (h : s.scope.Agree names scope) : act { s with scope := scope } = inScope scope (act s) := by
  have hruns := hact s { s with scope := scope } ⟨h, rfl⟩
  have hkeep : (final act { s with scope := scope }).scope = scope := (hframed _).scope
  unfold final at hkeep
  generalize act { s with scope := scope } = r' at hruns hkeep
  generalize act s = r at hruns
  cases hruns with
  | ok a hend | error d hend =>
    rw [hend.rest, hkeep]
    rfl

theorem fresh : Blind names Lower.fresh := of_apart fresh_framed fun _ _ => rfl

theorem freshFlag : Blind names Lower.freshFlag := of_apart freshFlag_framed fun _ _ => rfl

theorem inference : Blind names (Lower.inference env) := of_apart (inference_framed env) fun _ _ => rfl

theorem notePackage {package : String} : Blind names (Lower.notePackage env package) := by
  refine of_apart (notePackage_framed env package) fun s scope => ?_
  show EStateM.Result.ok () (if _ then _ else _) = inScope scope (.ok () (if _ then _ else _))
  split <;> rfl

theorem compilePattern (p : Located Source.Pattern) {subject : Target.Expr} :
    Blind names (Lower.compilePattern env p subject ty) := by
  refine of_apart (compilePattern_framed env p subject ty) fun s scope => ?_
  unfold Lower.compilePattern
  dsimp only
  cases (Match.compile env p subject ty s.names).1 <;> rfl

/-! ### Questions and brackets -/

theorem typeOf (he : e.val.MentionsOnly names) : Blind names (Lower.typeOf env e) := by
  intro s s' h
  rw [typeOf_run, typeOf_run, h.rest, Inference.typeOf_alike _ h.scope.seenAlike he]
  exact .ok _ ⟨h.scope, rfl⟩

theorem askCallee (he : e.val.MentionsOnly names) : Blind names (Lower.ask env (·.askCalleeOf e)) := by
  intro s s' h
  rw [askCalleeOf_run, askCalleeOf_run, h.rest, Inference.callee_alike _ h.scope.seenAlike he]
  exact .ok _ ⟨h.scope, rfl⟩

theorem askClauses {subject : Ty} {clauses : List Source.Clause} (hc : ∀ c ∈ clauses, c.MentionsOnly names) :
    Blind names (Lower.ask env (·.askClauses subject clauses)) := by
  intro s s' h
  rw [askClauses_run, askClauses_run, h.rest, Inference.clauseTypes_alike _ h.scope.seenAlike hc]
  exact .ok _ ⟨h.scope, rfl⟩

theorem askTypeArgs {callee : Generic} {args : List (Option Piece)} {explicit : List Ty} {expected : Option Ty}
    (ha : ∀ p, some p ∈ args → p.source.val.MentionsOnly names) :
    Blind names (Lower.ask env (typeArgsQuestion callee args explicit expected)) := by
  intro s s' h
  have htypings : typingsAt env s' args = typingsAt env s args := by
    refine List.map_congr_left fun arg harg => ?_
    cases arg with
    | none => rfl
    | some p => rw [h.rest, Option.map_some, Option.map_some, Inference.argTypingOf_alike _ h.scope.seenAlike (ha p harg)]
  rw [askTypeArgs_run, askTypeArgs_run, htypings]
  exact .ok _ h

theorem bindAll {bindings : List (String × Ty)} : Blind names (Lower.bindAll bindings) := by
  intro s s' h
  rw [h.rest]
  exact .ok () ⟨h.scope.bindAll, rfl⟩

theorem bindName (name : String) (mutability : Mutability) : Blind names (Lower.bind name mutability ty) := by
  intro s s' h
  rw [h.rest]
  exact .ok () ⟨h.scope.bind.mono fun _ => .inl, rfl⟩

theorem withScope_of {inner : String → Prop} (hsteady : Keeps Steady act)
    (hact : ∀ s s', s.Agree names s' → Agreeing inner (act s) (act s')) : Blind names (Lower.withScope act) := by
  intro s s' h
  have hin : LowerState.Agree names { s with scope := s.scope.enter } { s' with scope := s'.scope.enter } := by
    rw [h.rest]
    exact ⟨h.scope.enter, rfl⟩
  have hruns := hact _ _ hin
  have hkeep : (final (Lower.withScope act) s).scope = s.scope := (withScope_framed hsteady s).scope
  have hkeep' : (final (Lower.withScope act) s').scope = s'.scope := (withScope_framed hsteady s').scope
  simp only [final, Lower.withScope, bracket] at hkeep hkeep' ⊢
  generalize act { s with scope := s.scope.enter } = r at hruns hkeep
  generalize act { s' with scope := s'.scope.enter } = r' at hruns hkeep'
  cases hruns with
  | ok a hend =>
    rw [hend.rest] at hkeep' ⊢
    exact .ok a ⟨by rw [hkeep, hkeep']; exact h.scope, rfl⟩
  | error d hend =>
    rw [hend.rest] at hkeep' ⊢
    exact .error d ⟨by rw [hkeep, hkeep']; exact h.scope, rfl⟩

theorem withScope (hsteady : Keeps Steady act) (hact : Blind names act) :
    Blind names (Lower.withScope act) := withScope_of hsteady hact

theorem bracket {open_ close : LowerState → LowerState}
    (hopen : ∀ s s', s.Agree names s' → (open_ s).Agree names (open_ s'))
    (hclose : ∀ s s', s.Agree names s' → (close s).Agree names (close s')) (hact : Blind names act) :
    Blind names (Lower.bracket open_ close act) := by
  intro s s' h
  have hruns := hact _ _ (hopen s s' h)
  simp only [Lower.bracket]
  generalize act (open_ s) = r at hruns
  generalize act (open_ s') = r' at hruns
  cases hruns with
  | ok a hend => exact .ok a (hclose _ _ hend)
  | error d hend => exact .error d (hclose _ _ hend)

theorem withFunction {result : Ty} {synthetic : Bool} (hact : Blind names act) :
    Blind names (Lower.withFunction result synthetic act) := by
  refine bracket (fun s s' h => ?_) (fun s s' h => ?_) hact
  · rw [h.rest]
    exact ⟨h.scope, rfl⟩
  · rw [h.rest]
    exact ⟨h.scope, rfl⟩

theorem nested (hact : Blind names act) : Blind names (Lower.nested env span act) := by
  intro s s' h
  have hdepth : s'.depth = s.depth := by rw [h.rest]
  unfold Lower.nested
  rw [hdepth]
  by_cases hlimit : env.settings.maxDepth ≤ s.depth
  · rw [if_pos hlimit, if_pos hlimit]
    exact .error _ h
  · rw [if_neg hlimit, if_neg hlimit]
    refine bracket (fun t t' ht => ?_) (fun t t' ht => ?_) hact s s' h
    · rw [ht.rest]
      exact ⟨ht.scope, rfl⟩
    · rw [ht.rest]
      exact ⟨ht.scope, rfl⟩

end Blind

namespace Lower

variable {s : LowerState}

/-! ## Lowering -/

theorem blind (names : String → Prop) : Composes names (fun _ act => Keeps Framed act ∧ Blind names act)
    (fun _ act => Keeps Steady act ∧ Blind names act) fun stmt _ act => Keeps (Declares stmt) act ∧ Blind names act := by
  have H := framedIn names
  exact {
    pure a := ⟨H.pure a, .pure a⟩
    fail fault span := ⟨H.fail fault span, .fail⟩
    bind_of hx hf := ⟨H.bind_of hx.1 fun a s s' h => (hf a s s' h).1, .bind_of hx.2 fun a s s' h => (hf a s s' h).2⟩
    look hf h := ⟨H.look hf fun s => (h s).1, .look hf fun s => (h s).2⟩
    inFunctions hf h := ⟨H.inFunctions hf fun s => (h s).1, .inFunctions hf fun s => (h s).2⟩
    inference env := ⟨H.inference env, .inference⟩
    fresh := ⟨H.fresh, .fresh⟩
    freshFlag := ⟨H.freshFlag, .freshFlag⟩
    notePackage env package := ⟨H.notePackage env package, .notePackage⟩
    compilePattern env p subject ty := ⟨H.compilePattern env p subject ty, .compilePattern p⟩
    typeOf env _ he := ⟨H.typeOf env he, .typeOf he⟩
    askCallee env _ he := ⟨H.askCallee env he, .askCallee he⟩
    askClauses env subject _ hc := ⟨H.askClauses env subject hc, .askClauses hc⟩
    askTypeArgs env callee _ explicit expected ha :=
      ⟨H.askTypeArgs env callee explicit expected ha, .askTypeArgs ha⟩
    withFunction result synthetic h := ⟨H.withFunction result synthetic h.1, .withFunction h.2⟩
    nested env span h := ⟨H.nested env span h.1, .nested h.2⟩
    withScope h := ⟨H.withScope h.1, .withScope h.1 h.2⟩
    bindAll bindings := ⟨H.bindAll bindings, .bindAll⟩
    binds_of_declares h := ⟨H.binds_of_declares h.1, h.2⟩
    andThen hx hf := ⟨H.andThen hx.1 fun a => (hf a).1, .bind hx.2 fun a => (hf a).2⟩
    declares_of stmt h := ⟨H.declares_of stmt h.1, h.2⟩
    declareAfter hx hf := ⟨H.declareAfter hx.1 fun a => (hf a).1, .bind hx.2 fun a => (hf a).2⟩
    declare decl mutability ty := ⟨H.declare decl mutability ty, .bindName _ _⟩
    declaresMap f h := ⟨H.declaresMap f h.1, .bind h.2 fun _ => .pure _⟩ }

theorem blindFamily : Family (fun names _ act => Keeps Framed act ∧ Blind names act)
    (fun names _ act => Keeps Steady act ∧ Blind names act)
    fun names stmt _ act => Keeps (Declares stmt) act ∧ Blind names act where
  composes := blind
  bound arg param h := by
    have hsteady := Keeps.bind (bind_steady arg .val param) fun _ => steady_of_framed h.1
    refine ⟨withScope_framed hsteady, .withScope_of hsteady fun s s' hs => h.2 _ _ ?_⟩
    rw [hs.rest]
    exact ⟨hs.scope.bind, rfl⟩

/-- In the other scope the expression has the same type and, in every position, the same code or the same
    diagnostic. -/
structure SameIn (env : Env) (e : Located Source.Expr) (s : LowerState) (scope : Scope) : Prop where
  type : ∀ inf : Inference, ((inf.ask e).run scope).1 = ((inf.ask e).run s.scope).1
  value : ∀ expected, (piece env e).value expected { s with scope := scope } =
    inScope scope ((piece env e).value expected s)
  tail : ∀ result, (piece env e).tail result { s with scope := scope } = inScope scope ((piece env e).tail result s)
  effect : (piece env e).effect { s with scope := scope } = inScope scope ((piece env e).effect s)

theorem sameIn_of_agree {env : Env} (e : Located Source.Expr) {scope : Scope}
    (h : s.scope.Agree (fun x => e.val.references x = true) scope) : SameIn env e s scope := by
  have hblind := @piece_has _ _ _ env blindFamily e (fun x => e.val.references x = true) fun _ hx => hx
  have happly {α : Type} {act : Lower α} (hact : Keeps Framed act ∧ Blind (fun x => e.val.references x = true) act) :
      act { s with scope := scope } = inScope scope (act s) := hact.2.apply hact.1 h
  refine ⟨fun inf => ?_, fun expected => happly (hblind.value expected), fun result => happly (hblind.tail result),
    happly hblind.effect⟩
  have hanswer := inf.ask_answers e
  rw [StateT.run, StateT.run, hanswer, hanswer]
  exact inf.typeOf_congr h

/-- An expression is typed and lowered alike in scopes that give the names it mentions the same type and
    mutability; so a binding of a name that it does not mention makes no difference. -/
theorem lowering_seesMentioned (env : Env) (e : Located Source.Expr) (s : LowerState) :
    (∀ scope : Scope, (∀ x, e.val.references x = true →
      scope.typeOf x = s.scope.typeOf x ∧ scope.mutabilityOf? x = s.scope.mutabilityOf? x) → SameIn env e s scope) ∧
    ∀ x mutability ty, e.val.references x = false → SameIn env e s (s.scope.bind x mutability ty) := by
  constructor
  · intro scope h
    refine sameIn_of_agree e fun x hx => ?_
    obtain ⟨hty, hmutability⟩ := h x hx
    exact Scope.find?_eq_of_lookups hty hmutability
  · intro x mutability ty hx
    refine sameIn_of_agree e fun y hy => ?_
    have hne : y ≠ x := by
      rintro rfl
      cases hx.symm.trans hy
    rw [Scope.find?_bind, if_neg hne]

/-- `(k: int) => k + n` -/
def addN : Located Source.Expr :=
  unlocated (.lambda [⟨"k", some .int⟩] (unlocated (.binary (unlocated (.ident "k")) .add (unlocated (.ident "n")))))

/-- The state with `n` bound. -/
def nInScope : LowerState := { LowerState.start bareEnv with scope := Scope.new.bind "n" .var .int }

/-- `n` bound alike, but in a frame of its own and beside `y`. -/
def nBesideY : Scope := (Scope.new.bind "y" .val .string).enter.bind "n" .var .int

theorem lowering_seesMentioned_sum :
    SameIn bareEnv addN nInScope nBesideY ∧ SameIn bareEnv addN nInScope (nInScope.scope.bind "y" .val .string) ∧
    (piece bareEnv addN).value none { nInScope with scope := nBesideY } =
      .ok (.funcLit [⟨"k", .int⟩] [.int] [.ret1 (.binary .add (.ident "k") (.ident "n"))])
        { nInScope with scope := nBesideY } := by
  have hlookups : ∀ x, addN.val.references x = true →
      nBesideY.typeOf x = nInScope.scope.typeOf x ∧ nBesideY.mutabilityOf? x = nInScope.scope.mutabilityOf? x := by
    intro x hx
    simp only [addN, unlocated, Source.Expr.references, Bool.or_eq_true, beq_iff_eq] at hx
    rcases hx with rfl | rfl
    · exact ⟨rfl, rfl⟩
    · exact ⟨rfl, rfl⟩
  have hsame := (lowering_seesMentioned bareEnv addN nInScope).1 nBesideY hlookups
  refine ⟨hsame, (lowering_seesMentioned bareEnv addN nInScope).2 "y" .val .string (by decide), ?_⟩
  rfl

end Lower

end Lowering
