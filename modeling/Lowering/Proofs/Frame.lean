/-
  Frame — what an action leaves as it was.

  `Keeps R act` relates the states before and after an action.
-/

import Lowering.Lower.Expr
import Lowering.Proofs.Answers
import Lowering.Proofs.Apart
import Lowering.Proofs.Binders
import Mathlib.Order.Defs.Unbundled

namespace Lowering

section

variable {ε σ α β : Type} {b : β} {x : EStateM ε σ α} {s s' : σ} {f : α → β}

theorem bind_ok {f : α → EStateM ε σ β} (h : (x >>= f) s = .ok b s') : ∃ a s1, x s = .ok a s1 ∧ f a s1 = .ok b s' := by
  simp only [Bind.bind, EStateM.bind] at h
  split at h
  · exact ⟨_, _, by assumption, h⟩
  · cases h

theorem pure_ok {a b : α} (h : (Pure.pure a : EStateM ε σ α) s = .ok b s') : b = a ∧ s' = s := by
  cases h
  exact ⟨rfl, rfl⟩

theorem map_ok (h : (x >>= fun a => Pure.pure (f a)) s = .ok b s') : ∃ a, x s = .ok a s' ∧ b = f a := by
  obtain ⟨a, s1, hx, h⟩ := bind_ok h
  obtain ⟨hb, rfl⟩ := pure_ok h
  exact ⟨a, hx, hb⟩

theorem except_bind_ok {x : Except ε α} {f : α → Except ε β} : (x >>= f) = .ok b ↔ ∃ a, x = .ok a ∧ f a = .ok b := by
  cases x <;> simp [Bind.bind, Except.bind]

theorem checked_bind_ok {x : Checked α} {f : α → Checked β} (h : (x >>= f) = .ok b) : ∃ a, x = .ok a ∧ f a = .ok b :=
  except_bind_ok.mp h

theorem checked_map_ok {x : Checked α} (h : (x >>= fun a => Pure.pure (f a)) = .ok b) : ∃ a, x = .ok a ∧ b = f a := by
  obtain ⟨a, hx, h⟩ := checked_bind_ok h
  exact ⟨a, hx, (Except.ok.inj h).symm⟩

theorem forall₂_of_mapM_ok {f : α → Checked β} {l : List α} (h : l.mapM f = .ok l') :
    List.Forall₂ (fun a b => f a = .ok b) l l' := by
  induction l generalizing l' with
  | nil =>
    cases h
    exact .nil
  | cons a l ih =>
    rw [List.mapM_cons] at h
    obtain ⟨b, hb, h⟩ := checked_bind_ok h
    obtain ⟨bs, hbs, rfl⟩ := checked_map_ok h
    exact .cons hb (ih hbs)

theorem exists_of_forall₂ {R : α → β → Prop} (h : List.Forall₂ R as bs) :
    ∀ a ∈ as, ∃ b ∈ bs, R a b := by
  induction h with
  | nil => simp
  | cons hab _ ih =>
    refine List.forall_mem_cons.mpr ⟨⟨_, .head _, hab⟩, fun a ha => ?_⟩
    obtain ⟨b, hb, hab⟩ := ih a ha
    exact ⟨b, .tail _ hb, hab⟩

def final (act : EStateM ε σ α) (s : σ) : σ :=
  match act s with
  | .ok _ s' => s'
  | .error _ s' => s'

def Keeps (R : σ → σ → Prop) (act : EStateM ε σ α) : Prop := ∀ s, R s (final act s)

namespace Keeps

variable {R : σ → σ → Prop} {act x : EStateM ε σ α} {f : α → EStateM ε σ β}

theorem ok (h : Keeps R act) {s s' : σ} {a : α} (hs : act s = .ok a s') : R s s' := by
  have := h s
  rwa [final, hs] at this

theorem mono {R' : σ → σ → Prop} (h : Keeps R act) (himp : ∀ s s', R s s' → R' s s') :
    Keeps R' act := fun s => himp _ _ (h s)

theorem pure [Std.Refl R] {a : α} : Keeps R (Pure.pure a : EStateM ε σ α) := fun s => Std.Refl.refl s

theorem throw [Std.Refl R] {e : ε} : Keeps R (MonadExcept.throw e : EStateM ε σ α) := fun s => Std.Refl.refl s

theorem get [Std.Refl R] : Keeps R (MonadState.get : EStateM ε σ σ) := fun s => Std.Refl.refl s

theorem comp {S T : σ → σ → Prop} (hx : Keeps R x) (hf : ∀ a s s', x s = .ok a s' → Keeps S (f a))
    (hstop : ∀ s s', R s s' → T s s') (hcomp : ∀ s s1 s', R s s1 → S s1 s' → T s s') : Keeps T (x >>= f) := by
  intro s
  have hstart := hx s
  simp only [final, Bind.bind, EStateM.bind] at hstart ⊢
  cases h : x s with
  | error e s' => rw [h] at hstart; exact hstop _ _ hstart
  | ok a s' =>
    rw [h] at hstart
    exact hcomp _ _ _ hstart (hf a s s' h s')

theorem bind_of [IsTrans σ R] (hx : Keeps R x) (hf : ∀ a s s', x s = .ok a s' → Keeps R (f a)) : Keeps R (x >>= f) :=
  hx.comp hf (fun _ _ h => h) IsTrans.trans

theorem bind [IsTrans σ R] (hx : Keeps R x) (hf : ∀ a, Keeps R (f a)) :
    Keeps R (x >>= f) := bind_of hx fun a _ _ _ => hf a

theorem map {f : α → β} (hx : Keeps R x) : Keeps R (x >>= fun a => Pure.pure (f a)) :=
  hx.comp (fun a _ _ _ => pure (R := Eq)) (fun _ _ h => h) fun _ _ _ h heq => heq ▸ h

theorem ite {c : Prop} [Decidable c] (hx : Keeps R x) (hy : Keeps R y) :
    Keeps R (if c then x else y) := by
  split
  · exact hx
  · exact hy

end Keeps

end

theorem forall_or {names : String → Prop} {p q : String → Bool} (h : ∀ x, (p x || q x) = true → names x) :
    (∀ x, p x = true → names x) ∧ ∀ x, q x = true → names x :=
  ⟨fun x hx => h x (by rw [hx, Bool.true_or]), fun x hx => h x (by rw [hx, Bool.or_true])⟩

/-! ## Names -/

/-- The supply after some names were taken. -/
structure NameSupply.Grows (s s' : NameSupply) : Prop where
  stem : s'.stem = s.stem
  next : s.next ≤ s'.next
  matched : s.matched ≤ s'.matched

instance : Std.Refl NameSupply.Grows := ⟨fun _ => ⟨rfl, Nat.le_refl _, Nat.le_refl _⟩⟩

instance : IsTrans NameSupply NameSupply.Grows :=
  ⟨fun _ _ _ h h' => ⟨h'.stem.trans h.stem, Nat.le_trans h.next h'.next, Nat.le_trans h.matched h'.matched⟩⟩

namespace NameSupply

variable {s s1 s' : NameSupply}

theorem Grows.trans (h : Grows s s1) (h' : Grows s1 s') : Grows s s' := IsTrans.trans _ _ _ h h'

theorem grows_fresh (s : NameSupply) : Grows s s.fresh.2 := ⟨rfl, Nat.le_succ _, Nat.le_refl _⟩

theorem grows_freshFlag (s : NameSupply) : Grows s s.freshFlag.2 := ⟨rfl, Nat.le_refl _, Nat.le_succ _⟩

def Taken (s s' : NameSupply) (x : String) : Prop := ∃ n, s.next ≤ n ∧ n < s'.next ∧ x = s.stem ++ toString n

variable {x : String}

theorem Taken.widen (h : Grows s s1) (h' : Grows s2 s') (ht : Taken s1 s2 x) :
    Taken s s' x := by
  obtain ⟨n, hle, hlt, rfl⟩ := ht
  exact ⟨n, Nat.le_trans h.next hle, Nat.lt_of_lt_of_le hlt h'.next, by rw [h.stem]⟩

theorem numbered_inj {stem : String} {a b : Nat} (h : stem ++ toString a = stem ++ toString b) : a = b := by
  have hnumber := congrArg (fun name : String => Nat.ofDigitChars 10 (name.toList.drop stem.toList.length) 0) h
  simpa [Nat.toList_repr] using hnumber

theorem numbered_ne {stem : String} {n : Nat} (hx : x.toList.getLast?.any Char.isDigit = false) :
    x ≠ stem ++ toString n := by
  rintro rfl
  rw [String.toList_append, Nat.toString_eq_repr, Nat.toList_repr,
    List.getLast?_append_of_ne_nil _ Nat.toDigits_ne_nil] at hx
  have hlast := List.getLast?_eq_some_getLast (l := Nat.toDigits 10 n) Nat.toDigits_ne_nil
  have hdigit := Nat.isDigit_of_mem_toDigits (by decide) (by decide) (List.mem_of_getLast? hlast)
  rw [hlast, Option.any_some, hdigit] at hx
  cases hx

end NameSupply

/-! ## Patterns -/

namespace Match

open Source (Pattern)

def CompileState.Listed (s : CompileState) : Prop :=
  s.steps.flatMap Step.binds = s.bindings.map Prod.fst ∧ (s.bindings.map Prod.fst).Nodup

/-- The temporaries of the steps were taken from the supply, each once. -/
def CompileState.Numbered (s : CompileState) : Prop :=
  (s.steps.flatMap Step.temps).Nodup ∧
    ∀ x ∈ s.steps.flatMap Step.temps, ∃ n, n < s.names.next ∧ x = s.names.stem ++ toString n

theorem CompileState.Numbered.add {s : CompileState} (h : s.Numbered) {names : NameSupply}
    (hnames : s.names.Grows names) (hnodup : (new.flatMap Step.temps).Nodup)
    (htaken : ∀ step ∈ new, ∀ x ∈ step.temps, NameSupply.Taken s.names names x) (bindings : List (String × Ty)) :
    Numbered ⟨names, s.steps ++ new, bindings⟩ := by
  have htaken : ∀ x ∈ new.flatMap Step.temps, NameSupply.Taken s.names names x := by
    intro x hx
    obtain ⟨step, hstep, hx⟩ := List.mem_flatMap.mp hx
    exact htaken step hstep x hx
  constructor
  · rw [List.flatMap_append]
    refine List.nodup_append.mpr ⟨h.1, hnodup, fun a ha b hb heq => ?_⟩
    obtain ⟨n, hn, rfl⟩ := h.2 a ha
    obtain ⟨k, hk, -, rfl⟩ := htaken b hb
    have hnk := NameSupply.numbered_inj heq
    omega
  · intro x hx
    rw [List.flatMap_append] at hx
    rcases List.mem_append.mp hx with hx | hx
    · obtain ⟨n, hn, rfl⟩ := h.2 x hx
      exact ⟨n, Nat.lt_of_lt_of_le hn hnames.next, by rw [hnames.stem]⟩
    · obtain ⟨n, -, hn, rfl⟩ := htaken x hx
      exact ⟨n, hn, by rw [hnames.stem]⟩

/-- What compiling adds: steps that bind allowed names and define temporaries taken on the way, and
    bindings of allowed names. -/
structure CompileState.Emits (allowed : String → Prop) (s s' : CompileState) : Prop where
  names : s.names.Grows s'.names
  matched : s'.names.matched = s.names.matched
  steps : ∃ new, s'.steps = s.steps ++ new ∧ ∀ step ∈ new,
    (∀ x ∈ step.binds, allowed x) ∧ ∀ x ∈ step.temps, NameSupply.Taken s.names s'.names x
  bindings : ∃ new, s'.bindings = s.bindings ++ new ∧ ∀ b ∈ new, allowed b.1
  listed : s.Listed → s'.Listed
  numbered : s.Numbered → s'.Numbered

abbrev Emitting {α : Type} (allowed : String → Prop) (act : Compile α) : Prop := Keeps (CompileState.Emits allowed) act

namespace CompileState

variable {allowed : String → Prop}

instance : Std.Refl (Emits allowed) :=
  ⟨fun s => ⟨Std.Refl.refl s.names, rfl, ⟨[], by simp, by simp⟩, ⟨[], by simp, by simp⟩, id, id⟩⟩

instance : IsTrans CompileState (Emits allowed) where
  trans s1 s2 s3 h h' := by
    obtain ⟨new, hnew, hnames⟩ := h.steps
    obtain ⟨new', hnew', hnames'⟩ := h'.steps
    obtain ⟨bound, hbound, hallowed⟩ := h.bindings
    obtain ⟨bound', hbound', hallowed'⟩ := h'.bindings
    refine ⟨h.names.trans h'.names, h'.matched.trans h.matched, ⟨new ++ new', ?_, ?_⟩,
      ⟨bound ++ bound', ?_, ?_⟩, fun hl => h'.listed (h.listed hl), fun hn => h'.numbered (h.numbered hn)⟩
    · rw [hnew', hnew, List.append_assoc]
    · intro step hstep
      rcases List.mem_append.mp hstep with hstep | hstep
      · exact (hnames step hstep).imp_right fun ht x hx => (ht x hx).widen (Std.Refl.refl _) h'.names
      · exact (hnames' step hstep).imp_right fun ht x hx => (ht x hx).widen h.names (Std.Refl.refl _)
    · rw [hbound', hbound, List.append_assoc]
    · intro b hb
      exact (List.mem_append.mp hb).elim (hallowed b) (hallowed' b)

variable {names : NameSupply} {s : CompileState}

theorem Emits.temporary (hnames : s.names.Grows names) (hmatched : names.matched = s.names.matched) {new : List Step}
    (hbinds : ∀ step ∈ new, step.binds = []) (hnodup : (new.flatMap Step.temps).Nodup)
    (htemps : ∀ step ∈ new, ∀ x ∈ step.temps, NameSupply.Taken s.names names x) :
    Emits allowed s { s with names, steps := s.steps ++ new } := by
  refine ⟨hnames, hmatched, ⟨new, rfl, fun step hstep => ⟨by simp [hbinds step hstep], htemps step hstep⟩⟩,
    ⟨[], (List.append_nil _).symm, by simp⟩, fun hl => ⟨?_, hl.2⟩, fun hn => hn.add hnames hnodup htemps _⟩
  have hnone : new.flatMap Step.binds = [] := List.flatMap_eq_nil_iff.mpr hbinds
  rw [List.flatMap_append, hnone, List.append_nil]
  exact hl.1

theorem Emits.binding (hnames : s.names.Grows names) (hmatched : names.matched = s.names.matched) {step : Step}
    {name : String} (hbinds : step.binds = [name]) (hnodup : step.temps.Nodup)
    (htemps : ∀ x ∈ step.temps, NameSupply.Taken s.names names x) (hallowed : allowed name)
    (hnew : s.bindings.any (·.1 == name) = false) {ty : Ty} :
    Emits allowed s ⟨names, s.steps ++ [step], s.bindings ++ [(name, ty)]⟩ := by
  refine ⟨hnames, hmatched, ⟨[step], rfl, ?_⟩, ⟨[(name, ty)], rfl, by simpa using hallowed⟩, fun hl => ⟨?_, ?_⟩,
    fun hn => hn.add hnames (by simpa using hnodup) (by simpa using htemps) _⟩
  · intro step' hstep
    cases List.mem_singleton.mp hstep
    exact ⟨by simpa [hbinds] using hallowed, htemps⟩
  · rw [List.flatMap_append, List.map_append, hl.1]
    simp [hbinds]
  · have hfresh : name ∉ s.bindings.map Prod.fst := by
      rintro hmem
      obtain ⟨b, hb, rfl⟩ := List.mem_map.mp hmem
      have hany := List.any_eq_false.mp hnew b hb
      simp at hany
    rw [List.map_append, List.map_cons, List.map_nil]
    exact List.nodup_append.mpr ⟨hl.2, by simp, fun a ha b hb => by
      rw [List.mem_singleton.mp hb]
      rintro rfl
      exact hfresh ha⟩

end CompileState

namespace Compile

variable {allowed : String → Prop} {α : Type}

theorem fail_emits {fault : Fault} : Emitting allowed (fail fault span : Compile α) := .throw

theorem ofChecked_emits (c : Checked α) : Emitting allowed (ofChecked c) := by
  cases c with
  | ok a => exact .pure
  | error d => exact .throw

theorem check_emits {cond : Target.Expr} : Emitting allowed (emit (.check cond)) := fun s =>
  .temporary (Std.Refl.refl s.names) rfl (by simp [Step.binds]) (by simp [Step.temps])
    (by simp [Step.temps])

variable {name : String}

theorem bindName_final (s : CompileState) :
    bindName name ty span s = if s.bindings.any (·.1 == name) then .error ⟨.boundTwice name, span⟩ s
      else .ok () { s with bindings := s.bindings ++ [(name, ty)] } := by
  have hget : bindName name ty span s = (if s.bindings.any (·.1 == name) then fail (.boundTwice name) span
      else modify fun s => { s with bindings := s.bindings ++ [(name, ty)] }) s := rfl
  rw [hget]
  split <;> rfl

theorem bindValue_emits (h : allowed name) : Emitting allowed (bindValue name value ty span) := by
  intro s
  simp only [final, bindValue, Bind.bind, EStateM.bind, bindName_final]
  cases hb : s.bindings.any (·.1 == name) with
  | true => exact Std.Refl.refl s
  | false =>
    exact .binding (Std.Refl.refl s.names) rfl rfl (by simp [Step.temps])
      (by simp [Step.temps]) h hb

theorem downcast_emits {subject : Target.Expr} : Emitting allowed (downcast subject ty) := by
  intro s
  have hgrows : s.names.Grows s.names.fresh.2.fresh.2 :=
    s.names.grows_fresh.trans s.names.fresh.2.grows_fresh
  have hfinal : final (downcast subject ty) s = { s with
      names := s.names.fresh.2.fresh.2
      steps := s.steps ++ [.assert (some s.names.fresh.1) false s.names.fresh.2.fresh.1 subject ty,
        .touch (.ident s.names.fresh.1)] } := congrArg (CompileState.mk _ · _) (List.append_assoc s.steps [_] [_])
  have hne : s.names.fresh.1 ≠ s.names.fresh.2.fresh.1 := fun heq =>
    absurd (NameSupply.numbered_inj heq) (Nat.succ_ne_self _).symm
  rw [hfinal]
  refine .temporary hgrows rfl (by simp [Step.binds]) (by simpa [Step.temps] using hne) fun step hstep x hx => ?_
  simp only [List.mem_cons, List.not_mem_nil, or_false] at hstep
  rcases hstep with rfl | rfl
  · simp only [Step.temps, List.mem_cons, List.not_mem_nil, or_false] at hx
    rcases hx with rfl | rfl
    · exact ⟨s.names.next, Nat.le_refl _, Nat.lt_succ_of_lt (Nat.lt_succ_self _), rfl⟩
    · exact ⟨s.names.next + 1, Nat.le_succ _, Nat.lt_succ_self _, rfl⟩
  · cases hx

theorem hold_emits : Emitting allowed (hold value) := by
  intro s
  refine CompileState.Emits.temporary s.names.grows_fresh rfl
    (by simp [Step.binds]) (by simp [Step.temps]) fun step hstep x hx => ?_
  cases List.mem_singleton.mp hstep
  cases List.mem_singleton.mp hx
  exact ⟨s.names.next, Nat.le_refl _, Nat.lt_succ_self _, rfl⟩

end Compile

open Compile

variable {allowed : String → Prop}

def callUnapply (companion : Ty) (shape : UnapplyShape) (subject : Target.Expr) : Compile (List Part) := do
  let call := Target.Expr.method (.zero companion) "Unapply" [subject]
  match shape with
  | .bool => do
    emit (.check call)
    pure []
  | .option payload expand => do
    let option ← hold call
    emit (.check (.method option "IsDefined" []))
    let content := Target.Expr.method option "Get" []
    match expand with
    | some types => pure (tupleParts content types)
    | none => pure [.value content payload]

theorem callUnapply_emits : Emitting allowed (callUnapply companion shape subject) := by
  cases shape with
  | bool => exact .map check_emits
  | option payload expand =>
    refine .bind hold_emits fun _ => .bind check_emits fun _ => ?_
    cases expand <;> exact .pure

theorem openUnapply_emits {param : Ty} : Emitting allowed (openUnapply companion param shape site subject) :=
  .ite (.bind downcast_emits fun _ => callUnapply_emits) callUnapply_emits

theorem openSequence_emits (seq elem : Ty) (rest : Option Nat) {arity : Nat} :
    Emitting allowed (openSequence seq elem rest arity subject) := by
  unfold openSequence
  extract_lets op check
  have hcheck : ∀ base, Emitting allowed (check base) := fun base =>
    .map check_emits
  exact .ite (hcheck _) (.bind hold_emits hcheck)

theorem openExtractor_emits : Emitting allowed (openExtractor env site subject) := by
  refine .bind (ofChecked_emits _) fun extraction => ?_
  cases extraction with
  | unapply companion param shape => exact openUnapply_emits
  | structural head fields cast => exact .ite (.map downcast_emits) (.pure)
  | sequence seq elem rest => exact openSequence_emits seq elem rest
  | reflective head =>
    exact .ite (.map check_emits) (.bind hold_emits fun _ => .map check_emits)

theorem openTuple_emits (elems : List (Located Pattern)) : Emitting allowed (openTuple env elems span subject ty) := by
  unfold openTuple
  extract_lets arity settings ty parts partsUnlessRest
  have hparts : Emitting allowed (parts ()) := by
    dsimp only [parts]
    split
    · exact .ite (.pure) fail_emits
    · exact fail_emits
  have hrest : Emitting allowed (partsUnlessRest ()) :=
    .ite (.bind fail_emits fun _ => hparts) hparts
  exact .ite (.bind fail_emits fun _ => hrest) hrest

theorem typedPattern_emits (wanted : Ty) (h : allowed name) :
    Emitting allowed (typedPattern name wanted span subject ty) := by
  have htaken : ∀ s : CompileState, NameSupply.Taken s.names s.names.fresh.2 s.names.fresh.1 :=
    fun s => ⟨s.names.next, Nat.le_refl _, Nat.lt_succ_self _, rfl⟩
  refine .ite (.ite (bindValue_emits h) (.pure)) (.ite (fun s => ?_) fun s => ?_)
  · exact CompileState.Emits.temporary s.names.grows_fresh rfl
      (by simp [Step.binds]) (by simp [Step.temps]) (by simpa [Step.temps] using htaken s)
  · simp only [final, Bind.bind, EStateM.bind, bindName_final]
    cases hb : s.bindings.any (·.1 == name) with
    | true => exact Std.Refl.refl s
    | false =>
      exact CompileState.Emits.binding s.names.grows_fresh rfl
        rfl (by simp [Step.temps]) (by simpa [Step.temps] using htaken s) h hb

theorem bindSuffix_emits {p : Located Pattern} {read : Target.Expr} {ty : Ty}
    (h : ∀ x, p.val.binds x = true → allowed x) : Emitting allowed (bindSuffix p read ty) := by
  unfold bindSuffix
  split
  · rename_i name hp
    exact bindValue_emits (h name (by simp [hp, Pattern.binds]))
  · exact .pure

mutual

theorem compileInto_emits (env : Env) : ∀ (p : Located Pattern) (subject : Target.Expr) (ty : Ty),
    (∀ x, p.val.binds x = true → allowed x) → Emitting allowed (compileInto env p subject ty)
  | ⟨.wildcard, _⟩, _, _, _ => by
    simp only [compileInto]
    exact .pure
  | ⟨.ident name, span⟩, subject, ty, h => by
    simp only [compileInto]
    exact .ite (.map openExtractor_emits)
      (bindValue_emits (h name (by simp [Pattern.binds])))
  | ⟨.literal value, _⟩, subject, ty, _ => by
    simp only [compileInto]
    exact check_emits
  | ⟨.typed name wanted, span⟩, subject, ty, h => by
    simp only [compileInto]
    exact typedPattern_emits _ (h name (by simp [Pattern.binds]))
  | ⟨.extractor head typeArgs args, span⟩, subject, ty, h => by
    simp only [compileInto]
    exact .bind openExtractor_emits fun parts =>
      compileParts_emits args parts h
  | ⟨.tuple elems, span⟩, subject, ty, h => by
    simp only [compileInto]
    exact .bind (openTuple_emits _) fun parts =>
      compileParts_emits elems parts h
  | ⟨.rest _, span⟩, _, _, _ => by
    simp only [compileInto]
    exact fail_emits

theorem compileParts_emits : ∀ (ps : List (Located Pattern)) (parts : List Part),
    (∀ x, Pattern.anyBinds x ps = true → allowed x) → Emitting allowed (compileParts env ps parts)
  | [], _, _ => by
    simp only [compileParts]
    exact .pure
  | p :: ps, parts, h => by
    obtain ⟨hp, hps⟩ := forall_or h
    match parts with
    | [] =>
      simp only [compileParts]
      exact .pure
    | .value read ty :: parts =>
      simp only [compileParts]
      exact .bind (compileInto_emits env p read ty hp) fun _ => compileParts_emits ps parts hps
    | .suffix read ty :: parts =>
      simp only [compileParts]
      exact .bind (bindSuffix_emits hp) fun _ => compileParts_emits ps parts hps

end

end Match

/-! ## The frame of a lowering -/

/-- Everything but the innermost frame of the scope is as before, up to names taken from the supply and
    dot imports noted. -/
structure Steady (s s' : LowerState) : Prop where
  functions : s'.functions = s.functions
  typeParams : s'.typeParams = s.typeParams
  depth : s'.depth = s.depth
  names : s.names.Grows s'.names
  dotUsed : s.dotUsed ⊆ s'.dotUsed
  outer : s.scope.Inner s'.scope

/-- The innermost frame too is as before. -/
structure Framed (s s' : LowerState) : Prop extends Steady s s' where
  scope : s'.scope = s.scope

instance : Std.Refl Steady := ⟨fun s => ⟨rfl, rfl, rfl, Std.Refl.refl s.names, fun _ h => h, .refl _⟩⟩

instance : IsTrans LowerState Steady where
  trans _ _ _ h h' := ⟨h'.functions.trans h.functions, h'.typeParams.trans h.typeParams, h'.depth.trans h.depth,
    h.names.trans h'.names, fun _ hx => h'.dotUsed (h.dotUsed hx), h.outer.trans h'.outer⟩

instance : Std.Refl Framed := ⟨fun s => ⟨Std.Refl.refl s, rfl⟩⟩

instance : IsTrans LowerState Framed where
  trans _ _ _ h h' := ⟨IsTrans.trans _ _ _ h.toSteady h'.toSteady, h'.scope.trans h.scope⟩

theorem Framed.trans {s s1 s' : LowerState} (h : Framed s s1) (h' : Framed s1 s') : Framed s s' :=
  IsTrans.trans _ _ _ h h'

namespace Lower

variable {α : Type} {act : Lower α} {a : α} {question : Inference → Query α}

theorem fail_framed (fault : Fault) (span : Span) : Keeps Framed (fail fault span : Lower α) := .throw

theorem ofChecked_framed {c : Checked α} : Keeps Framed (ofChecked c) := by
  cases c with
  | ok a => exact .pure
  | error d => exact .throw

theorem scope_framed : Keeps Framed scope := fun s => Std.Refl.refl s

theorem inference_framed (env : Env) : Keeps Framed (inference env) := fun s => Std.Refl.refl s

variable {env : Env} {s s' : LowerState} {close open_ : LowerState → LowerState} {span : Span}

theorem ask_run (h : (question ⟨env, s.typeParams⟩).Answers s.scope a) : ask env question s = .ok a s := by
  unfold Query.Answers at h
  simp only [ask, StateT.run, h]

theorem ask_framed (h : ∀ inf scope, ∃ a, (question inf).Answers scope a) : Keeps Framed (ask env question) := by
  intro s
  obtain ⟨a, ha⟩ := h ⟨env, s.typeParams⟩ s.scope
  rw [final, ask_run ha]
  exact Std.Refl.refl s

theorem typeOf_run : typeOf env e s = .ok ((⟨env, s.typeParams⟩ : Inference).typeOf s.scope e).unwrap s := by
  have hask : ask env (·.ask e) s = .ok ((⟨env, s.typeParams⟩ : Inference).typeOf s.scope e) s :=
    ask_run (Inference.ask_answers _ e s.scope)
  simp only [typeOf, Bind.bind, EStateM.bind, hask]
  rfl

theorem typeOf_framed : Keeps Framed (typeOf env e) := by
  intro s
  rw [final, typeOf_run]
  exact Std.Refl.refl s

theorem askCalleeOf_run : ask env (·.askCalleeOf e) s = .ok ((⟨env, s.typeParams⟩ : Inference).callee s.scope e) s :=
  ask_run (Inference.askCalleeOf_answers _ s.scope)

theorem askClauses_run (subject : Ty) (clauses : List Source.Clause) : ask env (·.askClauses subject clauses) s =
      .ok ((⟨env, s.typeParams⟩ : Inference).clauseTypes s.scope subject clauses) s :=
  ask_run (Inference.askClauses_answers _ clauses s.scope subject)

def typingsAt (env : Env) (s : LowerState) (args : List (Option Piece)) : List (Option ArgTyping) :=
  args.map (·.map fun p => (⟨env, s.typeParams⟩ : Inference).argTypingOf s.scope p.source)

theorem typeArgsQuestion_answers {inf : Inference} {scope : Scope} :
    (typeArgsQuestion callee args explicit expected inf).Answers scope
      (resolveTypeArgs callee.typeParams callee.params (args.map (·.map fun p => inf.argTypingOf scope p.source)) explicit
        (expected.map (callee.result, ·))) := by
  have hrestores : ∀ a, some a ∈ args.map (Option.map fun p => inf.argQueryOf p.source) → a.Restores scope := by
    intro a ha
    obtain ⟨p, -, hp⟩ := List.mem_map.mp ha
    obtain ⟨p, rfl, rfl⟩ := Option.map_eq_some_iff.mp hp
    exact inf.argQueryOf_typing.1
  have htypings : (args.map (Option.map fun p => inf.argQueryOf p.source)).map (Option.map (·.typing scope)) =
      args.map (Option.map fun p => inf.argTypingOf scope p.source) := by
    simp only [List.map_map, Function.comp_def, Option.map_map, inf.argQueryOf_typing.2]
  rw [← htypings]
  exact askTypeArgs_answers hrestores

theorem askTypeArgs_run : ask env (typeArgsQuestion callee args explicit expected) s =
      .ok (resolveTypeArgs callee.typeParams callee.params (typingsAt env s args) explicit
        (expected.map (callee.result, ·))) s :=
  ask_run typeArgsQuestion_answers

theorem fresh_framed : Keeps Framed fresh :=
  fun s => ⟨⟨rfl, rfl, rfl, s.names.grows_fresh, fun _ h => h, .refl _⟩, rfl⟩

theorem freshFlag_framed : Keeps Framed freshFlag :=
  fun s => ⟨⟨rfl, rfl, rfl, s.names.grows_freshFlag, fun _ h => h, .refl _⟩, rfl⟩

theorem notePackage_framed (env : Env) (package : String) : Keeps Framed (notePackage env package) := by
  intro s
  show Framed s (if _ then _ else _)
  split
  · exact ⟨⟨rfl, rfl, rfl, Std.Refl.refl s.names, fun _ h => .tail _ h, .refl _⟩, rfl⟩
  · exact Std.Refl.refl s

theorem bind_steady (name : String) (mutability : Mutability) (ty : Ty) :
    Keeps Steady (bind name mutability ty) :=
  fun s => ⟨rfl, rfl, rfl, Std.Refl.refl s.names, fun _ h => h, s.scope.inner_bind _ _ _⟩

theorem bindAll_steady (bindings : List (String × Ty)) : Keeps Steady (bindAll bindings) :=
  fun s => ⟨rfl, rfl, rfl, Std.Refl.refl s.names, fun _ h => h, s.scope.inner_bindAll⟩

theorem steady_of_framed (h : Keeps Framed act) : Keeps Steady act :=
  h.mono fun _ _ h => h.toSteady

theorem bracket_ok (h : bracket open_ close act s = .ok a s') : ∃ s1, act (open_ s) = .ok a s1 ∧ s' = close s1 := by
  simp only [bracket] at h
  split at h
  · cases h
    exact ⟨_, by assumption, rfl⟩
  · cases h

theorem withScope_ok (h : withScope act s = .ok a s') : ∃ s1, act { s with scope := s.scope.enter } = .ok a s1 := by
  obtain ⟨s1, hact, -⟩ := bracket_ok h
  exact ⟨s1, hact⟩

theorem nested_bracket (h : nested env span act s = .ok a s') :
    ∃ s1, act { s with depth := s.depth + 1 } = .ok a s1 ∧ s' = { s1 with depth := s1.depth - 1 } := by
  unfold nested at h
  split at h
  · cases h
  · exact bracket_ok h

theorem nested_ok (h : nested env span act s = .ok a s') : ∃ s1, act { s with depth := s.depth + 1 } = .ok a s1 := by
  obtain ⟨s1, hact, -⟩ := nested_bracket h
  exact ⟨s1, hact⟩

theorem bracket_keeps {R S : LowerState → LowerState → Prop} (h : Keeps R act)
    (hclose : ∀ s s', R (open_ s) s' → S s (close s')) : Keeps S (bracket open_ close act) := by
  intro s
  have hact := h (open_ s)
  simp only [final, bracket] at hact ⊢
  cases hr : act (open_ s) with
  | ok a s' | error d s' =>
    rw [hr] at hact
    exact hclose s s' hact

theorem withScope_framed (h : Keeps Steady act) : Keeps Framed (withScope act) :=
  bracket_keeps h fun s s' hs => by
    have hscope : s'.scope.leave = s.scope := Scope.leave_of_inner hs.outer
    refine ⟨⟨hs.functions, hs.typeParams, hs.depth, hs.names, hs.dotUsed, ?_⟩, hscope⟩
    rw [hscope]
    exact .refl s.scope

theorem withFunction_framed {result : Ty} {synthetic : Bool} (h : Keeps Framed act) :
    Keeps Framed (withFunction result synthetic act) :=
  bracket_keeps h fun _ _ hs =>
    ⟨⟨congrArg List.tail hs.functions, hs.typeParams, hs.depth, hs.names, hs.dotUsed, hs.outer⟩, hs.scope⟩

theorem nested_framed (h : Keeps Framed act) : Keeps Framed (nested env span act) := by
  intro s
  by_cases hlimit : env.settings.maxDepth ≤ s.depth
  · have hrun : final (nested env span act) s = s := by simp only [final, nested, if_pos hlimit]
    rw [hrun]
    exact Std.Refl.refl s
  · have hbracket : Keeps Framed (bracket (fun s => { s with depth := s.depth + 1 })
        (fun s => { s with depth := s.depth - 1 }) act) :=
      bracket_keeps h fun _ _ hs => ⟨⟨hs.functions, hs.typeParams, congrArg (· - 1) hs.depth, hs.names, hs.dotUsed,
        hs.outer⟩, hs.scope⟩
    have hrun := hbracket s
    simp only [final, nested, if_neg hlimit] at hrun ⊢
    exact hrun

theorem compilePattern_framed (env : Env) (p : Located Source.Pattern) (subject : Target.Expr) (ty : Ty) :
    Keeps Framed (compilePattern env p subject ty) := by
  intro s
  have hp : Match.CompileState.Emits (fun _ => True) ⟨s.names, [], []⟩ _ :=
    Match.compileInto_emits env p subject ty (fun _ _ => trivial) ⟨s.names, [], []⟩
  simp only [final, compilePattern, Match.compile] at hp ⊢
  generalize Match.compileInto env p subject ty ⟨s.names, [], []⟩ = r at hp ⊢
  cases r with
  | ok | error => exact ⟨⟨rfl, rfl, rfl, hp.names, fun _ h => h, .refl _⟩, rfl⟩

end Lower

end Lowering
