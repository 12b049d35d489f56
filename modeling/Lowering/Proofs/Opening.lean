/-
  Opening — opening a subject reads its components.

  The steps of a pattern read the subject again and again. They define nothing but temporaries, and those are new,
  so nothing the subject is read by changes on the way.
-/

import Lowering.Proofs.Bindings
import Lowering.Proofs.Frame
import Lowering.Proofs.Reference

namespace Lowering

namespace NameSupply

def Older (s : NameSupply) (x : String) : Prop := ∀ n, s.next ≤ n → x ≠ s.stem ++ toString n

theorem Older.grows {s s' : NameSupply} (hg : s.Grows s') {x : String} (h : s.Older x) : s'.Older x := by
  intro n hn
  rw [hg.stem]
  exact h n (Nat.le_trans hg.next hn)

theorem older_fresh (s : NameSupply) : s.fresh.2.Older s.fresh.1 := by
  intro n hn heq
  have hn : s.next + 1 ≤ n := hn
  have : s.next = n := numbered_inj heq
  omega

theorem fresh_ne_blank (s : NameSupply) : s.fresh.1 ≠ "_" := (numbered_ne (by decide)).symm

end NameSupply

theorem Ty.args_length {ty : Ty} {n : Nat} (h : ty.tupleArity? = some n) : ty.args.length = n := by
  unfold Ty.tupleArity? at h
  split at h
  · split at h
    · cases h
      rfl
    · cases h
  · cases h

namespace Match

open Source (Pattern)
open Target
open Compile

variable {m : Machine} {rt : Runtime m} {env : Env}

/-! ## Temporaries are new -/

def OlderExpr (names : NameSupply) (e : Expr) : Prop := ∀ x, e.mentions x = true → names.Older x

theorem OlderExpr.grows {s s' : NameSupply} (hg : s.Grows s') {e : Expr} (h : OlderExpr s e) :
    OlderExpr s' e :=
  fun x hx => (h x hx).grows hg

theorem olderExpr_fresh {s : NameSupply} : OlderExpr s.fresh.2 (.ident s.fresh.1) := by
  intro x hx
  simp only [Expr.mentions, beq_iff_eq] at hx
  exact hx ▸ s.older_fresh

def SameBelow (names : NameSupply) (l l' : Locals m.Value m.Cell) : Prop :=
  ∀ x, names.Older x → l'.lookup x = l.lookup x

namespace SameBelow

variable {s s' : NameSupply} {l l' l'' : Locals m.Value m.Cell}

theorem refl : SameBelow s l l := fun _ _ => rfl

theorem trans (h : SameBelow s l l') (hg : s.Grows s') (h' : SameBelow s' l' l'') : SameBelow s l l'' :=
  fun x hx => (h' x (hx.grows hg)).trans (h x hx)

theorem define (h : SameBelow s l l') {n : Nat} (hn : s.next ≤ n) {slot : Slot m.Value m.Cell} :
    SameBelow s l (l'.define (s.stem ++ toString n) slot) := by
  intro x hx
  rw [lookup_define, if_neg fun hx' => hx n hn hx'.2]
  exact h x hx

end SameBelow

/-- The locals a pattern is run in, before the given temporaries are taken. -/
structure Scene (rt : Runtime m) (names : NameSupply) (l : Locals m.Value m.Cell) : Prop where
  clear : rt.Clear l
  supply : ∀ n, names.next ≤ n → rt.outside (names.stem ++ toString n) = false

theorem Scene.after {s s' : NameSupply} {l l' : Locals m.Value m.Cell} (h : Scene rt s l)
    (hl : SameBelow s l l') (hg : s.Grows s') : Scene rt s' l' where
  clear x hx := by
    refine (hl x fun n hn heq => ?_).trans (h.clear x hx)
    rw [heq, h.supply n hn] at hx
    cases hx
  supply n hn := by
    rw [hg.stem]
    exact h.supply n (Nat.le_trans hg.next hn)

/-- In this state the subject has a value of the type, and reading it does not depend on temporaries that are
    still to be taken. -/
structure Holds (rt : Runtime m) (names : NameSupply) (subject : Expr) (ty : Ty) (st : State m) (v : m.Value) : Prop
    extends Scene rt names st.locals where
  reads : Reads st.locals st.store subject v
  older : OlderExpr names subject
  has : rt.Has v ty

variable {l : Locals m.Value m.Cell} {store : m.Store} {v u : m.Value} {s s' : CompileState} {st : State m}
  {subject base vals : Expr} {names : NameSupply} {vs : List m.Value} {companion param head elem seq wanted : Ty}
  {parts : List Part} {shape : UnapplyShape} {site : Site} {fields : List FieldRead} {rest : Option Nat}
  {e : Extraction}

theorem Reads.out {e : Expr} (h : Reads l store e v) : m.eval e l store = .value v store := h

theorem Reads.same (hrt : rt.Evaluates env) {s : NameSupply} {l' : Locals m.Value m.Cell} (hl : SameBelow s l l')
    {e : Expr} (he : OlderExpr s e) (h : Reads l store e v) : Reads l' store e v :=
  (hrt.isLocal e l' l store fun x hx => hl x (he x hx)).trans h

/-! ## What steps give -/

abbrev Related (m : Machine) (α : Type) := α → Locals m.Value m.Cell → List (String × m.Value) → Prop

/-- Run apart, the steps pass where something is expected and fail where nothing is; they have no
    effect and define nothing but temporaries that were still to be taken. -/
def Gives {α : Type} (names : NameSupply) (steps : List Step) (st : State m) (expected : Option α)
    (related : Related m α) : Prop :=
  Quiet steps st ∧ match expected with
    | none => ∃ st', runApart steps st = .failed st' ∧ st'.store = st.store
    | some a => ∃ l bound, runApart steps st = .passed ⟨l, st.store⟩ bound ∧
        SameBelow names st.locals l ∧ related a l bound

namespace Gives

variable {α β : Type} {s s' : NameSupply} {steps later : List Step} {st : State m} {expected : Option α}
  {related : Related m α}

theorem nil {a : α} (h : related a st.locals []) : Gives s [] st (some a) related :=
  ⟨trivial, st.locals, [], rfl, .refl, h⟩

theorem map (h : Gives s steps st expected related) {f : α → β} {related' : Related m β}
    (himp : ∀ a l bound, related a l bound → related' (f a) l bound) :
    Gives s steps st (expected.map f) related' := by
  cases expected with
  | none => exact h
  | some a =>
    obtain ⟨hquiet, l, bound, hrun, hsame, hrel⟩ := h
    exact ⟨hquiet, l, bound, hrun, hsame, himp a l bound hrel⟩

theorem bind (h : Gives s steps st expected related) (hg : s.Grows s') {f : α → Option β} {next : Related m β}
    (hnext : ∀ a l bound, expected = some a → SameBelow s st.locals l → related a l bound →
      Gives s' later ⟨l, st.store⟩ (f a) fun b l' new => next b l' (bound ++ new)) :
    Gives s (steps ++ later) st (expected.bind f) next := by
  cases expected with
  | none =>
    obtain ⟨hquiet, st', hrun, hstore⟩ := h
    refine ⟨quiet_append hquiet fun st'' bound hpassed => ?_, st', ?_, hstore⟩
    · rw [hrun] at hpassed
      cases hpassed
    · rw [runApart_append, hrun]
      rfl
  | some a =>
    obtain ⟨hquiet, l, bound, hrun, hsame, hrel⟩ := h
    obtain ⟨hquiet', hnext⟩ := hnext a l bound rfl hsame hrel
    refine ⟨quiet_append hquiet fun st'' bound' hpassed => ?_, ?_⟩
    · rw [hrun] at hpassed
      cases hpassed
      exact hquiet'
    · rw [Option.bind_some, runApart_append, hrun]
      cases hf : f a with
      | none =>
        rw [hf] at hnext
        obtain ⟨st', hrun', hstore⟩ := hnext
        exact ⟨st', by rw [Apart.andThen, hrun'], hstore⟩
      | some b =>
        rw [hf] at hnext
        obtain ⟨l', new, hrun', hsame', hrel'⟩ := hnext
        exact ⟨l', bound ++ new, by rw [Apart.andThen, hrun'], hsame.trans hg hsame', hrel'⟩

end Gives

section

variable {α : Type} {related : Related m α} {s : NameSupply} {st : State m} {v : m.Value} {cond value : Expr}
  {l : Locals m.Value m.Cell}

theorem gives_check {expected : Option α} (h : Reads st.locals st.store cond (m.bool expected.isSome))
    (hrel : ∀ a, expected = some a → related a st.locals []) : Gives s [.check cond] st expected related := by
  refine ⟨⟨trivial, fun _ _ _ => trivial⟩, ?_⟩
  have hrun : runApart [.check cond] st = if expected.isSome then .passed st [] else .failed st := by
    simp only [runApart, Step.runApart, Step.run, Step.test, h.out, Tested.ofEval, m.truth_bool]
    cases expected <;> rfl
  cases expected with
  | none => exact ⟨st, hrun, rfl⟩
  | some a => exact ⟨st.locals, [], hrun, .refl, hrel a rfl⟩

theorem gives_test {b : Bool} (h : Reads st.locals st.store cond (m.bool b)) {a : α} (hrel : related a st.locals []) :
    Gives s [.check cond] st (if b then some a else none) related := by
  cases b with
  | false => exact gives_check h nofun
  | true =>
    refine gives_check h fun a' ha => ?_
    cases ha
    exact hrel

theorem gives_bind {name : String} (h : Reads st.locals st.store value v) {a : α}
    (hrel : related a st.locals [(name, v)]) :
    Gives s [.bind name value] st (some a) related := by
  refine ⟨⟨⟨v, h⟩, fun _ _ _ => trivial⟩, st.locals, [(name, v)], ?_, .refl, hrel⟩
  simp only [runApart, Step.runApart, h.out]
  rfl

theorem reads_local {x : String} (h : l.lookup x = some (.value v)) :
    Reads l store (.ident x) v := m.eval_local x _ l store h

theorem gives_define (h : Reads st.locals st.store value v) :
    Gives s [.define [s.fresh.1] value] st (some ()) fun _ l bound =>
      Reads l st.store (.ident s.fresh.1) v ∧ bound = [] := by
  refine ⟨⟨trivial, fun _ _ _ => trivial⟩, st.locals.define s.fresh.1 (.value v), [], ?_, ?_, ?_, rfl⟩
  · simp only [runApart, Step.runApart, Step.run, Step.defining, evalDefine, Machine.evalAll, h.out]
    rfl
  · exact SameBelow.refl.define (Nat.le_refl _)
  · refine reads_local ?_
    rw [lookup_define, if_pos ⟨s.fresh_ne_blank, rfl⟩]

theorem run_touch {store : m.Store} {e : Expr} (h : Reads l store e v) :
    (Step.touch e).run ⟨l, store⟩ = .passed ⟨l, store⟩ := by
  rw [Step.run, h.out, Tested.ofEval]

variable (hrt : rt.Evaluates env) (hclear : rt.Clear st.locals) (h : Reads st.locals st.store value v) (ty : Ty)
include hrt hclear h

theorem run_assert_reads (name : Option String) (user : Bool) {ok : String} (hok : ok ≠ "_") :
    (Step.assert name user ok value ty).run st = if rt.isA v ty
      then .passed ⟨(st.locals.define (name.getD "_") (.value v)).define ok (.value (m.bool true)), st.store⟩
      else .failed ⟨(st.locals.define (name.getD "_") (.value (m.cast v ty).1)).define ok (.value (m.bool false)),
        st.store⟩ := by
  have hany : m.eval (.apply (.ident "any") [value]) st.locals st.store = .value v st.store :=
    hrt.asAny hclear h
  obtain ⟨htest, hsame⟩ := hrt.cast v ty
  rw [run_assert, hany, Tested.ofEval, htest, Step.test, m.eval_local ok (.value (m.bool (rt.isA v ty)))]
  · simp only [Slot.read, Tested.ofEval, m.truth_bool]
    cases hisA : rt.isA v ty with
    | true => simp [hsame hisA]
    | false => rfl
  · rw [lookup_define, if_pos ⟨hok, rfl⟩]

theorem gives_downcast :
    Gives s [.assert (some s.fresh.1) false s.fresh.2.fresh.1 value ty, .touch (.ident s.fresh.1)] st
      (if rt.isA v ty then some () else none) fun _ l bound => Reads l st.store (.ident s.fresh.1) v ∧
        bound = [] := by
  have hassert := run_assert_reads hrt hclear h ty (some s.fresh.1) false s.fresh.2.fresh_ne_blank
  refine ⟨⟨trivial, fun _ _ _ => ⟨trivial, fun _ _ _ => trivial⟩⟩, ?_⟩
  cases hisA : rt.isA v ty with
  | false =>
    rw [hisA] at hassert
    refine ⟨⟨(st.locals.define s.fresh.1 (.value (m.cast v ty).1)).define s.fresh.2.fresh.1 (.value (m.bool false)),
      st.store⟩, ?_, rfl⟩
    simp only [runApart, Step.runApart, hassert]
    rfl
  | true =>
    rw [hisA] at hassert
    have hne : s.fresh.1 ≠ s.fresh.2.fresh.1 := fun heq => by
      have : s.next = s.next + 1 := NameSupply.numbered_inj heq
      omega
    have htouch : Reads ((st.locals.define s.fresh.1 (.value v)).define s.fresh.2.fresh.1 (.value (m.bool true)))
        st.store (.ident s.fresh.1) v := by
      refine reads_local ?_
      rw [lookup_define, if_neg fun hx => hne hx.2, lookup_define, if_pos ⟨s.fresh_ne_blank, rfl⟩]
    refine ⟨_, [], ?_, ?_, htouch, rfl⟩
    · simp only [runApart, Step.runApart, hassert, if_true, Apart.ofTested, Apart.andThen, Option.getD_some,
        run_touch htouch]
      rfl
    · exact (SameBelow.refl.define (Nat.le_refl _)).define (Nat.le_succ _)

theorem gives_typeTest (name : Option String) :
    Gives s [.assert name true s.fresh.1 value ty] st (if rt.isA v ty then some () else none)
      fun _ _ bound => bound = name.toList.map fun name => (name, v) := by
  have hassert := run_assert_reads hrt hclear h ty none true s.fresh_ne_blank
  have hany : m.eval (.apply (.ident "any") [value]) st.locals st.store = .value v st.store :=
    hrt.asAny hclear h
  refine ⟨⟨by cases name <;> trivial, fun _ _ _ => trivial⟩, ?_⟩
  cases hisA : rt.isA v ty with
  | false =>
    rw [hisA] at hassert
    refine ⟨⟨st.locals.define s.fresh.1 (.value (m.bool false)), st.store⟩, ?_, rfl⟩
    cases name <;> simp only [runApart, Step.runApart, hany, hassert] <;> rfl
  | true =>
    rw [hisA] at hassert
    refine ⟨st.locals.define s.fresh.1 (.value (m.bool true)), _, ?_,
      SameBelow.refl.define (Nat.le_refl _), rfl⟩
    cases name <;> simp only [runApart, Step.runApart, hany, hassert, (hrt.cast v ty).2 hisA] <;> rfl

end

/-! ## Steps that are added -/

def added (s s' : CompileState) : List Step := s'.steps.drop s.steps.length

abbrev Leads (s s' : CompileState) : Prop := CompileState.Emits (fun _ => True) s s'

theorem added_eq {new : List Step} (h : s'.steps = s.steps ++ new) : added s s' = new := by
  rw [added, h, List.drop_left]

@[simp] theorem added_self : added s s = [] := added_eq (List.append_nil _).symm

theorem added_append {s1 : CompileState} (h : Leads s s1) (h' : Leads s1 s') :
    added s s' = added s s1 ++ added s1 s' := by
  obtain ⟨new, hnew, -⟩ := h.steps
  obtain ⟨new', hnew', -⟩ := h'.steps
  have hall : s'.steps = s.steps ++ (new ++ new') := by rw [hnew', hnew, List.append_assoc]
  rw [added_eq hnew, added_eq hnew', added_eq hall]

theorem Gives.andThen {α β : Type} {s1 : CompileState} (h1 : Leads s s1) (h2 : Leads s1 s') {expected : Option α}
    {related : Related m α} (h : Gives s.names (added s s1) st expected related) {f : α → Option β} {next : Related m β}
    (hnext : ∀ a l bound, expected = some a → SameBelow s.names st.locals l → related a l bound →
      Gives s1.names (added s1 s') ⟨l, st.store⟩ (f a) fun b l' new => next b l' (bound ++ new)) :
    Gives s.names (added s s') st (expected.bind f) next := by
  rw [added_append h1 h2]
  exact h.bind h1.names hnext

theorem downcast_ok {e : Expr} {ty : Ty} (h : downcast subject ty s = .ok e s') :
    e = .ident s.names.fresh.1 ∧ s'.names = s.names.fresh.2.fresh.2 ∧
      added s s' = [.assert (some s.names.fresh.1) false s.names.fresh.2.fresh.1 subject ty,
        .touch (.ident s.names.fresh.1)] := by
  cases h
  exact ⟨rfl, rfl, added_eq (List.append_assoc _ _ _)⟩

theorem hold_ok {value e : Expr} (h : hold value s = .ok e s') :
    e = .ident s.names.fresh.1 ∧ s'.names = s.names.fresh.2 ∧ added s s' = [.define [s.names.fresh.1] value] := by
  cases h
  exact ⟨rfl, rfl, added_eq rfl⟩

theorem emit_ok {step : Step} (h : emit step s = .ok () s') : s'.names = s.names ∧ added s s' = [step] := by
  cases h
  exact ⟨rfl, added_eq rfl⟩

theorem ofChecked_ok {α : Type} {c : Checked α} {a : α} (h : ofChecked c s = .ok a s') : c = .ok a ∧ s' = s := by
  cases c <;> cases h
  exact ⟨rfl, rfl⟩

/-- The reads of a part give the component. -/
inductive PartIs (rt : Runtime m) (l : Locals m.Value m.Cell) (store : m.Store) : Part → Component m.Value → Prop where
  | value {read : Expr} {ty : Ty} {v : m.Value} : Reads l store read v → rt.Has v ty →
      PartIs rt l store (.value read ty) (.value v ty)
  | suffix {read : Expr} {ty : Ty} {u : m.Value} {vs : List m.Value} : Reads l store read u →
      rt.elements? u = some vs → PartIs rt l store (.suffix read ty) (.suffix vs)

def Part.read : Part → Expr
  | .value read _ => read
  | .suffix read _ => read

def Part.ty : Part → Ty
  | .value _ ty => ty
  | .suffix _ ty => ty

/-- What opening a subject gives: parts that read the components of its value. -/
def PartsAre (rt : Runtime m) (names : NameSupply) (store : m.Store) (parts : List Part)
    (cs : List (Component m.Value)) (l : Locals m.Value m.Cell) (bound : List (String × m.Value)) :
    Prop :=
  bound = [] ∧ List.Forall₂ (PartIs rt l store) parts cs ∧ ∀ part ∈ parts, OlderExpr names part.read

/-! ## Opening a subject -/

theorem selector_older {e : Expr} (h : OlderExpr names e) {sel : String} :
    OlderExpr names (.selector e sel) := fun x hx => h x (by simpa only [Expr.mentions] using hx)

theorem mentions_method (x : String) (e : Expr) {name : String} :
    (Expr.method e name []).mentions x = e.mentions x := by
  simp [Expr.method, Expr.apply, Expr.mentions, Expr.anyMentions, Ty.anyWrites]

theorem method_older {e : Expr} (h : OlderExpr names e) :
    OlderExpr names (.method e name []) := fun x hx => h x (mentions_method x e ▸ hx)

theorem numbered_older {e : Expr} (h : OlderExpr names e) (n : Nat) :
    OlderExpr names (.method e name [.nat n]) := fun x hx => h x (by
  simpa [Expr.method, Expr.apply, Expr.nat, Expr.int, Expr.mentions, Expr.anyMentions, Ty.anyWrites] using hx)

theorem tupleParts_older (h : OlderExpr names subject) :
    ∀ part ∈ tupleParts subject types, OlderExpr names part.read := by
  intro part hpart
  obtain ⟨i, hi, rfl⟩ := List.mem_mapIdx.mp hpart
  exact selector_older h

theorem sequencePart_older (h : OlderExpr names base) (i : Nat) :
    OlderExpr names (sequencePart base seq elem rest i).read := by
  unfold sequencePart
  split <;> exact numbered_older h _

theorem ite_bind {α β : Type} {c : Bool} {x y : Compile α} {f : α → Compile β} :
    (if c then x >>= f else y >>= f) = (if c then x else y) >>= f := by
  cases c <;> rfl

theorem openUnapply_eq : openUnapply companion param shape site subject =
      (if Runtime.needsCast site param then downcast subject param else pure subject) >>=
        callUnapply companion shape := ite_bind

theorem openStructural_eq (cast : Bool) :
    openStructural head fields cast subject = (if cast then downcast subject head else pure subject) >>=
      fun base => pure (fields.map (fieldPart base)) := ite_bind

theorem openSequence_eq : openSequence seq elem rest arity subject =
      (if subject.isPureRead then pure subject else hold subject) >>= (fun base => do
        emit (.check (.binary (if rest.isSome then BinaryOp.ge else .eq) (.method base "Size" [])
          (.nat (rest.getD arity))))
        pure ((List.range arity).map (sequencePart base seq elem rest))) := ite_bind

theorem base_gives (hsubject : Holds rt s.names subject wanted st v) {pureRead : Bool}
    (h : (if pureRead then pure subject else hold subject : Compile Expr) s = .ok base s') :
    Leads s s' ∧ Gives s.names (added s s') st (some ()) fun _ l bound =>
      bound = [] ∧ Reads l st.store base v ∧ OlderExpr s'.names base := by
  cases pureRead with
  | true =>
    obtain ⟨rfl, rfl⟩ := pure_ok h
    exact ⟨Std.Refl.refl s', added_self ▸ .nil ⟨rfl, hsubject.reads, hsubject.older⟩⟩
  | false =>
    obtain ⟨rfl, hnames, hadded⟩ := hold_ok h
    refine ⟨hold_emits.ok h, ?_⟩
    rw [hadded, hnames]
    exact (gives_define hsubject.reads).map (f := id) fun _ l bound hrel => ⟨hrel.2, hrel.1, olderExpr_fresh⟩

theorem reads_and {left right : Expr} {a b : Bool} (hleft : Reads l store left (m.bool a))
    (hright : a = true → Reads l store right (m.bool b)) :
    Reads l store (.binary .and left right) (m.bool (a && b)) := by
  rw [Reads, m.eval_and, hleft.out]
  simp only [m.truth_bool]
  cases a with
  | false => rfl
  | true => exact hright rfl

section

variable (hrt : rt.Evaluates env)
include hrt

theorem tupleParts_are (hread : Reads l store subject v) (htuple : rt.tuple? v = some vs)
    {types : List Ty} (htypes : List.Forall₂ rt.Has vs types) :
    List.Forall₂ (PartIs rt l store) (tupleParts subject types) (List.zipWith .value vs types) := by
  have hlen := htypes.length_eq
  rw [List.forall₂_iff_get] at htypes ⊢
  refine ⟨by simp [tupleParts, hlen], fun i h1 h2 => ?_⟩
  simp only [tupleParts, List.length_mapIdx] at h1
  simp only [tupleParts, List.get_eq_getElem, List.getElem_mapIdx, List.getElem_zipWith]
  exact .value (hrt.component hread htuple (List.getElem?_eq_getElem (hlen ▸ h1))) (htypes.2 i (hlen ▸ h1) h1)

theorem content_are {payload : Ty} {expand : Option (List Ty)} {w : m.Value} {content : Expr} (h : (match expand with
      | some types => pure (tupleParts content types)
      | none => pure [.value content payload] : Compile (List Part)) s = .ok parts s')
    (ho : rt.option? (rt.unapply companion v) = some (some w)) (hw : rt.Has w payload)
    (hexpand : ∀ types ∈ expand, ∃ vs, rt.tuple? w = some vs ∧ List.Forall₂ rt.Has vs types)
    (hget : Reads l store content w) (holder : OlderExpr names content) :
    ∃ cs, rt.unapplied companion v (.option payload expand) = some cs ∧
      List.Forall₂ (PartIs rt l store) parts cs ∧ ∀ part ∈ parts, OlderExpr names part.read := by
  cases expand with
  | none =>
    rw [(pure_ok h).1]
    refine ⟨[.value w payload], ?_, .cons (.value hget hw) .nil, by simpa [Part.read] using holder⟩
    simp [Runtime.unapplied, ho]
  | some types =>
    obtain ⟨vs, hvs, htypes⟩ := hexpand types rfl
    rw [(pure_ok h).1]
    refine ⟨List.zipWith .value vs types, ?_, tupleParts_are hrt hget hvs htypes, tupleParts_older holder⟩
    simp [Runtime.unapplied, ho, hvs]

theorem callUnapply_gives (h : callUnapply companion shape subject s = .ok parts s')
    (hscene : Scene rt s.names st.locals) (hread : Reads st.locals st.store subject v)
    (hbool : shape = .bool → ∃ b, rt.unapply companion v = m.bool b)
    (hoption : ∀ payload expand, shape = .option payload expand → ∃ o, rt.option? (rt.unapply companion v) = some o ∧
      ∀ w ∈ o, rt.Has w payload ∧ ∀ types ∈ expand, ∃ vs, rt.tuple? w = some vs ∧ List.Forall₂ rt.Has vs types) :
    Gives s.names (added s s') st (rt.unapplied companion v shape) (PartsAre rt s'.names st.store parts) := by
  have hcall := hrt.unapply hscene.clear hread companion
  cases shape with
  | bool =>
    obtain ⟨b, hb⟩ := hbool rfl
    obtain ⟨u, hcheck, rfl⟩ := map_ok h
    rw [hb] at hcall
    rw [(emit_ok hcheck).2, Runtime.unapplied, hb, m.truth_bool]
    exact gives_test hcall ⟨rfl, .nil, nofun⟩
  | option payload expand =>
    obtain ⟨o, ho, hcontent⟩ := hoption payload expand rfl
    obtain ⟨option, s1, hheld, h1⟩ := bind_ok h
    obtain ⟨u, s2, hcheck, h2⟩ := bind_ok h1
    obtain ⟨rfl, hnames1, hadded1⟩ := hold_ok hheld
    obtain ⟨hnames2, hadded2⟩ := emit_ok hcheck
    have hparts : s' = s2 := by
      cases expand <;> exact (pure_ok h2).2
    subst hparts
    have hleads1 : Leads s s1 := hold_emits.ok hheld
    have hleads2 : Leads s1 s' := check_emits.ok hcheck
    have hdefine := hadded1 ▸ gives_define (s := s.names) hcall
    -- the temporary is defined, then it is looked into
    refine hdefine.andThen (f := fun _ => rt.unapplied companion v (.option payload expand)) hleads1 hleads2
      fun _ l bound _ hsame hrel => ?_
    obtain ⟨htmp, rfl⟩ := hrel
    rw [hadded2, hnames1]
    have hdefined := hrt.isDefined htmp ho
    cases o with
    | none =>
      have hnone : rt.unapplied companion v (.option payload expand) = none := by simp [Runtime.unapplied, ho]
      rw [hnone]
      exact gives_check hdefined nofun
    | some w =>
      obtain ⟨hw, hexpand⟩ := hcontent w rfl
      have hget := hrt.getOption htmp ho
      have holder : OlderExpr s'.names (.method (.ident s.names.fresh.1) "Get" []) := by
        rw [hnames2, hnames1]
        exact method_older olderExpr_fresh
      obtain ⟨cs, hcs, hare, holders⟩ := content_are hrt h2 ho hw hexpand hget holder
      rw [hcs]
      refine gives_check hdefined fun cs' hcs' => ?_
      cases hcs'
      exact ⟨rfl, hare, holders⟩

variable (hsubject : Holds rt s.names subject wanted st v)
include hsubject

theorem cast_gives {needed : Bool} {e : Expr} {ty : Ty}
    (h : (if needed then downcast subject ty else pure subject : Compile Expr) s = .ok e s') :
    Leads s s' ∧ Gives s.names (added s s') st (if needed && !rt.isA v ty then none else some ()) fun _ l bound =>
      bound = [] ∧ Reads l st.store e v ∧ OlderExpr s'.names e ∧ (needed = true → rt.isA v ty = true) := by
  cases needed with
  | false =>
    obtain ⟨rfl, rfl⟩ := pure_ok h
    exact ⟨Std.Refl.refl s', added_self ▸ .nil ⟨rfl, hsubject.reads, hsubject.older, nofun⟩⟩
  | true =>
    obtain ⟨rfl, hnames, hadded⟩ := downcast_ok h
    refine ⟨downcast_emits.ok h, ?_⟩
    rw [hadded, hnames]
    have hdown := gives_downcast (s := s.names) hrt hsubject.clear hsubject.reads ty
    cases hisA : rt.isA v ty with
    | false =>
      rw [hisA] at hdown
      exact hdown
    | true =>
      rw [hisA] at hdown
      refine hdown.map (f := id) fun _ l bound hrel => ⟨hrel.2, hrel.1, ?_, fun _ => rfl⟩
      exact olderExpr_fresh.grows s.names.fresh.2.grows_fresh

theorem openUnapply_gives (h : openUnapply companion param shape site subject s = .ok parts s')
    (hfits : rt.Fits site v (.unapply companion param shape)) :
    Gives s.names (added s s') st (rt.components site v (.unapply companion param shape))
      (PartsAre rt s'.names st.store parts) := by
  rw [openUnapply_eq] at h
  obtain ⟨e, s1, hcast, h1⟩ := bind_ok h
  obtain ⟨hleads, hgives⟩ := cast_gives hrt hsubject hcast
  have hcomponents : rt.components site v (.unapply companion param shape) =
      Option.bind (if Runtime.needsCast site param && !rt.isA v param then none else some ())
        fun _ => rt.unapplied companion v shape := by
    simp only [Runtime.components]
    split <;> rfl
  rw [hcomponents]
  refine hgives.andThen hleads (callUnapply_emits.ok h1) fun _ l bound _ hsame hrel => ?_
  obtain ⟨rfl, hread', -, hisA⟩ := hrel
  refine callUnapply_gives hrt h1 (hsubject.toScene.after hsame hleads.names) hread' ?_ ?_
  · rintro rfl
    exact hfits hisA
  · rintro payload expand rfl
    exact hfits hisA

omit hsubject in
theorem fieldParts_are (hread : Reads l store base v)
    (hfields : ∀ f ∈ fields, ∃ stored, rt.field? v f.name = some stored ∧
      if f.wrapped then ∃ w, rt.wrapped? stored = some w ∧ rt.Has w f.ty else rt.Has stored f.ty) :
    ∃ cs, fields.mapM (rt.fieldOf v) = some cs ∧ List.Forall₂ (PartIs rt l store) (fields.map (fieldPart base)) cs := by
  induction fields with
  | nil => exact ⟨[], rfl, .nil⟩
  | cons f fields ih =>
    obtain ⟨cs, hcs, hparts⟩ := ih fun f' hf' => hfields f' (.tail _ hf')
    obtain ⟨stored, hstored, hf⟩ := hfields f (.head _)
    have hselect := hrt.field hread hstored
    cases hw : f.wrapped with
    | false =>
      rw [hw] at hf
      refine ⟨.value stored f.ty :: cs, ?_, .cons ?_ hparts⟩
      · simp [List.mapM_cons, Runtime.fieldOf, hstored, hw, hcs]
      · simp only [fieldPart, hw]
        exact .value hselect hf
    | true =>
      rw [hw] at hf
      obtain ⟨w, hwrapped, hhas⟩ := hf
      refine ⟨.value w f.ty :: cs, ?_, .cons ?_ hparts⟩
      · simp [List.mapM_cons, Runtime.fieldOf, hstored, hw, hwrapped, hcs]
      · simp only [fieldPart, hw]
        exact .value (hrt.getWrapped hselect hwrapped) hhas

theorem openStructural_gives {cast : Bool} (h : openStructural head fields cast subject s = .ok parts s')
    (hfits : rt.Fits site v (.structural head fields cast)) :
    Gives s.names (added s s') st (rt.components site v (.structural head fields cast))
      (PartsAre rt s'.names st.store parts) := by
  rw [openStructural_eq] at h
  obtain ⟨base, hcast, rfl⟩ := map_ok h
  obtain ⟨hleads, hgives⟩ := cast_gives hrt hsubject hcast
  have hcomponents : rt.components site v (.structural head fields cast) =
      Option.bind (if cast && !rt.isA v head then none else some ()) fun _ => fields.mapM (rt.fieldOf v) := by
    simp only [Runtime.components]
    split <;> rfl
  rw [hcomponents]
  refine hgives.andThen hleads (Std.Refl.refl s') fun _ l bound _ hsame hrel => ?_
  obtain ⟨rfl, hread', holder', hisA⟩ := hrel
  obtain ⟨cs, hcs, hparts⟩ := fieldParts_are hrt hread' (hfits hisA)
  rw [hcs, added_self]
  refine .nil ⟨rfl, hparts, fun part hpart => ?_⟩
  obtain ⟨f, -, rfl⟩ := List.mem_map.mp hpart
  simp only [fieldPart, Part.read]
  split
  · exact method_older (selector_older holder')
  · exact selector_older holder'

omit hrt hsubject

theorem elementParts_are {read : Nat → Expr} (hread : ∀ (i : Nat) w, vs[i]? = some w → Reads l store (read i) w)
    (helem : ∀ w ∈ vs, rt.Has w elem) {n : Nat} (hn : n ≤ vs.length) :
    List.Forall₂ (PartIs rt l store) ((List.range n).map fun i => .value (read i) elem)
      ((vs.take n).map (.value · elem)) := by
  rw [List.forall₂_iff_get]
  refine ⟨by simp [hn], fun i h1 h2 => ?_⟩
  simp only [List.length_map, List.length_range] at h1
  have hi : i < vs.length := Nat.lt_of_lt_of_le h1 hn
  simp only [List.get_eq_getElem, List.getElem_map, List.getElem_range, List.getElem_take]
  exact .value (hread i _ (List.getElem?_eq_getElem hi)) (helem _ (List.getElem_mem hi))

include hrt

theorem sequenceParts_are (hread : Reads l store base v) (helements : rt.elements? v = some vs)
    (helem : ∀ w ∈ vs, rt.Has w elem) {arity : Nat} (hrest : ∀ i ∈ rest, i + 1 = arity) {cs : List (Component m.Value)}
    (hcs : Runtime.elementsOf arity elem rest vs = some cs) :
    List.Forall₂ (PartIs rt l store) ((List.range arity).map (sequencePart base seq elem rest)) cs := by
  have hget : ∀ (i : Nat) w, vs[i]? = some w → Reads l store (.method base "Get" [.nat i]) w :=
    fun i w hw => hrt.getAt hread helements hw
  unfold Runtime.elementsOf at hcs
  split at hcs
  · split at hcs
    · rename_i hlen
      cases hcs
      have hparts := elementParts_are hget helem (Nat.le_of_eq hlen.symm)
      rw [List.take_of_length_le (Nat.le_of_eq hlen)] at hparts
      exact hparts
    · cases hcs
  · rename_i i
    split at hcs
    · rename_i hle
      cases hcs
      rw [← hrest i rfl, List.range_succ, List.map_append]
      refine List.rel_append ?_ (.cons ?_ .nil)
      · have hparts := elementParts_are hget helem hle
        rw [List.map_congr_left fun j hj => ?_] at hparts
        · exact hparts
        · have hne : (some j == some i) = false := by
            simpa using Nat.ne_of_lt (List.mem_range.mp hj)
          simp only [sequencePart, hne, Bool.false_eq_true, if_false]
      · obtain ⟨u, hu, hdrop⟩ := hrt.drop (i := i) hread helements
        simp only [sequencePart, BEq.rfl, if_true]
        exact .suffix hu hdrop
    · cases hcs

theorem equal_nat (a b : Nat) : rt.equal (rt.literal (.int a)) (rt.literal (.int b)) = (a == b) := by
  rw [hrt.equal_int]
  by_cases h : a = b
  · simp [h]
  · have hne : (a : Int) ≠ b := by omega
    simp [h, hne]

theorem size_reads (hread : Reads l store base v) (helements : rt.elements? v = some vs) :
    Reads l store (.binary (if rest.isSome then BinaryOp.ge else .eq) (.method base "Size" []) (.nat (rest.getD arity)))
      (m.bool (Runtime.elementsOf arity elem rest vs).isSome) := by
  have hsize := hrt.size hread helements
  have hlit : ∀ n : Nat, Reads l store (.nat n) (rt.literal (.int n)) := fun n => hrt.literal _ _ _
  cases rest with
  | none =>
    have hsome : (Runtime.elementsOf arity elem none vs).isSome = (vs.length == arity) := by
      by_cases hlen : vs.length = arity <;> simp [Runtime.elementsOf, hlen]
    rw [hsome, ← equal_nat hrt]
    exact hrt.equal hsize (hlit arity)
  | some i =>
    have hsome : (Runtime.elementsOf arity elem (some i) vs).isSome =
        decide ((i : Int) ≤ (vs.length : Int)) := by
      simp only [Runtime.elementsOf]
      split <;> simp_all
    rw [hsome]
    exact hrt.atLeast hsize (hlit i)

include hsubject in
theorem openSequence_gives (hrest : ∀ i ∈ rest, i + 1 = site.arity)
    (h : openSequence seq elem rest site.arity subject s = .ok parts s')
    (hfits : rt.Fits site v (.sequence seq elem rest)) :
    Gives s.names (added s s') st (rt.components site v (.sequence seq elem rest))
      (PartsAre rt s'.names st.store parts) := by
  obtain ⟨vs, hvs, helem⟩ := hfits
  rw [openSequence_eq] at h
  obtain ⟨base, s1, hbase, h1⟩ := bind_ok h
  obtain ⟨u, hcheck, rfl⟩ := map_ok h1
  obtain ⟨hleads, hgives⟩ := base_gives hsubject hbase
  have hcomponents : rt.components site v (.sequence seq elem rest) =
      Option.bind (some ()) fun _ => Runtime.elementsOf site.arity elem rest vs := by
    simp only [Runtime.components, hvs, Option.bind_some]
  rw [hcomponents]
  refine hgives.andThen hleads (check_emits.ok hcheck) fun _ l bound _ _ hrel => ?_
  obtain ⟨rfl, hread', holder'⟩ := hrel
  rw [(emit_ok hcheck).2]
  refine gives_check (size_reads hrt hread' hvs) fun cs hcs => ⟨rfl, ?_, fun part hpart => ?_⟩
  · exact sequenceParts_are hrt hread' hvs helem hrest hcs
  · obtain ⟨i, -, rfl⟩ := List.mem_map.mp hpart
    rw [(emit_ok hcheck).1]
    exact sequencePart_older holder' _

theorem full_reads (hclear : rt.Clear l) (hread : Reads l store vals u) {o : Option (List m.Value)}
    (hslice : rt.slice? u = some o) :
    Reads l store (.binary .and (.binary .ne vals .nil) (.binary .eq (.apply (.ident "len") [vals]) (.nat arity)))
      (m.bool (o.bind (Runtime.elementsOf arity .any none)).isSome) := by
  have hnil := hrt.notNil hread hslice
  cases o with
  | none => exact reads_and (b := false) hnil nofun
  | some vs =>
    have hlen := hrt.equal (hrt.length hclear hread hslice) (hrt.literal (.int arity) l store)
    rw [equal_nat hrt] at hlen
    have hsome : (Option.bind (some vs) (Runtime.elementsOf arity .any none)).isSome =
        (true && (vs.length == arity)) := by
      by_cases h : vs.length = arity <;> simp [Runtime.elementsOf, h]
    rw [hsome]
    exact reads_and hnil fun _ => hlen

include hsubject in
theorem openReflective_gives (h : openReflective env.runtime head site.arity subject s = .ok parts s')
    (hfits : rt.Fits site v (.reflective head)) :
    Gives s.names (added s s') st (rt.components site v (.reflective head)) (PartsAre rt s'.names st.store parts) := by
  unfold openReflective at h
  simp only [Runtime.components]
  by_cases harity : site.arity = 0
  · rw [if_pos (by simpa using harity)] at h
    rw [if_pos harity]
    obtain ⟨u, hcheck, rfl⟩ := map_ok h
    have haccepts := hrt.accepts hsubject.clear hsubject.reads head
    rw [(emit_ok hcheck).2]
    exact gives_test haccepts ⟨rfl, .nil, nofun⟩
  · rw [if_neg (by simpa using harity)] at h
    rw [if_neg harity]
    obtain ⟨vals, s1, hheld, h1⟩ := bind_ok h
    obtain ⟨u, hcheck, rfl⟩ := map_ok h1
    obtain ⟨rfl, hnames, hadded⟩ := hold_ok hheld
    obtain ⟨full, hfull, hslice⟩ := hrt.extract hsubject.clear hsubject.reads head
    have hleads : Leads s s1 := hold_emits.ok hheld
    have hdefine := hadded ▸ gives_define (s := s.names) hfull
    refine hdefine.andThen (f := fun _ => (rt.extract head v).bind (Runtime.elementsOf site.arity .any none)) hleads
      (check_emits.ok hcheck) fun _ l bound _ hsame hrel => ?_
    obtain ⟨htmp, rfl⟩ := hrel
    have hscene' := hsubject.toScene.after hsame hleads.names
    rw [(emit_ok hcheck).2]
    refine gives_check (full_reads hrt hscene'.clear htmp hslice) fun cs hcs =>
      ⟨rfl, ?_, fun part hpart => ?_⟩
    · obtain ⟨vs, hvs, hcs⟩ := Option.bind_eq_some_iff.mp hcs
      simp only [Runtime.elementsOf] at hcs
      split at hcs
      · rename_i hlen
        cases hcs
        have hparts := elementParts_are (fun i w hw => hrt.index htmp (hvs ▸ hslice) hw) (hfits vs hvs) (Nat.le_refl _)
        rwa [List.take_length, hlen] at hparts
      · cases hcs
    · obtain ⟨i, -, rfl⟩ := List.mem_map.mp hpart
      rw [(emit_ok hcheck).1, hnames]
      intro x hx
      refine olderExpr_fresh x ?_
      simpa [Part.read, Expr.mentions, Expr.nat, Expr.int] using hx

end

theorem restPosition_last (h : restPosition site = .ok rest) : ∀ i ∈ rest, i + 1 = site.arity := by
  intro i hi
  unfold restPosition at h
  split at h
  · cases h
    cases hi
  · split at h
    · rename_i hlast
      cases h
      cases hi
      simpa using hlast
    · cases h
  · cases h

theorem directUnapply_ok {head : TypeEntry} {unapply : Method} (h : directUnapply env head unapply site = .ok e) :
    ∃ companion param shape, e = .unapply companion param shape := by
  obtain ⟨args, -, h1⟩ := checked_bind_ok h
  split at h1
  · cases h1
  · obtain ⟨shape, -, rfl⟩ := checked_map_ok h1
    exact ⟨_, _, _, rfl⟩

theorem reflectiveUnapply_ok {head : TypeEntry} (h : reflectiveUnapply env head site = .ok e) :
    ∃ ty, e = .reflective ty := by
  unfold reflectiveUnapply at h
  dsimp only at h
  split at h
  · cases h
  · split at h
    · cases h
      exact ⟨_, rfl⟩
    · split at h <;> cases h
      exact ⟨_, rfl⟩

theorem sequenceMatch_ok {head : TypeEntry} (h : sequenceMatch env head site = .ok e) :
    ∃ seq elem rest, e = .sequence seq elem rest ∧ ∀ i ∈ rest, i + 1 = site.arity := by
  obtain ⟨rest, hrest, h1⟩ := checked_bind_ok h
  obtain ⟨⟨seq, cast⟩, -, h2⟩ := checked_bind_ok h1
  dsimp only at h2
  split at h2
  · cases h2
  · cases h2
    exact ⟨_, _, rest, rfl, restPosition_last hrest⟩

theorem structuralMatch_ok {head : TypeEntry} (h : structuralMatch env head site = .ok e) :
    ∃ ty fields cast, e = .structural ty fields cast ∧ fields.length = site.arity := by
  unfold structuralMatch at h
  split at h
  · cases h
  · rename_i harity
    obtain ⟨⟨ty, cast⟩, -, h1⟩ := checked_bind_ok h
    obtain ⟨fields, hfields, rfl⟩ := checked_map_ok h1
    have harity : site.arity = head.fields.length := by simpa using harity
    exact ⟨_, _, _, rfl, by rw [← (forall₂_of_mapM_ok hfields).length_eq, harity]⟩

theorem resolve_cases (h : resolve env site = .ok e) :
    ∃ head, env.type? site.head = some head ∧ if (head.method? "Unapply").isSome
      then (∃ companion param shape, e = .unapply companion param shape) ∨ ∃ ty, e = .reflective ty
      else (∃ ty fields cast, e = .structural ty fields cast ∧ fields.length = site.arity ∧ head.kind = .struct) ∨
        ∃ seq elem rest, e = .sequence seq elem rest ∧ ∀ i ∈ rest, i + 1 = site.arity := by
  unfold resolve at h
  split at h
  · cases h
  rename_i head hhead
  refine ⟨head, hhead, ?_⟩
  cases hunapply : head.method? "Unapply" with
  | some unapply =>
    rw [hunapply] at h
    dsimp only at h
    split at h
    · exact .inl (directUnapply_ok h)
    · split at h
      · exact .inr (reflectiveUnapply_ok h)
      · cases h
  | none =>
    rw [hunapply] at h
    dsimp only at h
    split at h
    · rename_i hstruct
      simp only [Bool.and_eq_true, beq_iff_eq] at hstruct
      obtain ⟨ty, fields, cast, heq, hlength⟩ := structuralMatch_ok h
      exact .inl ⟨ty, fields, cast, heq, hlength, hstruct.1.1⟩
    · split at h
      · exact .inr (sequenceMatch_ok h)
      · split at h <;> cases h

theorem resolve_rest (h : resolve env site = .ok (.sequence seq elem rest)) : ∀ i ∈ rest, i + 1 = site.arity := by
  obtain ⟨head, -, hcases⟩ := resolve_cases h
  split at hcases
  · rcases hcases with ⟨_, _, _, heq⟩ | ⟨_, heq⟩ <;> cases heq
  · rcases hcases with ⟨_, _, _, heq, -⟩ | ⟨_, _, _, heq, hrest⟩ <;> cases heq
    exact hrest

theorem openExtractor_gives (hrt : rt.Lawful env) (h : openExtractor env site subject s = .ok parts s')
    (hsubject : Holds rt s.names subject site.subject st v) :
    Gives s.names (added s s') st (rt.extracted env site v) (PartsAre rt s'.names st.store parts) := by
  obtain ⟨e, s1, he, h1⟩ := bind_ok h
  obtain ⟨hresolve, rfl⟩ := ofChecked_ok he
  have hfits := hrt.extraction hsubject.has hresolve
  rw [Runtime.extracted, hresolve]
  cases e with
  | unapply companion param shape => exact openUnapply_gives hrt.toEvaluates hsubject h1 hfits
  | structural head fields cast => exact openStructural_gives hrt.toEvaluates hsubject h1 hfits
  | sequence seq elem rest => exact openSequence_gives hrt.toEvaluates hsubject (resolve_rest hresolve) h1 hfits
  | reflective head => exact openReflective_gives hrt.toEvaluates hsubject h1 hfits

theorem openTuple_ok {elems : List (Located Pattern)} {span : Span} {ty : Ty}
    (h : openTuple env elems span subject ty s = .ok parts s') :
    s' = s ∧ (env.expand ty).tupleArity? = some elems.length ∧ parts = tupleParts subject (env.expand ty).args := by
  unfold openTuple at h
  dsimp only at h
  split at h
  · cases h
  · split at h
    · cases h
    · cases hn : (env.expand ty).tupleArity? with
      | none =>
        rw [hn] at h
        cases h
      | some n =>
        rw [hn] at h
        dsimp only at h
        split at h
        · rename_i heq
          cases h
          exact ⟨rfl, by rw [eq_of_beq heq], rfl⟩
        · cases h

theorem tupleParts_types : (tupleParts subject types).map Part.ty = types := by
  refine List.ext_getElem (by simp [tupleParts]) fun i _ _ => ?_
  simp [tupleParts, Part.ty]

def Spot.ty : Spot → Ty
  | .value ty => ty
  | .suffix ty => ty

theorem Part.ty_spot (part : Part) : part.spot.ty = part.ty := by
  cases part <;> rfl

theorem Extraction.spots_types (e : Extraction) :
    ((e.spots arity).map Spot.ty).take arity = (e.elementTypes arity).take arity := by
  cases e with
  | unapply companion param shape =>
    cases shape with
    | bool => rfl
    | option payload expand =>
      cases expand with
      | some types => simp [spots, elementTypes, Function.comp_def, Spot.ty]
      | none => cases arity <;> simp [spots, elementTypes, Spot.ty]
  | structural head fields cast => simp [spots, elementTypes, Function.comp_def, Spot.ty]
  | sequence seq elem rest =>
    rw [spots, elementTypes, List.map_map]
    exact congrArg _ (List.map_congr_left fun i _ => apply_ite Spot.ty _ _ _)
  | reflective head => simp [spots, elementTypes, Spot.ty]

theorem openExtractor_types (hresolve : resolve env site = .ok e) (h : openExtractor env site subject s = .ok parts s') :
    (parts.map Part.ty).take site.arity = (e.elementTypes site.arity).take site.arity := by
  have hopens := openExtractor_binds env site subject s
  rw [h, hresolve] at hopens
  have hspots : parts.map Part.spot = e.spots site.arity := congrArg Prod.fst (Except.ok.inj hopens)
  rw [← e.spots_types, ← hspots, List.map_map]
  exact congrArg _ (List.map_congr_left fun part _ => part.ty_spot.symm)

end Match

end Lowering
