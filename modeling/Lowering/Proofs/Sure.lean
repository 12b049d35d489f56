/-
  Sure — patterns that match without a test.

  Names and wildcards match anything, a tuple or a struct of a known type is taken apart by reading its fields,
  and a value that has the type asked for needs no test.
-/

import Lowering.Proofs.Opening

namespace Lowering

namespace Source

open Match (namesCompanion)

mutual

/-- May match without a test. -/
def Pattern.isSure (env : Env) : Pattern → Bool
  | .wildcard => true
  | .ident name => !namesCompanion env name
  | .literal _ => false
  | .typed _ _ => true
  | .extractor head _ args =>
    (env.type? head).any (fun e => (e.method? "Unapply").isNone && e.kind == .struct) && Pattern.allSure env args
  | .tuple elems => Pattern.allSure env elems
  | .rest _ => true

def Pattern.allSure (env : Env) : List (Located Pattern) → Bool
  | [] => true
  | ⟨p, _⟩ :: ps => p.isSure env && Pattern.allSure env ps

end

def Clause.isSure (env : Env) (c : Clause) : Bool := c.guard.isNone && c.pattern.val.isSure env

end Source

namespace Match

open Compile
open Source (Pattern)

/-! ## Tests -/

def CompileState.Tested (s : CompileState) : Prop := s.steps.any Step.isTest = true

variable {s s' : CompileState} {env : Env} {site : Site} {ty : Ty} {parts : List Part} {subject : Target.Expr}

theorem CompileState.Emits.tested {allowed : String → Prop} (h : Emits allowed s s') (hs : s.Tested) : s'.Tested := by
  obtain ⟨new, hnew, -⟩ := h.steps
  rw [Tested, hnew, List.any_append, hs]
  rfl

theorem tested_of_added (h : Leads s s') (htest : (added s s').any Step.isTest = true) : s'.Tested := by
  obtain ⟨new, hnew, -⟩ := h.steps
  rw [CompileState.Tested, hnew, List.any_append, ← added_eq hnew, htest, Bool.or_true]

/-- Whatever the action returns, it adds a test. -/
structure Tests {α : Type} (act : Compile α) : Prop where
  leads : Keeps Leads act
  added : ∀ s a s', act s = .ok a s' → (added s s').any Step.isTest = true

namespace Tests

variable {α β : Type}

theorem tested {act : Compile α} (h : Tests act) {s s' : CompileState} {a : α} (hs : act s = .ok a s') : s'.Tested :=
  tested_of_added (h.leads.ok hs) (h.added s a s' hs)

theorem emit {step : Step} (h : step.isTest = true) (hleads : Keeps Leads (Compile.emit step)) :
    Tests (Compile.emit step) := by
  refine ⟨hleads, fun s a s' hs => ?_⟩
  rw [(emit_ok hs).2]
  simp [h]

theorem check {cond : Target.Expr} : Tests (Compile.emit (.check cond)) := emit rfl check_emits

variable {f : α → Compile β} {x : Compile α}

theorem before (hx : Tests x) (hf : ∀ a, Keeps Leads (f a)) : Tests (x >>= f) := by
  refine ⟨.bind hx.leads hf, fun s b s' h => ?_⟩
  obtain ⟨a, s1, ha, h⟩ := bind_ok h
  rw [added_append (hx.leads.ok ha) ((hf a).ok h), List.any_append, hx.added s a s1 ha, Bool.true_or]

theorem after (hx : Keeps Leads x) (hf : ∀ a, Tests (f a)) : Tests (x >>= f) := by
  refine ⟨.bind hx fun a => (hf a).leads, fun s b s' h => ?_⟩
  obtain ⟨a, s1, ha, h⟩ := bind_ok h
  rw [added_append (hx.ok ha) ((hf a).leads.ok h), List.any_append, (hf a).added s1 b s' h, Bool.or_true]

end Tests

theorem callUnapply_tests : Tests (callUnapply companion shape subject) := by
  cases shape with
  | bool => exact .before (.check) fun _ => .pure
  | option payload expand =>
    refine .after hold_emits fun option => .before (.check) fun _ => ?_
    cases expand <;> exact .pure

theorem openUnapply_tests (param : Ty) : Tests (openUnapply companion param shape site subject) := by
  rw [openUnapply_eq]
  exact .after (.ite downcast_emits (.pure)) fun _ => callUnapply_tests

theorem openSequence_tests (seq elem : Ty) (rest : Option Nat) : Tests (openSequence seq elem rest arity subject) := by
  rw [openSequence_eq]
  exact .after (.ite (.pure) hold_emits) fun base => .before (.check) fun _ => .pure

theorem openReflective_tests (runtime : String) (head : Ty) : Tests (openReflective runtime head arity subject) := by
  unfold openReflective
  split
  · exact .before (.check) fun _ => .pure
  · exact .after hold_emits fun vals => .before (.check) fun _ => .pure

/-! ## Extractors -/

/-- Parts that are values, one for each pattern. -/
structure WholeParts (ps : List (Located Pattern)) (parts : List Part) : Prop where
  length : ps.length ≤ parts.length
  value : ∀ read ty, .suffix read ty ∉ parts

theorem WholeParts.tail {p : Located Pattern} {ps : List (Located Pattern)} {part : Part}
    (h : WholeParts (p :: ps) (part :: parts)) : WholeParts ps parts :=
  ⟨Nat.le_of_succ_le_succ h.length, fun read ty hmem => h.value read ty (.tail _ hmem)⟩

theorem tupleParts_whole {elems : List (Located Pattern)} (h : ty.tupleArity? = some elems.length) :
    WholeParts elems (tupleParts subject ty.args) :=
  ⟨by simp [tupleParts, Ty.args_length h], by simp [tupleParts]⟩

theorem openExtractor_cases (h : openExtractor env site subject s = .ok parts s') :
    (added s s').any Step.isTest = true ∨
      (∃ e, env.type? site.head = some e ∧ e.method? "Unapply" = none ∧ e.kind = .struct) ∧
        WholeParts site.args parts := by
  obtain ⟨extraction, s1, he, h⟩ := bind_ok h
  obtain ⟨hresolve, rfl⟩ := ofChecked_ok he
  obtain ⟨e, hhead, hcases⟩ := resolve_cases hresolve
  split at hcases
  · rcases hcases with ⟨companion, param, shape, rfl⟩ | ⟨head, rfl⟩
    · exact .inl ((openUnapply_tests _).added _ _ _ h)
    · exact .inl ((openReflective_tests _ _).added _ _ _ h)
  · rename_i hunapply
    rcases hcases with ⟨head, fields, cast, rfl, hlength, hstruct⟩ | ⟨seq, elem, rest, rfl, -⟩
    · dsimp only at h
      rw [openStructural_eq] at h
      obtain ⟨base, s2, -, h⟩ := bind_ok h
      rw [(pure_ok h).1]
      exact .inr ⟨⟨e, hhead, by simpa using hunapply, hstruct⟩,
        by simpa [Site.arity] using Nat.le_of_eq hlength.symm, by simp [fieldPart]⟩
    · exact .inl ((openSequence_tests _ _ _).added _ _ _ h)

theorem openExtractor_sure (h : openExtractor env site subject s = .ok parts s') (hs : ¬ s'.Tested) :
    (∃ e, env.type? site.head = some e ∧ e.method? "Unapply" = none ∧ e.kind = .struct) ∧
      WholeParts site.args parts := by
  have hleads : Leads s s' := openExtractor_emits.ok h
  exact (openExtractor_cases h).resolve_left fun htest => hs (tested_of_added hleads htest)

/-! ## Patterns -/

mutual

theorem compileInto_sure : ∀ (p : Located Pattern) (subject : Target.Expr) (ty : Ty) {s s' : CompileState},
    compileInto env p subject ty s = .ok () s' → ¬ s'.Tested → p.val.isSure env = true
  | ⟨.wildcard, _⟩, _, _, _, _, _, _ => rfl
  | ⟨.ident name, span⟩, subject, ty, s, s', h, hs => by
    simp only [Pattern.isSure, Bool.not_eq_true']
    by_contra hnames
    have hnames : namesCompanion env name = true := by simpa using hnames
    simp only [compileInto, hnames, if_true] at h
    obtain ⟨parts, hopen, -⟩ := map_ok h
    obtain ⟨⟨e, he, -, hkind⟩, -⟩ := openExtractor_sure hopen hs
    -- What is named by a companion is not a struct.
    simp [namesCompanion, show env.type? name = some e from he, hkind] at hnames
  | ⟨.literal value, _⟩, subject, ty, s, s', h, hs => by
    simp only [compileInto] at h
    exact absurd (Tests.check.tested h) hs
  | ⟨.typed name wanted, _⟩, _, _, _, _, _, _ => rfl
  | ⟨.extractor head typeArgs args, span⟩, subject, ty, s, s', h, hs => by
    simp only [compileInto] at h
    obtain ⟨parts, s1, hopen, h⟩ := bind_ok h
    have hopened : ¬ s1.Tested := fun htested =>
      hs ((compileParts_emits args parts (fun _ _ => trivial)).ok h |>.tested htested)
    obtain ⟨⟨e, he, hunapply, hkind⟩, hparts⟩ := openExtractor_sure hopen hopened
    simp only [Pattern.isSure, Bool.and_eq_true]
    refine ⟨?_, compileParts_sure args parts h hs hparts⟩
    rw [show env.type? head = some e from he]
    simp [hunapply, hkind]
  | ⟨.tuple elems, span⟩, subject, ty, s, s', h, hs => by
    simp only [compileInto] at h
    obtain ⟨parts, s1, hopen, h⟩ := bind_ok h
    obtain ⟨rfl, harity, rfl⟩ := openTuple_ok hopen
    exact compileParts_sure elems _ h hs (tupleParts_whole harity)
  | ⟨.rest _, _⟩, _, _, _, _, _, _ => rfl

theorem compileParts_sure : ∀ (ps : List (Located Pattern)) (parts : List Part) {s s' : CompileState},
    compileParts env ps parts s = .ok () s' → ¬ s'.Tested → WholeParts ps parts → Pattern.allSure env ps = true
  | [], _, _, _, _, _, _ => rfl
  | p :: ps, [], _, _, _, _, hparts => absurd hparts.length (Nat.not_succ_le_zero _)
  | p :: ps, .suffix read ty :: parts, _, _, _, _, hparts => absurd (.head _) (hparts.value read ty)
  | ⟨p, span⟩ :: ps, .value read ty :: parts, s, s', h, hs, hparts => by
    simp only [compileParts] at h
    obtain ⟨⟨⟩, s1, hp, h⟩ := bind_ok h
    have hfirst : ¬ s1.Tested := fun htested =>
      hs ((compileParts_emits ps parts (fun _ _ => trivial)).ok h |>.tested htested)
    rw [Pattern.allSure, compileInto_sure ⟨p, span⟩ read ty hp hfirst,
      compileParts_sure ps parts h hs hparts.tail]
    rfl

end

end Match

end Lowering
