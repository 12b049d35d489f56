/-
  Guarded — nothing is read before it is there, nor before it is tested.

  What an extractor gave may be empty, a sequence may be too short, so the step that reads an element comes after
  the step that tests for it.
-/

import Lowering.Proofs.Nodes
import Lowering.Proofs.Refines

namespace Lowering.Match

open Source (Pattern)
open Target
open Compile

/-! ## Safe places -/

def Step.value : Step → Expr
  | .define _ value | .bind _ value | .check value | .assert _ _ _ value _ | .touch value => value

def SizeTested (before : List Step) (base : Expr) (bound : Nat) : Prop :=
  ∃ op ∈ [BinaryOp.eq, .ge], Step.check (.binary op (.method base "Size" []) (.nat bound)) ∈ before

def countTest (vals : Expr) (count : Nat) : Expr :=
  .binary .and (.binary .ne vals .nil) (.binary .eq (.apply (.ident "len") [vals]) (.nat count))

/-- The steps before allow what is done at the place itself. -/
structure Safe (runtime : String) (before : List Step) (n : Node) : Prop where
  ident : ∀ x, n = .expr (.ident x) → x = runtime ∨ x = "len" ∨ x ∈ before.flatMap Step.temps
  content : ∀ x, n = .expr (.method (.ident x) "Get" []) → .check (.method (.ident x) "IsDefined" []) ∈ before
  element : ∀ base i, n = .expr (.method base "Get" [.nat i]) → ∃ bound, i < bound ∧ SizeTested before base bound
  suffix : ∀ base bound, n = .expr (.method base "Drop" [.nat bound]) → SizeTested before base bound
  item : ∀ vals i, n = .expr (.index vals (.nat i)) → ∃ count, i < count ∧ .check (countTest vals count) ∈ before

def SafeIn (runtime : String) (subject : Expr) (before : List Step) (e : Expr) : Prop :=
  e.Every fun n => n ∈ subject.nodes ∨ Safe runtime before n

def Guarded (runtime : String) (subject : Expr) (steps : List Step) : Prop :=
  ∀ before step after, steps = before ++ step :: after → SafeIn runtime subject before step.value

variable {runtime : String} {subject e value : Expr} {before steps : List Step} {step : Step} {n : Node}

theorem Safe.mono {before' : List Step} (hsub : before ⊆ before') (h : Safe runtime before n) :
    Safe runtime before' n where
  ident x hx := (h.ident x hx).imp_right (Or.imp_right fun ht =>
    let ⟨step, hstep, ht⟩ := List.mem_flatMap.mp ht
    List.mem_flatMap.mpr ⟨step, hsub hstep, ht⟩)
  content x hx := hsub (h.content x hx)
  element base i hi :=
    let ⟨bound, hlt, op, hop, hcheck⟩ := h.element base i hi
    ⟨bound, hlt, op, hop, hsub hcheck⟩
  suffix base bound hb :=
    let ⟨op, hop, hcheck⟩ := h.suffix base bound hb
    ⟨op, hop, hsub hcheck⟩
  item vals i hi :=
    let ⟨count, hlt, hcheck⟩ := h.item vals i hi
    ⟨count, hlt, hsub hcheck⟩

theorem Safe.of_other (hident : ∀ x, n ≠ .expr (.ident x))
    (hmethod : ∀ base name args, n = .expr (.method base name args) → name ≠ "Get" ∧ name ≠ "Drop")
    (hindex : ∀ vals i, n ≠ .expr (.index vals i)) : Safe runtime before n where
  ident x hx := absurd hx (hident x)
  content _ hx := absurd rfl (hmethod _ _ _ hx).1
  element _ _ hi := absurd rfl (hmethod _ _ _ hi).1
  suffix _ _ hb := absurd rfl (hmethod _ _ _ hb).2
  item _ _ hi := absurd hi (hindex _ _)

namespace SafeIn

variable {x : String}

theorem mono {before' : List Step} (hsub : before ⊆ before') (h : SafeIn runtime subject before e) :
    SafeIn runtime subject before' e := fun n hn => (h n hn).imp_right (.mono hsub)

theorem whole : SafeIn runtime subject before subject := fun _ hn => .inl hn

theorem ident (h : x = runtime ∨ x = "len" ∨ x ∈ before.flatMap Step.temps) :
    SafeIn runtime subject before (.ident x) := by
  intro n hn
  cases List.mem_singleton.mp hn
  refine .inr ⟨fun y hy => ?_, nofun, nofun, nofun, nofun⟩
  cases hy
  exact h

theorem temp (h : x ∈ before.flatMap Step.temps) : SafeIn runtime subject before (.ident x) :=
  .ident (.inr (.inr h))

theorem lit {l : Literal} : SafeIn runtime subject before (.lit l) := by
  intro n hn
  cases List.mem_singleton.mp hn
  exact .inr (.of_other nofun nofun nofun)

theorem nil : SafeIn runtime subject before .nil := by
  intro n hn
  cases List.mem_singleton.mp hn
  exact .inr (.of_other nofun nofun nofun)

theorem zero {ty : Ty} : SafeIn runtime subject before (.zero ty) :=
  Expr.every_composite.mpr ⟨.inr (.of_other nofun nofun nofun), by simp⟩

theorem selector (h : SafeIn runtime subject before e) {name : String} :
    SafeIn runtime subject before (.selector e name) :=
  Expr.every_selector.mpr ⟨.inr (.of_other nofun nofun nofun), h⟩

theorem binary {left right : Expr} {op : BinaryOp} (hl : SafeIn runtime subject before left)
    (hr : SafeIn runtime subject before right) : SafeIn runtime subject before (.binary op left right) :=
  Expr.every_binary.mpr ⟨.inr (.of_other nofun nofun nofun), hl, hr⟩

theorem method {name : String} {args : List Expr} (hcall : Safe runtime before (.expr (.method e name args)))
    (h : SafeIn runtime subject before e) (hargs : ∀ a ∈ args, SafeIn runtime subject before a) :
    SafeIn runtime subject before (.method e name args) :=
  Expr.every_call.mpr ⟨.inr hcall, h.selector, hargs⟩

end SafeIn

theorem nat_inj {i k : Nat} (h : Expr.nat i = .nat k) : i = k := by
  simp only [Expr.nat, Expr.int, Expr.lit.injEq, Literal.int.injEq] at h
  omega

theorem Safe.method {name : String} (hget : name ≠ "Get") (hdrop : name ≠ "Drop") (args : List Expr) :
    Safe runtime before (.expr (.method e name args)) := by
  refine .of_other nofun (fun base name' args' h => ?_) nofun
  cases h
  exact ⟨hget, hdrop⟩

theorem Safe.get {args : List Expr}
    (hcontent : ∀ x, e = .ident x → args = [] → .check (.method (.ident x) "IsDefined" []) ∈ before)
    (helement : ∀ i, args = [.nat i] → ∃ bound, i < bound ∧ SizeTested before e bound) :
    Safe runtime before (.expr (.method e "Get" args)) where
  ident := nofun
  content x hx := by
    cases hx
    exact hcontent x rfl rfl
  element base i hi := by
    simp only [Expr.method, Expr.apply, Node.expr.injEq, Expr.call.injEq, Expr.selector.injEq] at hi
    obtain ⟨⟨rfl, -⟩, -, hargs⟩ := hi
    exact helement i hargs
  suffix base bound hb := by simp [Expr.method, Expr.apply] at hb
  item := nofun

theorem Guarded.nil : Guarded runtime subject [] := fun before _ _ h => by simp at h

theorem Guarded.emit (h : Guarded runtime subject steps) (step : Step)
    (hv : SafeIn runtime subject steps step.value) : Guarded runtime subject (steps ++ [step]) := by
  intro before s after heq
  rcases List.eq_nil_or_concat after with rfl | ⟨after, last, rfl⟩
  · obtain ⟨rfl, hlast⟩ := List.append_inj' heq rfl
    cases hlast
    exact hv
  · rw [List.concat_eq_append, ← List.cons_append, ← List.append_assoc] at heq
    exact h before s after (List.append_inj' heq rfl).1

/-! ## Openings -/

section Openings

variable {s s' : CompileState} {ty head seq elem : Ty} {root : Expr} {parts : List Part} {env : Env} {site : Site}
    {cast : Bool} {rest : Option Nat} {arity : Nat}

/-- The steps so far are guarded, and the expressions are safe after them. -/
structure Ready (runtime : String) (root : Expr) (s : CompileState) (reads : List Expr) : Prop where
  steps : Guarded runtime root s.steps
  reads : ∀ e ∈ reads, SafeIn runtime root s.steps e

theorem Ready.intro (hs : Guarded runtime root s.steps) (he : SafeIn runtime root s.steps e) : Ready runtime root s [e] :=
  ⟨hs, List.forall_mem_singleton.mpr he⟩

theorem Ready.safe (h : Ready runtime root s [e]) : SafeIn runtime root s.steps e := h.reads e (.head _)

theorem hold_ready (h : hold value s = .ok e s') (hs : Ready runtime root s [value]) :
    Ready runtime root s' [e] ∧ ∃ x, e = .ident x := by
  cases h
  exact ⟨.intro (hs.steps.emit (.define [s.names.fresh.1] value) hs.safe) (.temp (by simp [Step.temps])), _, rfl⟩

theorem cast_ready (h : (if cast then downcast subject ty else pure subject) s = .ok e s')
    (hs : Ready runtime root s [subject]) : Ready runtime root s' [e] := by
  cases cast with
  | true =>
    cases h
    have hcast := hs.steps.emit (.assert (some s.names.fresh.1) false s.names.fresh.2.fresh.1 subject ty) hs.safe
    exact .intro (hcast.emit (.touch (.ident s.names.fresh.1)) (.temp (by simp [Step.temps])))
      (.temp (by simp [Step.temps]))
  | false =>
    cases h
    exact hs

theorem tupleParts_ready (hs : Ready runtime root s [subject]) {types : List Ty} :
    Ready runtime root s ((tupleParts subject types).map Part.read) := by
  refine ⟨hs.steps, List.forall_mem_map.mpr fun p hp => ?_⟩
  obtain ⟨i, hi, rfl⟩ := List.mem_mapIdx.mp hp
  exact hs.safe.selector

theorem callUnapply_ready {companion : Ty} {shape : UnapplyShape}
    (h : callUnapply companion shape subject s = .ok parts s') (hs : Ready runtime root s [subject]) :
    Ready runtime root s' (parts.map Part.read) := by
  have hcall : Ready runtime root s [.method (.zero companion) "Unapply" [subject]] :=
    .intro hs.steps (.method (.method (by decide) (by decide) _) (.zero) hs.reads)
  cases shape with
  | bool =>
    cases h
    exact ⟨hcall.steps.emit (.check _) hcall.safe, nofun⟩
  | option payload expand =>
    obtain ⟨option, s1, hhold, h⟩ := bind_ok h
    obtain ⟨hs1, x, rfl⟩ := hold_ready hhold hcall
    obtain ⟨_, s2, hcheck, h⟩ := bind_ok h
    cases hcheck
    have hdefined := hs1.steps.emit (.check (.method (.ident x) "IsDefined" []))
      (.method (.method (by decide) (by decide) _) hs1.safe nofun)
    have hcontent := Ready.intro (e := .method (.ident x) "Get" []) (s := { s1 with steps := _ }) hdefined <| by
      refine .method (.get (fun y hy _ => ?_) nofun) (hs1.safe.mono (List.subset_append_left _ _)) nofun
      cases hy
      simp
    cases expand with
    | none =>
      cases h
      exact hcontent
    | some types =>
      cases h
      exact tupleParts_ready hcontent

theorem openStructural_ready {fields : List FieldRead}
    (h : openStructural head fields cast subject s = .ok parts s') (hs : Ready runtime root s [subject]) :
    Ready runtime root s' (parts.map Part.read) := by
  rw [openStructural_eq] at h
  obtain ⟨base, hbase, rfl⟩ := map_ok h
  have hs' := cast_ready hbase hs
  refine ⟨hs'.steps, List.forall_mem_map.mpr (List.forall_mem_map.mpr fun f _ => ?_)⟩
  unfold fieldPart Part.read
  dsimp only
  split
  -- The receiver of `Get` is a field and not a temporary, and no element is asked for.
  · exact .method (.get nofun nofun) hs'.safe.selector nofun
  · exact hs'.safe.selector

theorem sequencePart_safe {base : Expr} {i : Nat}
    (hrest : ∀ i ∈ rest, i + 1 = arity) (hlt : i < arity) (hbase : SafeIn runtime root steps base)
    (htested : SizeTested steps base (rest.getD arity)) :
    SafeIn runtime root steps (sequencePart base seq elem rest i).read := by
  unfold sequencePart
  split
  · rename_i hi
    obtain rfl : some i = rest := eq_of_beq hi
    refine .method ⟨fun _ h => (by cases h), by simp [Expr.method, Expr.apply], by simp [Expr.method, Expr.apply], ?_,
      fun _ _ h => by cases h⟩ hbase (by simpa using .lit)
    intro base' bound hb
    simp only [Expr.method, Expr.apply, Node.expr.injEq, Expr.call.injEq, Expr.selector.injEq] at hb
    obtain ⟨⟨rfl, -⟩, -, hargs⟩ := hb
    obtain rfl := nat_inj (List.head_eq_of_cons_eq hargs)
    exact htested
  · rename_i hi
    refine .method (.get (fun _ _ h => by cases h) fun k hk => ⟨rest.getD arity, ?_, htested⟩) hbase
      (by simpa using .lit)
    obtain rfl := nat_inj (List.head_eq_of_cons_eq hk)
    cases rest with
    | none => exact hlt
    | some j =>
      have hij : i ≠ j := by simpa using hi
      have := hrest j rfl
      simp only [Option.getD_some]
      omega

theorem openSequence_ready (hrest : ∀ i ∈ rest, i + 1 = arity)
    (h : openSequence seq elem rest arity subject s = .ok parts s') (hs : Ready runtime root s [subject]) :
    Ready runtime root s' (parts.map Part.read) := by
  rw [openSequence_eq] at h
  obtain ⟨base, s1, hbase, h⟩ := bind_ok h
  have hs1 : Ready runtime root s1 [base] := by
    split at hbase
    · cases hbase
      exact hs
    · exact (hold_ready hbase hs).1
  cases h
  have hsize : SafeIn runtime root s1.steps (.method base "Size" []) :=
    .method (.method (by decide) (by decide) _) hs1.safe nofun
  refine ⟨hs1.steps.emit (.check _) (.binary hsize (.lit)),
    List.forall_mem_map.mpr (List.forall_mem_map.mpr fun i hi => ?_)⟩
  refine sequencePart_safe hrest (List.mem_range.mp hi) (hs1.safe.mono (List.subset_append_left _ _)) ?_
  exact ⟨if rest.isSome then .ge else .eq, by cases rest <;> simp, by simp⟩

theorem openReflective_ready (hruntime : runtime ≠ "")
    (h : openReflective runtime head arity subject s = .ok parts s') (hs : Ready runtime root s [subject]) :
    Ready runtime root s' (parts.map Part.read) := by
  have hcall : ∀ name, name ≠ "Get" → name ≠ "Drop" →
      Ready runtime root s [.apply (.qualified runtime name) [subject, .zero head]] := by
    intro name hget hdrop
    rw [Expr.qualified, if_neg (by simpa using hruntime)]
    refine .intro hs.steps (.method (.method hget hdrop _) (.ident (.inl rfl)) ?_)
    simpa using ⟨hs.safe, .zero⟩
  unfold openReflective at h
  split at h
  · cases h
    have hcheck := hcall "UnapplyCheck" (by decide) (by decide)
    exact ⟨hcheck.steps.emit (.check _) hcheck.safe, nofun⟩
  · obtain ⟨vals, s1, hhold, h⟩ := bind_ok h
    obtain ⟨hs1, -⟩ := hold_ready hhold (hcall _ (by decide) (by decide))
    have hlen : SafeIn runtime root s1.steps (.apply (.ident "len") [vals]) :=
      Expr.every_call.mpr ⟨.inr (.of_other nofun nofun nofun), SafeIn.ident (.inr (.inl rfl)), hs1.reads⟩
    cases h
    refine ⟨hs1.steps.emit (.check _) (.binary (.binary hs1.safe .nil) (.binary hlen (.lit))),
      List.forall_mem_map.mpr (List.forall_mem_map.mpr fun i hi => ?_)⟩
    refine Expr.every_index.mpr ⟨.inr ⟨nofun, nofun, nofun, nofun, fun vals' k hk => ?_⟩,
      hs1.safe.mono (List.subset_append_left _ _), SafeIn.lit⟩
    simp only [Node.expr.injEq, Expr.index.injEq] at hk
    obtain ⟨rfl, hk⟩ := hk
    obtain rfl := nat_inj hk
    exact ⟨arity, List.mem_range.mp hi, by simp [countTest]⟩

theorem openExtractor_ready (hruntime : env.runtime ≠ "") (h : openExtractor env site subject s = .ok parts s')
    (hs : Ready env.runtime root s [subject]) : Ready env.runtime root s' (parts.map Part.read) := by
  obtain ⟨extraction, s1, hchecked, h⟩ := bind_ok h
  obtain ⟨hresolve, rfl⟩ := ofChecked_ok hchecked
  cases extraction with
  | unapply companion param shape =>
    dsimp only at h
    rw [openUnapply_eq] at h
    obtain ⟨base, s1, hbase, h⟩ := bind_ok h
    exact callUnapply_ready h (cast_ready hbase hs)
  | structural head fields cast => exact openStructural_ready h hs
  | sequence seq elem rest => exact openSequence_ready (resolve_rest hresolve) h hs
  | reflective head => exact openReflective_ready hruntime h hs

end Openings

/-! ## Patterns -/

variable {env : Env} {root : Expr} {s s' : CompileState} {name : String} {ty wanted : Ty} {span : Span}

theorem steps_added (h : Leads s s') : s'.steps = s.steps ++ added s s' := by
  obtain ⟨new, hnew, -⟩ := h.steps
  rw [added_eq hnew, hnew]

theorem Guarded.leads (hs : Guarded runtime root s.steps) (hleads : Leads s s')
    (hadded : added s s' = [] ∨ ∃ step, added s s' = [step] ∧ SafeIn runtime root s.steps step.value) :
    Guarded runtime root s'.steps := by
  rw [steps_added hleads]
  obtain hnone | ⟨step, hone, hv⟩ := hadded
  · rwa [hnone, List.append_nil]
  · rw [hone]
    exact hs.emit step hv

theorem Ready.leads {reads : List Expr} (hs' : Guarded runtime root s'.steps)
    (hreads : ∀ e ∈ reads, SafeIn runtime root s.steps e) (hleads : Leads s s') : Ready runtime root s' reads :=
  ⟨hs', fun e he => (hreads e he).mono (steps_added hleads ▸ List.subset_append_left _ _)⟩

theorem bindValue_guarded (h : bindValue name value ty span s = .ok () s') (hs : Ready runtime root s [value]) :
    Guarded runtime root s'.steps :=
  hs.steps.leads ((bindValue_emits trivial).ok h) (.inr ⟨_, bindValue_ok h, hs.safe⟩)

theorem typedPattern_guarded (h : typedPattern name wanted span subject ty s = .ok () s')
    (hs : Ready runtime root s [subject]) : Guarded runtime root s'.steps := by
  refine hs.steps.leads ((typedPattern_emits _ trivial).ok h) ?_
  rw [typedPattern_ok h]
  split
  · split
    · exact .inl rfl
    · exact .inr ⟨_, rfl, hs.safe⟩
  · exact .inr ⟨_, rfl, hs.safe⟩

theorem literalTest_safe {l : Literal} (hv : SafeIn runtime root before subject) :
    SafeIn runtime root before (literalTest l subject ty) := by
  unfold literalTest
  split
  · exact hv
  · exact Expr.every_unary.mpr ⟨.inr (.of_other nofun nofun nofun), hv⟩
  · exact .binary hv (.lit)

theorem bindSuffix_guarded {p : Located Pattern} (h : bindSuffix p value ty s = .ok () s')
    (hs : Ready runtime root s [value]) : Guarded runtime root s'.steps := by
  cases hp : p.val with
  | rest binder =>
    cases binder with
    | none =>
      rw [bindSuffix, hp] at h
      cases h
      exact hs.steps
    | some name =>
      rw [bindSuffix, hp] at h
      exact bindValue_guarded h hs
  | _ =>
    rw [bindSuffix, hp] at h
    cases h
    exact hs.steps

mutual

theorem compileInto_guarded (hruntime : env.runtime ≠ "") : ∀ (p : Located Pattern) (subject : Expr) (ty : Ty)
    {s s' : CompileState}, compileInto env p subject ty s = .ok () s' → Ready env.runtime root s [subject] →
    Guarded env.runtime root s'.steps
  | ⟨.wildcard, _⟩, _, _, _, _, h, hs => by
    simp only [compileInto] at h
    cases h
    exact hs.steps
  | ⟨.ident name, span⟩, subject, ty, _, _, h, hs => by
    simp only [compileInto] at h
    split at h
    · obtain ⟨parts, hopen, -⟩ := map_ok h
      exact (openExtractor_ready hruntime hopen hs).steps
    · exact bindValue_guarded h hs
  | ⟨.literal value, _⟩, subject, ty, _, _, h, hs => by
    simp only [compileInto] at h
    cases h
    exact hs.steps.emit (.check _) (literalTest_safe hs.safe)
  | ⟨.typed name wanted, span⟩, subject, ty, _, _, h, hs => by
    simp only [compileInto] at h
    exact typedPattern_guarded h hs
  | ⟨.extractor head typeArgs args, span⟩, subject, ty, _, _, h, hs => by
    simp only [compileInto] at h
    obtain ⟨parts, s1, hopen, h⟩ := bind_ok h
    exact compileParts_guarded hruntime args parts h (openExtractor_ready hruntime hopen hs)
  | ⟨.tuple elems, span⟩, subject, ty, _, _, h, hs => by
    simp only [compileInto] at h
    obtain ⟨parts, s1, hopen, h⟩ := bind_ok h
    obtain ⟨rfl, -, rfl⟩ := openTuple_ok hopen
    exact compileParts_guarded hruntime elems _ h (tupleParts_ready hs)
  | ⟨.rest _, _⟩, _, _, _, _, h, _ => by
    simp only [compileInto] at h
    cases h

theorem compileParts_guarded (hruntime : env.runtime ≠ "") : ∀ (ps : List (Located Pattern)) (parts : List Part)
    {s s' : CompileState}, compileParts env ps parts s = .ok () s' →
    Ready env.runtime root s (parts.map Part.read) → Guarded env.runtime root s'.steps
  | [], _, _, _, h, hs | _ :: _, [], _, _, h, hs => by
    simp only [compileParts] at h
    cases h
    exact hs.steps
  | p :: ps, .value read ty :: parts, _, _, h, hs => by
    simp only [compileParts] at h
    obtain ⟨_, s1, hfirst, h⟩ := bind_ok h
    obtain ⟨hread, hparts⟩ := List.forall_mem_cons.mp hs.reads
    refine compileParts_guarded hruntime ps parts h (.leads ?_ hparts ((compileInto_emits env p read ty fun _ _ => trivial).ok hfirst))
    exact compileInto_guarded hruntime p read ty hfirst (.intro hs.steps hread)
  | p :: ps, .suffix read ty :: parts, _, _, h, hs => by
    simp only [compileParts] at h
    obtain ⟨_, s1, hfirst, h⟩ := bind_ok h
    obtain ⟨hread, hparts⟩ := List.forall_mem_cons.mp hs.reads
    refine compileParts_guarded hruntime ps parts h
      (.leads ?_ hparts ((bindSuffix_emits fun _ _ => trivial).ok hfirst))
    exact bindSuffix_guarded hfirst (.intro hs.steps hread)

end

/-- The steps of a pattern define each temporary once, bind the names listed in their order and each
    once, and read nothing before it was defined or tested for. -/
theorem compile_guarded {p : Located Pattern} {names names' : NameSupply} {compiled : CompiledPattern}
    (hruntime : env.runtime ≠ "") (h : compile env p subject ty names = (.ok compiled, names')) :
    (compiled.steps.flatMap Step.temps).Nodup ∧
      compiled.steps.flatMap Step.binds = compiled.bindings.map Prod.fst ∧ (compiled.bindings.map Prod.fst).Nodup ∧
      Guarded env.runtime subject compiled.steps := by
  obtain ⟨s', hs', hsteps, hbound, -⟩ := compile_ok h
  have hemits : Leads ⟨names, [], []⟩ s' := (compileInto_emits env p subject ty fun _ _ => trivial).ok hs'
  obtain ⟨htemps, -⟩ := hemits.numbered ⟨.nil, nofun⟩
  obtain ⟨hlist, hnodup⟩ := hemits.listed ⟨rfl, .nil⟩
  rw [← hsteps, ← hbound]
  exact ⟨htemps, hlist, hnodup, compileInto_guarded hruntime p subject ty hs' (.intro .nil .whole)⟩

/-- What `Wrap` gives of `x.V1` is asked for before `On` reads it. -/
theorem compile_guarded_boxed :
    compile boxEnv boxedPattern (.ident "x") (pairTy (.own "Boxed") .int) (.new "_tmp") =
        (.ok boxedCode, ⟨"_tmp", 1, 0⟩) ∧
      (boxedCode.steps.flatMap Step.temps).Nodup ∧ boxedCode.steps.flatMap Step.binds = ["n"] ∧
      Guarded boxEnv.runtime (.ident "x") boxedCode.steps := by
  have hcode : compile boxEnv boxedPattern (.ident "x") (pairTy (.own "Boxed") .int) (.new "_tmp") =
      (.ok boxedCode, ⟨"_tmp", 1, 0⟩) := by with_unfolding_all rfl
  obtain ⟨htemps, hbinds, -, hguarded⟩ := compile_guarded (by decide) hcode
  exact ⟨hcode, htemps, hbinds, hguarded⟩

end Lowering.Match
