/-
  Coverage — a covering clause matches.

  Coverage is decided on the patterns as they are written; matching is what the compiled patterns do. A clause
  counts for a variant when its arguments are `_` or bare names. They test nothing (`covering_passes`), unless a
  name stands for a companion, so each variant needs a clause without such a name (`PlainlyCovered`).
-/

import Lowering.Proofs.Refines

namespace Lowering.Match

open Source (Pattern Clause)
open Target
open Compile

variable {m : Machine} {rt : Runtime m} {env : Env}

/-! ## Values of closed types -/

def namesVariant (env : Env) (e : TypeEntry) (name : String) : Bool :=
  (env.type? name).any fun head => head.package == e.package && e.variants.contains head.name

/-- The value is built by a variant of the sealed type: companions of variants have an `Unapply`,
    and that of this variant accepts the value. -/
structure Runtime.BuiltBy (rt : Runtime m) (env : Env) (e : TypeEntry) (ty : Ty) (v : m.Value)
    (variant : String) : Prop where
  mem : variant ∈ e.variants
  unapply : ∀ name head, namesVariant env e name = true → env.type? name = some head →
    (head.method? "Unapply").isSome = true
  accepts : ∀ (site : Site) (extraction : Extraction), site.subject = ty → namesVariant env e site.head = true →
    Text.bareName site.head = variant → resolve env site = .ok extraction →
    (rt.components site v extraction).isSome = true

def Runtime.IsBuilt (rt : Runtime m) (env : Env) (ty : Ty) (v : m.Value) : Prop :=
  ∀ e, env.entry? (env.expand ty) = some e → e.isSealed = true → ∃ variant, rt.BuiltBy env e ty v variant

/-- Wherever the pattern is compiled, with bindings that are no temporaries, its steps pass on the value. -/
def Passes (rt : Runtime m) (env : Env) (p : Located Pattern) (ty : Ty) (v : m.Value) : Prop :=
  ∀ {subject : Expr} {names names' : NameSupply} {compiled : CompiledPattern},
    compile env p subject ty names = (.ok compiled, names') → (∀ b ∈ compiled.bindings, names.Older b.1) →
    ∀ {st : State m}, Holds rt names subject ty st v → ∀ used, ∃ l,
      runSteps (compiled.kept used) st = .passed ⟨l, st.store⟩

/-! ## Calls of an `Unapply` -/

variable {call : ExtractorCall} {p : Located Pattern} {parts : List Part} {s s' : CompileState} {subject : Expr}
  {names : NameSupply} {st : State m} {ty : Ty} {v : m.Value} {b : Bool} {c : Clause} {clauses : List Clause}
  {coverage : Coverage} {span : Span}

theorem compileInto_call (h : extractorCall? env p.val = some call) (subject : Expr) (ty : Ty) :
    compileInto env p subject ty = openExtractor env ⟨call, ty.unwrap, p.span⟩ subject >>= fun parts =>
        compileParts env call.args parts := by
  obtain ⟨p, span⟩ := p
  cases p with
  | extractor head typeArgs args =>
    cases h
    simp only [compileInto]
  | ident name =>
    simp only [extractorCall?] at h
    split at h <;> cases h
    rename_i hname
    simp only [compileInto, compileParts, hname, if_true]
  | _ => cases h

def OnlyTaken (names names' : NameSupply) (e : Expr) : Prop := ∀ x, e.mentions x = true → names.Taken names' x

theorem onlyTaken_fresh (names : NameSupply) : OnlyTaken names names.fresh.2 (.ident names.fresh.1) := by
  intro x hx
  simp only [Expr.mentions, beq_iff_eq] at hx
  exact ⟨names.next, Nat.le_refl _, Nat.lt_succ_self _, hx.symm⟩

theorem callUnapply_reads {companion : Ty} {shape : UnapplyShape}
    (h : callUnapply companion shape subject s = .ok parts s') :
    ∀ part ∈ parts, OnlyTaken s.names s'.names part.read := by
  cases shape with
  | bool =>
    obtain ⟨u, -, rfl⟩ := map_ok h
    exact nofun
  | option payload expand =>
    obtain ⟨option, s1, hheld, h1⟩ := bind_ok h
    obtain ⟨u, s2, hcheck, h2⟩ := bind_ok h1
    obtain ⟨rfl, hnames1, -⟩ := hold_ok hheld
    have hfresh := onlyTaken_fresh s.names
    rw [← hnames1, ← (emit_ok hcheck).1] at hfresh
    have hget : OnlyTaken s.names s2.names (.method (.ident s.names.fresh.1) "Get" []) :=
      fun x hx => hfresh x (mentions_method x _ ▸ hx)
    cases expand with
    | none =>
      obtain ⟨rfl, rfl⟩ := pure_ok h2
      intro part hpart
      cases List.mem_singleton.mp hpart
      exact hget
    | some types =>
      obtain ⟨rfl, rfl⟩ := pure_ok h2
      intro part hpart
      obtain ⟨i, hi, rfl⟩ := List.mem_mapIdx.mp hpart
      exact fun x hx => hget x (by simpa only [Part.read, Expr.mentions] using hx)

theorem openReflective_reads {head : Ty} {arity : Nat}
    (h : openReflective env.runtime head arity subject s = .ok parts s') :
    ∀ part ∈ parts, OnlyTaken s.names s'.names part.read := by
  unfold openReflective at h
  split at h
  · obtain ⟨u, -, rfl⟩ := map_ok h
    exact nofun
  · obtain ⟨vals, s1, hheld, h1⟩ := bind_ok h
    obtain ⟨u, hcheck, rfl⟩ := map_ok h1
    obtain ⟨rfl, hnames, -⟩ := hold_ok hheld
    intro part hpart x hx
    obtain ⟨i, -, rfl⟩ := List.mem_map.mp hpart
    rw [(emit_ok hcheck).1, hnames]
    refine onlyTaken_fresh s.names x ?_
    simpa [Part.read, Expr.mentions, Expr.nat, Expr.int] using hx

theorem openExtractor_reads {site : Site}
    (hunapply : ∀ head, env.type? site.head = some head → (head.method? "Unapply").isSome = true)
    (h : openExtractor env site subject s = .ok parts s') : ∀ part ∈ parts, OnlyTaken s.names s'.names part.read := by
  obtain ⟨e, s1, he, h1⟩ := bind_ok h
  obtain ⟨hresolve, rfl⟩ := ofChecked_ok he
  obtain ⟨head, hhead, hcases⟩ := resolve_cases hresolve
  rw [if_pos (hunapply head hhead)] at hcases
  rcases hcases with ⟨companion, param, shape, rfl⟩ | ⟨ty, rfl⟩
  · dsimp only at h1
    rw [openUnapply_eq] at h1
    obtain ⟨e, s2, hcast, h2⟩ := bind_ok h1
    have hleads : Leads s1 s2 := (Keeps.ite downcast_emits (.pure)).ok hcast
    intro part hpart x hx
    exact (callUnapply_reads h2 part hpart x hx).widen hleads.names (Std.Refl.refl _)
  · exact openReflective_reads h1

/-! ## Arguments that test nothing -/

theorem gives_binds {steps : List Step}
    (h : ∀ step ∈ steps, ∃ name value v, step = .bind name value ∧ Reads st.locals st.store value v) :
    Gives names steps st (some ()) fun _ _ _ => True := by
  induction steps with
  | nil => exact .nil trivial
  | cons step steps ih =>
    obtain ⟨name, value, v, rfl, hread⟩ := h step (.head _)
    have hfirst : Gives names [.bind name value] st (some ()) fun _ l _ => l = st.locals :=
      gives_bind hread rfl
    refine hfirst.bind (Std.Refl.refl names) (f := fun _ => some ()) fun _ l bound _ _ hl => ?_
    subst hl
    exact ih fun step hstep => h step (.tail _ hstep)

/-- `_` or a name that is bound. -/
def isPlain (env : Env) (p : Located Pattern) : Bool :=
  p.val.isIrrefutable && (extractorCall? env p.val).isNone

theorem compileInto_plain (hp : isPlain env p = true) (h : compileInto env p subject ty s = .ok () s') :
    ∀ step ∈ added s s', ∃ name, step = .bind name subject := by
  obtain ⟨p, span⟩ := p
  cases p with
  | wildcard =>
    simp only [compileInto] at h
    obtain ⟨-, rfl⟩ := pure_ok h
    rw [added_self]
    exact nofun
  | ident name =>
    have hname : namesCompanion env name = false := by
      simpa [isPlain, extractorCall?, Pattern.isIrrefutable] using hp
    simp only [compileInto, hname, Bool.false_eq_true, if_false] at h
    rw [bindValue_ok h]
    intro step hstep
    exact ⟨name, List.mem_singleton.mp hstep⟩
  | _ => cases hp

theorem compileParts_plain : ∀ {ps : List (Located Pattern)} {parts : List Part} {s : CompileState},
    (∀ p ∈ ps, isPlain env p = true) → compileParts env ps parts s = .ok () s' →
    ∀ step ∈ added s s', ∃ name, ∃ part ∈ parts, step = .bind name part.read
  | [], _, s, _, h | _ :: _, [], s, _, h => by
    simp only [compileParts] at h
    obtain ⟨-, rfl⟩ := pure_ok h
    rw [added_self]
    exact nofun
  | p :: ps, .value read ty :: parts, s, hps, h => by
    simp only [compileParts] at h
    obtain ⟨u, s1, hp, h1⟩ := bind_ok h
    rw [added_append ((compileInto_emits env p read ty fun _ _ => trivial).ok hp)
      ((compileParts_emits ps parts fun _ _ => trivial).ok h1)]
    intro step hstep
    rcases List.mem_append.mp hstep with hstep | hstep
    · obtain ⟨name, heq⟩ := compileInto_plain (hps p (.head _)) hp step hstep
      exact ⟨name, _, .head _, heq⟩
    · obtain ⟨name, part, hpart, heq⟩ := compileParts_plain (fun p hp => hps p (.tail _ hp)) h1 step hstep
      exact ⟨name, part, .tail _ hpart, heq⟩
  | p :: ps, .suffix read ty :: parts, s, hps, h => by
    simp only [compileParts] at h
    obtain ⟨u, s1, hp, h1⟩ := bind_ok h
    obtain rfl : s1 = s := by
      have hirrefutable := hps p (.head _)
      obtain ⟨p, span⟩ := p
      cases p with
      | wildcard | ident name => exact (pure_ok hp).2
      | _ => cases hirrefutable
    intro step hstep
    obtain ⟨name, part, hpart, heq⟩ := compileParts_plain (fun p hp => hps p (.tail _ hp)) h1 step hstep
    exact ⟨name, part, .tail _ hpart, heq⟩

/-! ## Covering clauses -/

section

variable (site : Site) {subject : Expr} {s s' : CompileState}

theorem partIs_reads {l : Locals m.Value m.Cell} {store : m.Store} {parts : List Part}
    {cs : List (Component m.Value)} (h : List.Forall₂ (PartIs rt l store) parts cs) {part : Part}
    (hpart : part ∈ parts) : ∃ u, Reads l store part.read u := by
  obtain ⟨c, -, hpart⟩ := exists_of_forall₂ h part hpart
  cases hpart with
  | value hread _ | suffix hread _ => exact ⟨_, hread⟩

theorem plainCall_gives (hrt : rt.Lawful env) (hargs : ∀ arg ∈ site.args, isPlain env arg = true)
    (h : (openExtractor env site subject >>= fun parts => compileParts env site.args parts) s = .ok () s')
    {st : State m} {v : m.Value} (hsubject : Holds rt s.names subject site.subject st v)
    (haccepts : ∀ e, resolve env site = .ok e → (rt.components site v e).isSome = true) :
    Gives s.names (added s s') st (some ()) fun _ _ _ => True := by
  obtain ⟨parts, s1, hopen, hparts⟩ := bind_ok h
  have hgives := openExtractor_gives hrt hopen hsubject
  have hextracted : ∃ cs, rt.extracted env site v = some cs := by
    refine Option.isSome_iff_exists.mp ?_
    cases hresolve : resolve env site with
    | error d =>
      obtain ⟨e, s2, he, -⟩ := bind_ok hopen
      cases hresolve ▸ (ofChecked_ok he).1
    | ok e =>
      rw [Runtime.extracted, hresolve]
      exact haccepts e hresolve
  obtain ⟨cs, hcs⟩ := hextracted
  rw [hcs] at hgives
  refine hgives.andThen (openExtractor_emits.ok hopen)
    ((compileParts_emits _ parts fun _ _ => trivial).ok hparts)
    (f := fun _ => some ()) fun _ l bound _ _ hrel => gives_binds fun step hstep => ?_
  obtain ⟨name, part, hpart, rfl⟩ := compileParts_plain hargs hparts step hstep
  obtain ⟨u, hu⟩ := partIs_reads hrel.2.1 hpart
  exact ⟨name, part.read, u, rfl, hu⟩

theorem plainCall_noCapture (hargs : ∀ arg ∈ site.args, isPlain env arg = true)
    (hunapply : ∀ head, env.type? site.head = some head → (head.method? "Unapply").isSome = true)
    (h : (openExtractor env site subject >>= fun parts => compileParts env site.args parts) s = .ok () s')
    (hbinds : ∀ step ∈ added s s', ∀ x ∈ step.binds, s.names.Older x) : NoCapture (added s s') := by
  obtain ⟨parts, s1, hopen, hparts⟩ := bind_ok h
  have hopening : CompileState.Emits (fun _ => False) s s1 := openExtractor_emits.ok hopen
  obtain ⟨new, hnew, hnone⟩ := hopening.steps
  have hsplit := added_append (openExtractor_emits.ok hopen : Leads s s1)
    ((compileParts_emits _ parts fun _ _ => trivial).ok hparts)
  rw [hsplit, added_eq hnew] at hbinds ⊢
  refine List.pairwise_append.mpr ⟨?_, ?_, fun a ha b _ x hx => ((hnone a ha).1 x hx).elim⟩
  · exact List.pairwise_of_forall_mem_list fun a ha b _ x hx => ((hnone a ha).1 x hx).elim
  · refine List.pairwise_of_forall_mem_list fun a ha b hb x hx => ?_
    obtain ⟨name, part, hpart, rfl⟩ := compileParts_plain hargs hparts b hb
    rw [Step.reads, Bool.eq_false_iff]
    intro hmentions
    obtain ⟨n, hle, -, heq⟩ := openExtractor_reads hunapply hopen part hpart x hmentions
    exact hbinds a (List.mem_append_right _ ha) x hx n hle heq

end

theorem Gives.passes (hm : m.Local) {compiled : CompiledPattern}
    (h : Gives names compiled.steps st (some ()) fun _ _ _ => True) (hcapture : NoCapture compiled.steps)
    (hdistinct : Distinct compiled.steps) (used : String → Bool) :
    ∃ l, runSteps (compiled.kept used) st = .passed ⟨l, st.store⟩ := by
  obtain ⟨hquiet, l, bound, hrun, -⟩ := h
  have hfollows : Follows used [] (runSteps (compiled.kept used) st) (runApart compiled.steps st) :=
    runSteps_beside hm hquiet hcapture hdistinct
  rw [hrun] at hfollows
  obtain ⟨⟨l', store⟩, hrun', hbeside⟩ := hfollows
  obtain rfl : store = st.store := hbeside.store
  exact ⟨l', hrun'⟩

theorem covering_passes (hrt : rt.Lawful env) (hcall : extractorCall? env p.val = some call)
    (hargs : ∀ arg ∈ call.args, isPlain env arg = true)
    (hunapply : ∀ head, env.type? call.head = some head → (head.method? "Unapply").isSome = true)
    (hty : ty.isWrapper = false)
    (haccepts : ∀ e, resolve env ⟨call, ty, p.span⟩ = .ok e → (rt.components ⟨call, ty, p.span⟩ v e).isSome = true) :
    Passes rt env p ty v := by
  intro subject names names' compiled h hbindings st hsubject used
  have hdistinct := compile_distinct h hbindings
  obtain ⟨s', hs', hsteps, hbound, -⟩ := compile_ok h
  have hlisted := ((compileInto_emits env p subject ty fun _ _ => trivial).ok hs' : Leads _ _).listed ⟨rfl, .nil⟩
  have hadded : added ⟨names, [], []⟩ s' = compiled.steps := hsteps
  rw [compileInto_call hcall, Ty.unwrap_eq hty] at hs'
  have hgives := plainCall_gives ⟨call, ty, p.span⟩ hrt hargs hs' hsubject haccepts
  have hcapture := plainCall_noCapture ⟨call, ty, p.span⟩ hargs hunapply hs' fun step hstep x hx => by
    have hmem : x ∈ s'.steps.flatMap Step.binds := List.mem_flatMap.mpr ⟨step, hsteps ▸ hadded ▸ hstep, hx⟩
    rw [hlisted.1, hbound] at hmem
    obtain ⟨b, hb, rfl⟩ := List.mem_map.mp hmem
    exact hbindings b hb
  rw [hadded] at hgives hcapture
  exact hgives.passes hrt.isLocal hcapture hdistinct used

theorem literal_passes (hrt : rt.Lawful env) (hp : p.val = .literal (.bool b)) (hty : ty.isWrapper = false) :
    Passes rt env p ty (m.bool b) := by
  obtain ⟨p, span⟩ := p
  cases hp
  intro subject names names' compiled h hbindings st hsubject used
  obtain ⟨s', hs', hsteps, -, -⟩ := compile_ok h
  simp only [compileInto] at hs'
  have hadded : compiled.steps = _ := hsteps.symm.trans (emit_ok hs').2
  have hcapture : NoCapture compiled.steps := by
    rw [hadded]
    exact List.pairwise_singleton _ _
  have hruns := compile_runs hrt h (by simp [unwrapped, hty]) hbindings hcapture hsubject used
  have hmatch : rt.matchValue env ⟨.literal (.bool b), span⟩ ty (m.bool b) = some [] := by
    simp [Runtime.matchValue, look_bind hty, literal_bool hrt.toEvaluates st, hrt.equal_bool]
  rw [hmatch] at hruns
  obtain ⟨l, hrun, -⟩ := hruns
  exact ⟨l, hrun⟩

/-! ## What coverage says -/

theorem coversBool_true (h : coversBool b c = true) : c.guard = none ∧ c.pattern.val = .literal (.bool b) := by
  simp only [coversBool, Bool.and_eq_true, Option.isNone_iff_eq_none] at h
  refine ⟨h.1, ?_⟩
  have hpattern := h.2
  split at hpattern
  · rename_i v hv
    rw [hv, eq_of_beq hpattern]
  · cases hpattern

theorem coveredVariant?_some {e : TypeEntry} {variant : String} (h : coveredVariant? env e c = some variant) :
    c.guard = none ∧ ∃ call, extractorCall? env c.pattern.val = some call ∧ namesVariant env e call.head = true ∧
      (∀ arg ∈ call.args, arg.val.isIrrefutable = true) ∧ Text.bareName call.head = variant := by
  unfold coveredVariant? at h
  split at h
  · cases h
  · rename_i hguard
    obtain ⟨call, hcall, h1⟩ := Option.bind_eq_some_iff.mp h
    obtain ⟨head, hhead, h2⟩ := Option.bind_eq_some_iff.mp h1
    split at h2
    · rename_i hcovers
      cases h2
      simp only [Bool.and_eq_true, List.all_eq_true] at hcovers
      refine ⟨by simpa using hguard, call, hcall, ?_, hcovers.2, rfl⟩
      simp only [namesVariant, hhead, Option.any_some, hcovers.1.1, hcovers.1.2, Bool.and_self]
    · cases h2

def plainArgs (env : Env) (c : Clause) : Bool :=
  (extractorCall? env c.pattern.val).all fun call => call.args.all fun p => (extractorCall? env p.val).isNone

/-- A variant that counts as covered is covered by a clause without a companion's name among the
    arguments. -/
def PlainlyCovered (env : Env) (clauses : List Clause) : Prop :=
  ∀ e variant, (∃ c ∈ clauses, coveredVariant? env e c = some variant) →
    ∃ c ∈ clauses, coveredVariant? env e c = some variant ∧ plainArgs env c = true

theorem checkCoverage_closed (h : checkCoverage env clauses ty span = .ok coverage)
    (hdefault : coverage.default = none) : missingShapes env clauses ty = some [] := by
  obtain ⟨default, -, h1⟩ := checked_bind_ok h
  dsimp only at h1
  split at h1
  · split at h1
    · assumption
    · cases h1
    · cases h1
  · rename_i hsome
    cases h1
    exact absurd (by simp [show default = none from hdefault]) hsome

/-- Every value of a closed type that was accepted without a default has an unguarded clause whose
    pattern passes on it. -/
theorem exists_passing (hrt : rt.Lawful env) (h : checkCoverage env clauses ty span = .ok coverage)
    (hdefault : coverage.default = none) (hplain : PlainlyCovered env clauses) (hty : ty.isWrapper = false)
    (hhas : rt.Has v ty) (hbuilt : rt.IsBuilt env ty v) :
    ∃ c ∈ clauses, c.guard = none ∧ Passes rt env c.pattern ty v := by
  have hmissing := checkCoverage_closed h hdefault
  unfold missingShapes at hmissing
  dsimp only at hmissing
  split at hmissing
  · rename_i hbool
    obtain ⟨b, rfl⟩ := hrt.bool hhas (by rw [hbool, Bool.or_true])
    have hany : clauses.any (coversBool b) = true := by
      simp only [Option.some.injEq, List.map_eq_nil_iff, List.filter_eq_nil_iff] at hmissing
      cases b with
      | true => simpa using hmissing (true, "true") (by simp)
      | false => simpa using hmissing (false, "false") (by simp)
    obtain ⟨c, hc, hcovers⟩ := List.any_eq_true.mp hany
    obtain ⟨hguard, hpattern⟩ := coversBool_true hcovers
    exact ⟨c, hc, hguard, literal_passes hrt hpattern hty⟩
  · obtain ⟨e, he, hcovered⟩ := Option.bind_eq_some_iff.mp hmissing
    obtain ⟨hentry, hsealed⟩ := Option.filter_eq_some_iff.mp he
    obtain ⟨variant, hvariant⟩ := hbuilt e hentry hsealed
    have hmem : ∃ c ∈ clauses, coveredVariant? env e c = some variant := by
      simp only [Option.some.injEq, List.filter_eq_nil_iff] at hcovered
      simpa using hcovered variant hvariant.mem
    obtain ⟨c, hc, hcovers, hargs⟩ := hplain e variant hmem
    obtain ⟨hguard, call, hcall, hnames, hirrefutable, hbare⟩ := coveredVariant?_some hcovers
    refine ⟨c, hc, hguard, covering_passes hrt hcall (fun arg harg => ?_) (hvariant.unapply call.head · hnames) hty
      fun extraction => hvariant.accepts ⟨call, ty, c.pattern.span⟩ extraction rfl hnames hbare⟩
    simp only [plainArgs, hcall, Option.all_some, List.all_eq_true] at hargs
    rw [isPlain, hirrefutable arg harg, hargs arg harg, Bool.and_self]

end Lowering.Match
