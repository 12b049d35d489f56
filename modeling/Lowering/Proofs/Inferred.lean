/-
  Inferred — inference stays within a rule.

  - `Rule.Formed.compileInto`: the bindings of a pattern are allowed, and so is everything that its
    steps evaluate.
  - `Rule.Closed.typeOf`: so is the type of an expression, in a scope that is allowed.
-/

import Lowering.Proofs.Resolved

namespace Lowering

open Source (Expr Stmt Pattern Arg Clause)

variable {R : Rule} {env : Env}

/-! ## Compiling patterns -/

namespace Rule

open Match (CompileState)

def Step (R : Rule) : Match.Step → Prop
  | .define _ value | .bind _ value | .check value | .touch value => value.Every R.node
  | .assert _ _ ok value ty => value.Every R.node ∧ R.ty ty ∧ (Target.Expr.ident ok).Every R.node

structure Compiled (R : Rule) (steps : List Match.Step) (bindings : List (String × Ty)) : Prop where
  steps : ∀ step ∈ steps, R.Step step
  bindings : ∀ b ∈ bindings, R.name b.1 ∧ R.Result b.2

structure Compiles (R : Rule) (s : CompileState) : Prop extends R.Compiled s.steps s.bindings where
  stem : R.stem s.names.stem

def Compiling {α : Type} (R : Rule) (Q : α → Prop) (act : Match.Compile α) : Prop :=
  ∀ s a s', R.Compiles s → act s = .ok a s' → R.Compiles s' ∧ Q a

namespace Compiling

variable {α β : Type} {Q : α → Prop}

theorem pure {a : α} (h : Q a) : R.Compiling Q (Pure.pure a : Match.Compile α) := by
  intro s b s' hs hrun
  obtain ⟨rfl, rfl⟩ := pure_ok hrun
  exact ⟨hs, h⟩

theorem fail {fault : Fault} {span : Span} : R.Compiling Q (Match.Compile.fail fault span) := nofun

theorem bind {P : β → Prop} {x : Match.Compile β} {f : β → Match.Compile α} (hx : R.Compiling P x)
    (hf : ∀ b, P b → R.Compiling Q (f b)) : R.Compiling Q (x >>= f) := by
  intro s a s' hs hrun
  obtain ⟨b, s1, hb, hrun⟩ := bind_ok hrun
  obtain ⟨hs1, hP⟩ := hx s b s1 hs hb
  exact hf b hP s1 a s' hs1 hrun

theorem ite {c : Prop} [Decidable c] {x y : Match.Compile α} (hx : R.Compiling Q x) (hy : R.Compiling Q y) :
    R.Compiling Q (if c then x else y) := by
  split
  · exact hx
  · exact hy

theorem ofChecked {c : Checked α} (h : ∀ a, c = .ok a → Q a) : R.Compiling Q (Match.Compile.ofChecked c) := by
  cases c with
  | error d => exact nofun
  | ok a => exact .pure (h a rfl)

theorem emit {step : Match.Step} (h : R.Step step) : R.Compiling (fun _ => True) (Match.Compile.emit step) := by
  intro s a s' hs hrun
  cases hrun
  exact ⟨⟨⟨List.forall_mem_append.mpr ⟨hs.steps, by simpa using h⟩, hs.bindings⟩, hs.stem⟩, trivial⟩

theorem fresh (hp : R.Naming env) : R.Compiling (fun x => (Target.Expr.ident x).Every R.node) Match.Compile.fresh := by
  intro s x s' hs hrun
  cases hrun
  exact ⟨⟨⟨hs.steps, hs.bindings⟩, hs.stem⟩, hp.written (hp.madeName hs.stem _)⟩

variable {name : String} {ty : Ty} {value : Target.Expr}

theorem bindName (hn : R.name name) (hty : R.Result ty) :
    R.Compiling (fun _ => True) (Match.Compile.bindName name ty span) := by
  intro s a s' hs hrun
  rw [Match.Compile.bindName_final] at hrun
  split at hrun
  · cases hrun
  · cases hrun
    exact ⟨⟨⟨hs.steps, List.forall_mem_append.mpr ⟨hs.bindings, by simpa using ⟨hn, hty⟩⟩⟩, hs.stem⟩, trivial⟩

theorem bindValue (hn : R.name name) (hv : value.Every R.node) (hty : R.Result ty) :
    R.Compiling (fun _ => True) (Match.Compile.bindValue name value ty span) :=
  .bind (bindName hn hty) fun _ _ => emit hv

theorem downcast (hp : R.Naming env) {subject : Target.Expr} (hs : subject.Every R.node) (hty : R.ty ty) :
    R.Compiling (·.Every R.node) (Match.Compile.downcast subject ty) :=
  .bind (fresh hp) fun _ htmp => .bind (fresh hp) fun _ hok => .bind (emit ⟨hs, hty, hok⟩) fun _ _ =>
    .bind (emit htmp) fun _ _ => .pure htmp

theorem hold (hp : R.Naming env) (hv : value.Every R.node) : R.Compiling (·.Every R.node) (Match.Compile.hold value) :=
  .bind (fresh hp) fun _ htmp => .bind (emit hv) fun _ _ => .pure htmp

end Compiling

def Part (R : Rule) : Match.Part → Prop
  | .value read ty | .suffix read ty => read.Every R.node ∧ R.Result ty

abbrev Opens (R : Rule) (act : Match.Compile (List Match.Part)) : Prop :=
  R.Compiling (fun parts => ∀ p ∈ parts, R.Part p) act

theorem tupleParts (hp : R.Plain) {subject : Target.Expr} (hs : subject.Every R.node) {types : List Ty}
    (ht : ∀ t ∈ types, R.ty t) : ∀ p ∈ Match.tupleParts subject types, R.Part p := by
  intro p hmem
  obtain ⟨i, hi, rfl⟩ := List.mem_mapIdx.mp hmem
  exact ⟨hp.selector hs, .inr (ht _ (List.getElem_mem hi))⟩

end Rule

namespace Rule.Formed

open Match (compileInto compileParts)

variable {subject : Target.Expr} {head ty : Ty} {p : Located Pattern}

section

variable (hp : R.Naming env) (hs : subject.Every R.node)
include hp hs

theorem openUnapply {companion param : Ty} (hc : R.Headed companion) (hparam : R.ty param)
    {shape : Match.UnapplyShape} (hshape : R.Shape shape) (site : Match.Site) :
    R.Opens (Match.openUnapply companion param shape site subject) := by
  unfold Match.openUnapply
  extract_lets rest
  have hrest : ∀ subject : Target.Expr, subject.Every R.node → R.Opens (rest subject) := by
    intro subject hs
    have hcall : (Target.Expr.method (.zero companion) "Unapply" [subject]).Every R.node :=
      hp.method (hp.zero hc) (by simpa using hs)
    cases shape with
    | bool => exact .bind (.emit hcall) fun _ _ => .pure (by simp)
    | option payload expand =>
      refine .bind (.hold hp hcall) fun option ho => ?_
      have hget : (Target.Expr.method option "Get" []).Every R.node := hp.method ho (by simp)
      have hdefined : (Target.Expr.method option "IsDefined" []).Every R.node := hp.method ho (by simp)
      refine .bind (.emit hdefined) fun _ _ => ?_
      cases expand with
      | some types => exact .pure (tupleParts hp.toPlain hget (hshape.2 types rfl))
      | none => exact .pure (List.forall_mem_singleton.mpr ⟨hget, .inr hshape.1⟩)
  exact .ite (.bind (.downcast hp hs hparam) hrest) (hrest subject hs)

theorem openStructural (hhead : R.ty head) {fields : List Match.FieldRead} (hf : ∀ f ∈ fields, R.ty f.ty) (cast : Bool) :
    R.Opens (Match.openStructural head fields cast subject) := by
  have hparts : ∀ base : Target.Expr, base.Every R.node → ∀ p ∈ fields.map (Match.fieldPart base), R.Part p := by
    intro base hbase p hmem
    obtain ⟨f, hf', rfl⟩ := List.mem_map.mp hmem
    have hread : (Target.Expr.selector base f.name).Every R.node := hp.selector hbase
    refine ⟨?_, .inr (hf f hf')⟩
    split
    · exact hp.method hread (by simp)
    · exact hread
  exact .ite (.bind (.downcast hp hs hhead) fun base hbase => .pure (hparts base hbase)) (.pure (hparts subject hs))

theorem openSequence {seq elem : Ty} (hseq : R.ty seq) (helem : R.Result elem) (rest : Option Nat) :
    R.Opens (Match.openSequence seq elem rest arity subject) := by
  unfold Match.openSequence
  extract_lets op check
  have hcheck : ∀ base : Target.Expr, base.Every R.node → R.Opens (check base) := by
    intro base hbase
    have hsize : (Target.Expr.binary op (.method base "Size" []) (.nat (rest.getD arity))).Every R.node :=
      hp.binary (hp.method hbase (by simp)) hp.lit
    refine .bind (.emit hsize) fun _ _ => .pure fun p hmem => ?_
    obtain ⟨i, -, rfl⟩ := List.mem_map.mp hmem
    have hread : ∀ name, (Target.Expr.method base name [.nat i]).Every R.node := fun name =>
      hp.method hbase (by simpa using hp.nat i)
    unfold Match.sequencePart
    split
    · exact ⟨hread _, .inr hseq⟩
    · exact ⟨hread _, helem⟩
  exact .ite (hcheck subject hs) (.bind (.hold hp hs) hcheck)

theorem openReflective (h : R.Formed env) (hhead : R.Headed head) :
    R.Opens (Match.openReflective env.runtime head arity subject) := by
  have hcall : ∀ name ∈ runtimeFunctions,
      (Target.Expr.apply (.qualified env.runtime name) [subject, .zero head]).Every R.node :=
    fun name hname => hp.apply (hp.qualified (hp.runtimeName hname)) (by simpa using ⟨hs, hp.zero hhead⟩)
  refine .ite (.bind (.emit (hcall _ (by decide))) fun _ _ => .pure (by simp))
    (.bind (.hold hp (hcall _ (by decide))) fun vals hvals => ?_)
  refine .bind (.emit ?_) fun _ _ => .pure fun p hmem => ?_
  · exact hp.binary (hp.binary hvals hp.nil)
      (hp.binary (hp.apply (hp.written (hp.builtinName (.inl (by decide)))) (by simpa using hvals)) hp.lit)
  · obtain ⟨i, -, rfl⟩ := List.mem_map.mp hmem
    exact ⟨hp.index hvals hp.lit, .inr h.any⟩

theorem openExtractor (h : R.Formed env) {site : Match.Site} (hsite : R.Site site) :
    R.Opens (Match.openExtractor env site subject) := by
  refine .bind (.ofChecked fun x hx => h.resolve hsite hx) fun x hx => ?_
  cases x with
  | unapply companion param shape => exact openUnapply hp hs hx.1 hx.2.1 hx.2.2 site
  | structural head fields cast => exact openStructural hp hs hx.1 hx.2 cast
  | sequence seq elem rest => exact openSequence hp hs hx.1 hx.2 rest
  | reflective head => exact h.openReflective hp hs hx

theorem openTuple (h : R.Formed env) {elems : List (Located Pattern)} (hty : R.Result ty) :
    R.Opens (Match.openTuple env elems span subject ty) := by
  have hexpand := h.expand_result hty
  unfold Match.openTuple
  extract_lets arity settings expanded parts partsUnlessRest
  have hparts : R.Opens (parts ()) := by
    dsimp only [parts]
    split
    · exact .ite (.pure (tupleParts hp.toPlain hs (h.args_result hexpand))) (.fail)
    · exact .fail
  have hrest : R.Opens (partsUnlessRest ()) :=
    .ite (.bind (.fail (Q := fun _ => True)) fun _ _ => hparts) hparts
  exact .ite (.bind (.fail (Q := fun _ => True)) fun _ _ => hrest) hrest

theorem literalTest {value : Literal} : (Match.literalTest value subject ty).Every R.node := by
  unfold Match.literalTest
  split
  · exact hs
  · exact hp.unary hs
  · exact hp.binary hs hp.lit

theorem typedPattern {name : String} {wanted : Ty} (hn : R.name name) (hw : R.ty wanted) (hty : R.Result ty) :
    R.Compiling (fun _ => True) (Match.typedPattern name wanted span subject ty) := by
  have hassert : ∀ bound, R.Compiling (fun _ => True) (do
      let ok ← Match.Compile.fresh
      Match.Compile.emit (.assert bound true ok subject wanted)) := fun bound =>
    .bind (.fresh hp) fun _ hok => .emit ⟨hs, hw, hok⟩
  exact .ite (.ite (.bindValue hn hs hty) (.pure trivial))
    (.ite (hassert none) (.bind (.bindName hn (.inr hw)) fun _ _ => hassert (some name)))

end

theorem bindSuffix (hitems : R.Permits p.val.items) {read : Target.Expr} (hr : read.Every R.node) (hty : R.Result ty) :
    R.Compiling (fun _ => True) (Match.bindSuffix p read ty) := by
  unfold Match.bindSuffix
  split
  · rename_i name hpattern
    rw [hpattern] at hitems
    exact .bindValue (hitems (.binder name) (by simp [Pattern.items])) hr hty
  · exact .pure trivial

mutual

theorem compileInto (h : R.Formed env) (hp : R.Naming env) :
    ∀ (p : Located Pattern) (subject : Target.Expr) (ty : Ty),
    R.Permits p.val.items → subject.Every R.node → R.Result ty →
    R.Compiling (fun _ => True) (Match.compileInto env p subject ty)
  | ⟨.wildcard, _⟩, _, _, _, _, _ => by
    simp only [Match.compileInto]
    exact .pure trivial
  | ⟨.ident name, span⟩, subject, ty, hitems, hs, hty => by
    simp only [Match.compileInto]
    refine .ite ?_ (.bindValue (hitems _ (.head _)) hs (h.unwrap_result hty))
    exact .bind (h.openExtractor hp hs ⟨h.unwrap_result hty, by simp⟩) fun _ _ => .pure trivial
  | ⟨.literal value, _⟩, subject, ty, _, hs, _ => by
    simp only [Match.compileInto]
    exact .emit (literalTest hp hs)
  | ⟨.typed name wanted, span⟩, subject, ty, hitems, hs, hty => by
    simp only [Match.compileInto]
    exact typedPattern hp hs (hitems _ (.head _)) (hitems _ (.tail _ (.head _))) (h.unwrap_result hty)
  | ⟨.extractor head typeArgs args, span⟩, subject, ty, hitems, hs, hty => by
    obtain ⟨htypeArgs, hargs⟩ := permits_append.mp hitems
    simp only [Match.compileInto]
    exact .bind (h.openExtractor hp hs ⟨h.unwrap_result hty, permits_tys.mp htypeArgs⟩) fun parts hparts =>
      compileParts h hp args parts hargs hparts
  | ⟨.tuple elems, span⟩, subject, ty, hitems, hs, hty => by
    simp only [Match.compileInto]
    exact .bind (h.openTuple hp hs (h.unwrap_result hty)) fun parts hparts =>
      compileParts h hp elems parts hitems hparts
  | ⟨.rest _, span⟩, _, _, _, _, _ => by
    simp only [Match.compileInto]
    exact .fail

theorem compileParts (h : R.Formed env) (hp : R.Naming env) :
    ∀ (ps : List (Located Pattern)) (parts : List Match.Part),
    R.Permits (Pattern.itemsOf ps) → (∀ p ∈ parts, R.Part p) →
    R.Compiling (fun _ => True) (Match.compileParts env ps parts)
  | [], _, _, _ | _ :: _, [], _, _ => by
    simp only [Match.compileParts]
    exact .pure trivial
  | p :: ps, .value read ty :: parts, hitems, hparts => by
    obtain ⟨hread, hty⟩ := hparts _ (.head _)
    obtain ⟨hpattern, hrest⟩ := permits_append.mp hitems
    simp only [Match.compileParts]
    exact .bind (compileInto h hp p read ty hpattern hread hty) fun _ _ =>
      compileParts h hp ps parts hrest fun q hq => hparts q (.tail _ hq)
  | p :: ps, .suffix read ty :: parts, hitems, hparts => by
    obtain ⟨hread, hty⟩ := hparts _ (.head _)
    obtain ⟨hpattern, hrest⟩ := permits_append.mp hitems
    simp only [Match.compileParts]
    exact .bind (bindSuffix hpattern hread hty) fun _ _ =>
      compileParts h hp ps parts hrest fun q hq => hparts q (.tail _ hq)

end

theorem compile (h : R.Formed env) (hp : R.Naming env) (hitems : R.Permits p.val.items) (hs : subject.Every R.node)
    (hty : R.Result ty) {names : NameSupply} (hnames : R.stem names.stem) {compiled : Match.CompiledPattern}
    (hc : (Match.compile env p subject ty names).1 = .ok compiled) : R.Compiled compiled.steps compiled.bindings := by
  have hstart : R.Compiles ⟨names, [], []⟩ := ⟨⟨by simp, by simp⟩, hnames⟩
  unfold Match.compile at hc
  split at hc
  · rename_i s' hrun
    cases hc
    exact (h.compileInto hp p subject ty hitems hs hty _ _ s' hstart hrun).1.toCompiled
  · cases hc

end Rule.Formed

/-! ## Scopes -/

def Rule.bare (R : Rule) : Rule :=
  { R with stem := fun _ => True, ident := fun _ => True, emitted := fun _ => True, node := fun _ => True }

namespace Rule.Closed

theorem bare (h : R.Closed env) : R.bare.Closed env where
  builtin := h.builtin
  any := h.any
  nil := h.nil
  void := h.void
  args := h.args
  array := h.array
  pointer := h.pointer
  map := h.map
  func := h.func
  tuple := h.tuple
  built := h.built
  subst := h.subst
  entry hn := ⟨(h.entry hn).typeParams, (h.entry hn).fieldTypes, fun name m hm =>
    ⟨((h.entry hn).methods name m hm).typeParams, ((h.entry hn).methods name m hm).params,
      ((h.entry hn).methods name m hm).result⟩⟩
  function hn hf := ⟨(h.function hn hf).typeParams, (h.function hn hf).params, (h.function hn hf).result⟩
  expansion := h.expansion
  headed := h.headed

theorem bindingTypes (h : R.Closed env) {p : Located Pattern} (hitems : R.Permits p.val.items) {ty : Ty}
    (hty : R.ty ty) : ∀ b ∈ Match.bindingTypes env p ty, R.name b.1 ∧ R.Result b.2 := by
  unfold Match.bindingTypes
  split
  · rename_i compiled hc
    have hitems' : R.bare.Permits p.val.items := by
      intro i hi
      have := hitems i hi
      cases i <;> exact this
    have hnaming : R.bare.Naming env := { emitted := fun _ => trivial, plain := fun _ _ _ _ _ => trivial }
    exact (h.bare.compile hnaming hitems' (fun _ _ => trivial) (.inr hty) trivial hc).bindings
  · simp

end Rule.Closed

namespace Rule.Formed

theorem binding (h : R.Formed env) {x : String} (hx : R.name x) {mutability : Mutability} {ty : Ty} (hty : R.ty ty) :
    R.Binding x ⟨mutability, ty⟩ := ⟨hx, .inr (h.unwrap hty), fun _ => hty⟩

variable {scope : Lowering.Scope}

theorem scope_bindAll (h : R.Formed env) (hscope : R.Scope scope) {bindings : List (String × Ty)}
    (hb : ∀ b ∈ bindings, R.name b.1 ∧ R.Result b.2) : R.Scope (scope.bindAll bindings) :=
  List.foldlRecOn _ _ hscope fun _ hs b hmem =>
    hs.bind ⟨(hb b hmem).1, h.unwrap_result (hb b hmem).2, nofun⟩

theorem selectType (h : R.Formed env) {typeParams : List String} {target : Located Expr} {member : String}
    (hitems : R.Permits (Source.memberItems target member)) {targetType : Unit → Ty}
    (ht : packageOf? env scope target.val = none → R.Known (targetType ())) :
    R.Known ((⟨env, typeParams⟩ : Inference).selectType scope target.val member targetType) := by
  unfold Inference.selectType
  split
  · exact h.namedFunctionType (mention_member (by assumption) hitems)
  · exact h.memberType (h.unwrap_known (ht (by assumption)))

theorem literalType (h : R.Formed env) {value : Literal} : R.ty ((literalType? (.lit value)).getD .nil) := by
  cases value <;> exact h.builtin _ (by decide)

end Rule.Formed

namespace Rule.Closed

variable {scope : Lowering.Scope} {expected : List Ty} {params : List Source.LambdaParam} {e : Located Expr}

section

variable (h : R.Closed env)
include h

theorem clauseScope (hscope : R.Scope scope) {p : Located Pattern} (hitems : R.Permits p.val.items) {subject : Ty}
    (hs : R.ty subject) : R.Scope ((⟨env, typeParams⟩ : Inference).clauseScope scope subject p) :=
  h.scope_bindAll hscope.enter (h.bindingTypes hitems hs)

/-! ## Expressions -/

theorem matchResult {declared : Option Ty} (hd : ∀ t ∈ declared, R.ty t) {types : List Ty} (ht : ∀ t ∈ types, R.ty t) :
    R.ty ((⟨env, typeParams⟩ : Inference).matchResult declared types) := by
  unfold Inference.matchResult
  split
  · exact h.void
  · cases hr : Match.reference? typeParams declared types with
    | none => exact h.any
    | some t =>
      unfold Match.reference? at hr
      simp only [Option.orElse_eq_orElse, Option.orElse_eq_or, Option.or_eq_some_iff] at hr
      rcases hr with hr | ⟨-, hr⟩
      · exact hd t (Option.filter_eq_some_iff.mp hr).1
      · exact ht t (List.mem_of_find?_eq_some hr)

variable (hparams : ∀ p ∈ params, R.name p.name ∧ ∀ t ∈ p.ty, R.ty t) (he : ∀ t ∈ expected, R.ty t)
include hparams he

theorem lambdaParamTypes : ∀ t ∈ Inference.lambdaParamTypes params expected, R.ty t := by
  intro t ht
  obtain ⟨i, hi, rfl⟩ := List.mem_mapIdx.mp ht
  have hann := (hparams _ (List.getElem_mem hi)).2
  cases hty : params[i].ty with
  | some ty => exact hann ty hty
  | none =>
    cases hexp : expected[i]? with
    | some ty => exact he ty (List.mem_of_getElem? hexp)
    | none => exact h.nil

theorem lambdaScope (hscope : R.Scope scope) :
    R.Scope (scope.enter.bindAll ((params.map (·.name)).zip (Inference.lambdaParamTypes params expected))) := by
  refine h.scope_bindAll hscope.enter fun b hb => ?_
  have hmem := List.of_mem_zip hb
  obtain ⟨p, hp, hname⟩ := List.mem_map.mp hmem.1
  exact ⟨hname ▸ (hparams p hp).1, .inr (h.lambdaParamTypes hparams he _ hmem.2)⟩

theorem lambdaOf (hscope : R.Scope scope) {body : Lowering.Scope → Ty}
    (hbody : ∀ scope, R.Scope scope → R.ty (body scope)) : R.ty (Inference.lambdaOf params expected scope body) :=
  h.func.mpr ⟨h.lambdaParamTypes hparams he, (Result.of_ty (hbody _ (h.lambdaScope hparams he hscope))).results⟩

end

theorem argTyping {e : Expr} {plain : Unit → Ty} {lambda : List Ty → Ty} (hp : R.ty (plain ()))
    (hl : ∀ expected, (∀ t ∈ expected, R.ty t) → R.ty (lambda expected)) :
    R.Typing (Inference.argTyping e plain lambda) := by
  unfold Inference.argTyping
  split
  · exact hl
  · trivial
  · exact hp

/-- What is typed where inference stays within the rule, and the scope and the items are allowed. -/
structure Within (R : Rule) (env : Env) (scope : Lowering.Scope) (items : List Source.Item) : Prop where
  closed : R.Closed env
  scope : R.Scope scope
  items : R.Permits items

section

variable {items items' : List Source.Item}

theorem Within.left (hs : Within R env scope (items ++ items')) : Within R env scope items :=
  { hs with items := (permits_append.mp hs.items).1 }

theorem Within.right (hs : Within R env scope (items ++ items')) : Within R env scope items' :=
  { hs with items := (permits_append.mp hs.items).2 }

end

variable (typeParams : List String)

mutual

theorem typeOf : ∀ (e : Located Expr) {scope}, Within R env scope e.val.items →
    R.ty ((⟨env, typeParams⟩ : Inference).typeOf scope e)
  | ⟨.lit value, _⟩, scope, hs => by
    simp only [Inference.typeOf]
    exact hs.closed.literalType
  | ⟨.nil, _⟩, _, hs | ⟨.caseFunction _, _⟩, _, hs => by
    simp only [Inference.typeOf]
    exact hs.closed.nil
  | ⟨.ident name, _⟩, scope, hs => by
    simp only [Inference.typeOf]
    exact hs.closed.ty_of_known (hs.closed.identType (fun b hb => (hs.scope name b hb).ty) (hs.items _ (.head _)))
  | ⟨.call callee typeArgs args, _⟩, scope, hs => by
    have h := hs.closed
    have hcallee := hs.left.right
    have hfinds := h.finds (argTypings args hs.right) (permits_tys.mp hs.left.left.items)
      (show ∀ t ∈ none, R.ty t by simp)
    simp only [Inference.typeOf]
    refine h.ty_of_known (h.callResult (h.calleeOf hs.scope hcallee.items ?_ ?_) hfinds)
    · exact targetTypeOf callee hcallee
    · exact typeOf callee hcallee
  | ⟨.select target member, _⟩, scope, hs => by
    have h := hs.closed
    simp only [Inference.typeOf]
    exact h.ty_of_known (h.selectType hs.left.items fun _ => .of_ty (typeOf target hs.right))
  | ⟨.index target index, _⟩, scope, hs => by
    have h := hs.closed
    simp only [Inference.typeOf]
    exact h.ty_of_known (h.elementType (.of_ty (typeOf target hs.left)))
  | ⟨.binary left op right, _⟩, scope, hs => by
    have hl := typeOf left hs.left
    have hr := typeOf right hs.right
    simp only [Inference.typeOf]
    split
    · exact hs.closed.builtin _ (by decide)
    · unfold Inference.arithmeticType
      split
      · exact hr
      · split
        · exact hr
        · exact hl
  | ⟨.unary op operand, _⟩, scope, hs => by
    have hoperand := typeOf operand hs
    simp only [Inference.typeOf]
    split
    · exact hs.closed.builtin _ (by decide)
    · exact hoperand
  | ⟨.lambda params body, _⟩, scope, hs => by
    simp only [Inference.typeOf]
    exact hs.closed.lambdaOf (permits_lambdaParams.mp hs.left.items) (by simp) hs.scope fun _ hscope =>
      typeOf body { hs.right with scope := hscope }
  | ⟨.ifElse cond thenBranch none, _⟩, _, hs => by
    simp only [Inference.typeOf]
    exact hs.closed.void
  | ⟨.ifElse cond thenBranch (some elseBranch), _⟩, scope, hs => by
    simp only [Inference.typeOf]
    split
    · exact typeOf elseBranch hs.right
    · exact typeOf thenBranch hs.left.right
  | ⟨.matchOn subject clauses, _⟩, scope, hs => by
    have hsubject := typeOf subject hs.left
    simp only [Inference.typeOf]
    exact hs.closed.matchResult (by simp) (clauseTypes clauses _ hsubject hs.right)
  | ⟨.tuple elems, _⟩, scope, hs => by
    simp only [Inference.typeOf]
    exact hs.closed.tuple (typesOf elems hs)
  | ⟨.block stmts, _⟩, scope, hs => by
    simp only [Inference.typeOf]
    exact stmtsType stmts .void hs.closed.void { hs with scope := hs.scope.enter }

theorem typesOf : ∀ (es : List (Located Expr)) {scope}, Within R env scope (Expr.itemsOf es) →
    ∀ t ∈ (⟨env, typeParams⟩ : Inference).typesOf scope es, R.ty t
  | [], _, _ => by simp [Inference.typesOf]
  | e :: es, scope, hs => by
    simp only [Inference.typesOf, List.forall_mem_cons]
    exact ⟨typeOf e hs.left, typesOf es hs.right⟩

theorem targetTypeOf : ∀ (e : Located Expr) {scope}, Within R env scope e.val.items →
    R.ty ((⟨env, typeParams⟩ : Inference).targetTypeOf scope e)
  | ⟨e, _⟩, scope, hs => by
    cases e with
    | select target member =>
      simp only [Inference.targetTypeOf]
      exact typeOf target hs.right
    | _ =>
      simp only [Inference.targetTypeOf]
      exact hs.closed.nil

theorem lambdaTypeOf : ∀ (e : Located Expr) {scope} (expected : List Ty), (∀ t ∈ expected, R.ty t) →
    Within R env scope e.val.items → R.ty ((⟨env, typeParams⟩ : Inference).lambdaTypeOf scope expected e)
  | ⟨e, _⟩, scope, expected, hexpected, hs => by
    cases e with
    | lambda params body =>
      simp only [Inference.lambdaTypeOf]
      exact hs.closed.lambdaOf (permits_lambdaParams.mp hs.left.items) hexpected hs.scope fun _ hscope =>
        typeOf body { hs.right with scope := hscope }
    | _ =>
      simp only [Inference.lambdaTypeOf]
      exact hs.closed.nil

theorem argTypings : ∀ (args : List Arg) {scope}, Within R env scope (Arg.itemsOf args) →
    Typings R ((⟨env, typeParams⟩ : Inference).argTypings scope args)
  | [], _, _ => by simp [Inference.argTypings, Typings]
  | ⟨name, value⟩ :: args, scope, hs => by
    simp only [Inference.argTypings, Typings, List.forall_mem_cons]
    exact ⟨argTyping (typeOf value hs.left) fun expected hexpected => lambdaTypeOf value expected hexpected hs.left,
      argTypings args hs.right⟩

theorem clauseTypes : ∀ (cs : List Clause) {scope} (subject : Ty), R.ty subject →
    Within R env scope (Clause.itemsOf cs) → ∀ t ∈ (⟨env, typeParams⟩ : Inference).clauseTypes scope subject cs, R.ty t
  | [], _, _, _, _ => by simp [Inference.clauseTypes]
  | ⟨pattern, guard, body⟩ :: cs, scope, subject, hsubject, hs => by
    obtain ⟨hpattern, hbody⟩ := permits_clause hs.left.items
    simp only [Inference.clauseTypes, Inference.clauseType, List.forall_mem_cons]
    exact ⟨typeOf body ⟨hs.closed, hs.closed.clauseScope hs.scope hpattern hsubject, hbody⟩,
      clauseTypes cs subject hsubject hs.right⟩

theorem stmtsType : ∀ (ss : List (Located Stmt)) {scope} (last : Ty), R.ty last → Within R env scope (Stmt.itemsOf ss) →
    R.ty ((⟨env, typeParams⟩ : Inference).stmtsType scope last ss)
  | [], _, _, hlast, _ => by
    simp only [Inference.stmtsType]
    exact hlast
  | ⟨.val ⟨name, mutable, some ty, value⟩, _⟩ :: ss, scope, last, _, hs => by
    obtain ⟨hname, hrest⟩ := permits_cons.mp hs.left.items
    have hty : R.ty ty := hrest _ (.head _)
    simp only [Inference.stmtsType]
    exact stmtsType ss _ hs.closed.void { hs.right with scope := hs.scope.bind (hs.closed.binding hname hty) }
  | ⟨.val ⟨name, mutable, none, value⟩, _⟩ :: ss, scope, last, _, hs => by
    obtain ⟨hname, hvalue⟩ := permits_cons.mp hs.left.items
    have hty := typeOf value { hs with items := hvalue }
    simp only [Inference.stmtsType]
    exact stmtsType ss _ hs.closed.void { hs.right with scope := hs.scope.bind (hs.closed.binding hname hty) }
  | ⟨.expr e, _⟩ :: ss, scope, last, _, hs => by
    simp only [Inference.stmtsType]
    exact stmtsType ss _ (typeOf e hs.left) hs.right
  | ⟨.assign _ _ _, _⟩ :: ss, scope, last, _, hs
  | ⟨.ret _, _⟩ :: ss, scope, last, _, hs
  | ⟨.loop _ _, _⟩ :: ss, scope, last, _, hs => by
    simp only [Inference.stmtsType]
    exact stmtsType ss _ hs.closed.void hs.right

end

theorem argTypingOf (h : R.Closed env) (hscope : R.Scope scope)
    (hitems : R.Permits e.val.items) : R.Typing ((⟨env, typeParams⟩ : Inference).argTypingOf scope e) :=
  argTyping (typeOf typeParams e ⟨h, hscope, hitems⟩) fun expected hexpected =>
    lambdaTypeOf typeParams e expected hexpected ⟨h, hscope, hitems⟩

theorem callee (h : R.Closed env) (hscope : R.Scope scope) (hitems : R.Permits e.val.items) :
    R.Callee env ((⟨env, typeParams⟩ : Inference).callee scope e) :=
  h.calleeOf hscope hitems (targetTypeOf typeParams e ⟨h, hscope, hitems⟩) (typeOf typeParams e ⟨h, hscope, hitems⟩)

end Rule.Closed

end Lowering
