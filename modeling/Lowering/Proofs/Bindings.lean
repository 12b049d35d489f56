/-
  Bindings — what a pattern binds.

  Compiling a pattern reads the subject and takes temporaries from the supply, and the steps show both. What the
  pattern binds, and whether it is refused, shows neither: it is a function of the pattern and of the type of the
  subject (`bindInto`).
-/

import Lowering.Lower.Match

namespace Lowering.Match

open Source (Pattern)
open Target (Expr)

/-! ## Bindings alone -/

/-- What stands at one position of a subject, however it is read. -/
inductive Spot where
  | value (ty : Ty)
  | suffix (ty : Ty)

def Part.spot : Part → Spot
  | .value _ ty => .value ty
  | .suffix _ ty => .suffix ty

def Extraction.spots (arity : Nat) : Extraction → List Spot
  | .unapply _ _ .bool => []
  | .unapply _ _ (.option payload none) => [.value payload]
  | .unapply _ _ (.option _ (some types)) => types.map .value
  | .structural _ fields _ => fields.map fun f => .value f.ty
  | .sequence seq elem rest => (List.range arity).map fun i => if some i == rest then .suffix seq else .value elem
  | .reflective _ => (List.range arity).map fun _ => .value .any

def tupleTypes (env : Env) (elems : List (Located Pattern)) (span : Span) (ty : Ty) : Checked (List Ty) :=
  if elems.length < env.settings.leastArity || env.settings.mostArity < elems.length then
    (Fault.tuplePatternArity elems.length env.settings.leastArity env.settings.mostArity).raise span
  else if elems.any (·.val.isRest) then Fault.restInTuple.raise span
  else match (env.expand ty).tupleArity? with
    | some n => if n == elems.length then pure (env.expand ty).args else (Fault.tuplePatternLength elems.length n).raise span
    | none =>
      (if (env.expand ty).isAny || (env.expand ty).isNil then Fault.tuplePatternUnknown (env.expand ty)
        else .tuplePatternSubject (env.expand ty)).raise span

abbrev Naming := StateT (List (String × Ty)) Checked

def bindOnce (name : String) (ty : Ty) (span : Span) : Naming Unit := fun bindings =>
  if bindings.any (·.1 == name) then .error ⟨.boundTwice name, span⟩ else .ok ((), bindings ++ [(name, ty)])

def bindRest (p : Located Pattern) (ty : Ty) : Naming Unit :=
  match p.val with
  | .rest (some name) => bindOnce name ty p.span
  | _ => pure ()

mutual

/-- The bindings of a pattern against a subject of a type. -/
def bindInto (env : Env) : Located Pattern → Ty → Naming Unit
  | ⟨.wildcard, _⟩, _ => pure ()
  | ⟨.ident name, span⟩, ty =>
    if namesCompanion env name then do let _ ← resolve env ⟨⟨name, [], []⟩, ty.unwrap, span⟩
    else bindOnce name ty.unwrap span
  | ⟨.literal _, _⟩, _ => pure ()
  | ⟨.typed name wanted, span⟩, ty =>
    if name == "_" then pure () else bindOnce name (if wanted == ty.unwrap then ty.unwrap else wanted) span
  | ⟨.extractor head typeArgs args, span⟩, ty => do
    let extraction ← resolve env ⟨⟨head, typeArgs, args⟩, ty.unwrap, span⟩
    bindSpots env args (extraction.spots args.length)
  | ⟨.tuple elems, span⟩, ty => do
    let types ← tupleTypes env elems span ty.unwrap
    bindSpots env elems (types.map .value)
  | ⟨.rest _, span⟩, _ => throw ⟨.restOutsideSequence, span⟩

def bindSpots (env : Env) : List (Located Pattern) → List Spot → Naming Unit
  | [], _ => pure ()
  | p :: ps, spots =>
    match spots with
    | [] => pure ()
    | .value ty :: spots => do
      bindInto env p ty
      bindSpots env ps spots
    | .suffix ty :: spots => do
      bindRest p ty
      bindSpots env ps spots

end

/-! ## Compiling binds that -/

def outcome {α β : Type} (view : α → β) : EStateM.Result Diagnostic CompileState α → Checked (β × List (String × Ty))
  | .ok a s => .ok (view a, s.bindings)
  | .error d _ => .error d

/-- The action does that to the bindings, and gives that as far as it is seen, whatever steps and supply it starts with. -/
def Binds {α β : Type} (view : α → β) (x : Compile α) (f : Naming β) : Prop := ∀ s, outcome view (x s) = f s.bindings

namespace Binds

variable {α β γ δ : Type} {view : α → β} {x y : Compile α} {f g : Naming β}

theorem pure {a : α} : Binds view (Pure.pure a) (Pure.pure (view a)) := fun _ => rfl

theorem fail (fault : Fault) : Binds view (Compile.fail fault span) (throw ⟨fault, span⟩) := fun _ => rfl

theorem bind {view' : γ → δ} {k : α → Compile γ} {r : β → Naming δ} (hx : Binds view x f)
    (hk : ∀ a, Binds view' (k a) (r (view a))) : Binds view' (x >>= k) (f >>= r) := by
  intro s
  have hs := hx s
  show outcome view' (EStateM.bind x k s) = Except.bind (f s.bindings) fun out => r out.1 out.2
  unfold EStateM.bind
  cases hrun : x s with
  | ok a s1 =>
    rw [hrun] at hs
    rw [← hs]
    exact hk a s1
  | error d s1 =>
    rw [hrun] at hs
    rw [← hs]
    rfl

theorem ite {c : Prop} [Decidable c] (hx : Binds view x f) (hy : Binds view y g) :
    Binds view (if c then x else y) (if c then f else g) := by
  split
  · exact hx
  · exact hy

theorem ofChecked {c : Checked α} : Binds id (Compile.ofChecked c) (liftM c) := by
  intro s
  cases c <;> rfl

theorem after {z : Compile γ} {k : γ → Compile α} (hz : Binds (fun _ => ()) z (Pure.pure ()))
    (hk : ∀ c, Binds view (k c) f) : Binds view (z >>= k) f :=
  hz.bind (r := fun _ => f) hk

theorem emit (step : Step) : Binds (fun _ => ()) (Compile.emit step) (Pure.pure ()) := fun _ => rfl

theorem fresh : Binds (fun _ => ()) Compile.fresh (Pure.pure ()) := fun _ => rfl

theorem hold {value : Expr} : Binds (fun _ => ()) (Compile.hold value) (Pure.pure ()) := fun _ => rfl

theorem downcast (subject : Expr) : Binds (fun _ => ()) (Compile.downcast subject ty) (Pure.pure ()) :=
  fun _ => rfl

theorem bindName (name : String) (ty : Ty) (span : Span) :
    Binds id (Compile.bindName name ty span) (bindOnce name ty span) := by
  intro s
  simp only [Compile.bindName, bindOnce, get, getThe, MonadStateOf.get, Bind.bind, EStateM.bind]
  delta EStateM.get
  dsimp only
  split <;> rfl

theorem bindValue {name : String} {value : Expr} :
    Binds id (Compile.bindValue name value ty span) (bindOnce name ty span) := by
  have h := (bindName name ty span).bind (r := fun _ => Pure.pure ()) fun _ => emit (.bind name value)
  have hbound : (bindOnce name ty span >>= fun _ => Pure.pure ()) = bindOnce name ty span := bind_pure _
  rw [hbound] at h
  exact h

end Binds

abbrev Opens (x : Compile (List Part)) (f : Naming (List Spot)) : Prop := Binds (List.map Part.spot) x f

theorem map_spot_tupleParts {types : List Ty} : (tupleParts subject types).map Part.spot = types.map .value := by
  refine List.ext_getElem (by simp [tupleParts]) fun i _ _ => ?_
  simp [tupleParts, Part.spot]

theorem opens_of_spots {parts : List Part} {spots : List Spot} (h : parts.map Part.spot = spots) :
    Opens (pure parts) (pure spots) := by
  subst h
  exact .pure

theorem openUnapply_binds {companion param : Ty} {shape : UnapplyShape} {site : Site} :
    Opens (openUnapply companion param shape site subject)
      (pure ((Extraction.unapply companion param shape).spots site.arity)) := by
  unfold openUnapply
  extract_lets call
  have hcall : ∀ e, Opens (call e) (pure ((Extraction.unapply companion param shape).spots site.arity)) := by
    intro e
    cases shape with
    | bool => exact .after (.emit _) fun _ => .pure
    | option payload expand =>
      refine .after (.hold) fun _ => .after (.emit _) fun _ => ?_
      cases expand with
      | some types => exact opens_of_spots map_spot_tupleParts
      | none => exact opens_of_spots rfl
  split
  · exact .after (.downcast _) hcall
  · exact hcall subject

theorem openStructural_binds {fields : List FieldRead} (cast : Bool) :
    Opens (openStructural head fields cast subject) (pure ((Extraction.structural head fields cast).spots arity)) := by
  have hparts : ∀ base, Opens (pure (fields.map (fieldPart base))) (pure (fields.map fun f => .value f.ty)) := fun base =>
    opens_of_spots (by rw [List.map_map]; rfl)
  unfold openStructural
  split
  · exact .after (.downcast _) hparts
  · exact hparts subject

theorem openSequence_binds (seq elem : Ty) (rest : Option Nat) :
    Opens (openSequence seq elem rest arity subject) (pure ((Extraction.sequence seq elem rest).spots arity)) := by
  unfold openSequence
  extract_lets op check
  have hcheck : ∀ base, Opens (check base) (pure ((Extraction.sequence seq elem rest).spots arity)) := by
    refine fun base => .after (.emit _) fun _ => opens_of_spots ?_
    rw [List.map_map]
    refine List.map_congr_left fun i _ => ?_
    simp only [Function.comp, sequencePart]
    split <;> rfl
  split
  · exact hcheck subject
  · exact .after (.hold) hcheck

theorem openReflective_binds {runtime : String} :
    Opens (openReflective runtime head arity subject) (pure ((Extraction.reflective head).spots arity)) := by
  unfold openReflective
  split
  · rename_i harity
    rw [beq_iff_eq.mp harity]
    exact .after (.emit _) fun _ => .pure
  · exact .after (.hold) fun _ => .after (.emit _) fun _ => opens_of_spots (by rw [List.map_map]; rfl)

theorem openExtractor_binds (env : Env) (site : Site) (subject : Expr) :
    Opens (openExtractor env site subject) (do
      let extraction ← resolve env site
      pure (extraction.spots site.arity)) := by
  refine Binds.ofChecked.bind fun extraction => ?_
  cases extraction with
  | unapply companion param shape => exact openUnapply_binds
  | structural head fields cast => exact openStructural_binds cast
  | sequence seq elem rest => exact openSequence_binds seq elem rest
  | reflective head => exact openReflective_binds

theorem openTuple_binds {elems : List (Located Pattern)} : Opens (openTuple env elems span subject ty) (do
      let types ← tupleTypes env elems span ty
      pure (types.map .value)) := by
  unfold openTuple tupleTypes
  intro s
  dsimp only
  split
  · rfl
  · split
    · rfl
    · cases (env.expand ty).tupleArity? with
      | none => rfl
      | some n =>
        dsimp only
        split
        · exact opens_of_spots map_spot_tupleParts s
        · rfl

theorem typedPattern_binds (name : String) {wanted : Ty} : Binds id (typedPattern name wanted span subject ty)
      (if name == "_" then pure () else bindOnce name (if wanted == ty then ty else wanted) span) := by
  have hassert : ∀ bound, Binds id (do
      let ok ← Compile.fresh
      Compile.emit (.assert bound true ok subject wanted)) (pure ()) := fun bound => .after .fresh fun _ => .emit _
  unfold typedPattern
  by_cases hsame : (wanted == ty) = true
  · simp only [hsame, if_true]
    by_cases hname : (name == "_") = true
    · simpa [bne, hname] using Binds.pure
    · simpa [bne, hname] using Binds.bindValue
  · simp only [hsame]
    by_cases hname : (name == "_") = true
    · simpa [hname] using hassert none
    · simpa [hname] using (Binds.bindName name wanted span).bind (r := fun _ => pure ()) fun _ => hassert (some name)

theorem bindSuffix_binds (read : Expr) : Binds id (bindSuffix p read ty) (bindRest p ty) := by
  obtain ⟨p, span⟩ := p
  cases p with
  | rest name =>
    cases name with
    | some name => exact .bindValue
    | none => exact .pure
  | _ => exact .pure

mutual

theorem compileInto_bindings : ∀ (p : Located Pattern) (subject : Expr) (ty : Ty),
    Binds id (compileInto env p subject ty) (bindInto env p ty)
  | ⟨.wildcard, _⟩, _, _ => by
    simp only [compileInto, bindInto]
    exact .pure
  | ⟨.ident name, span⟩, subject, ty => by
    simp only [compileInto, bindInto]
    refine .ite ?_ (.bindValue)
    simpa only [bind_assoc, pure_bind] using
      (openExtractor_binds env ⟨⟨name, [], []⟩, ty.unwrap, span⟩ subject).bind (r := fun _ => pure ()) fun _ => .pure
  | ⟨.literal value, _⟩, _, _ => by
    simp only [compileInto, bindInto]
    exact .emit _
  | ⟨.typed name wanted, span⟩, subject, ty => by
    simp only [compileInto, bindInto]
    exact typedPattern_binds name
  | ⟨.extractor head typeArgs args, span⟩, subject, ty => by
    simp only [compileInto, bindInto]
    simpa only [bind_assoc, pure_bind, Site.arity, Site.args] using
      (openExtractor_binds env ⟨⟨head, typeArgs, args⟩, ty.unwrap, span⟩ subject).bind fun parts =>
        compileParts_bindings args parts
  | ⟨.tuple elems, span⟩, subject, ty => by
    simp only [compileInto, bindInto]
    simpa only [bind_assoc, pure_bind] using
      openTuple_binds.bind fun parts => compileParts_bindings elems parts
  | ⟨.rest _, span⟩, _, _ => by
    simp only [compileInto, bindInto]
    exact .fail _

theorem compileParts_bindings : ∀ (ps : List (Located Pattern)) (parts : List Part),
    Binds id (compileParts env ps parts) (bindSpots env ps (parts.map Part.spot))
  | [], _ | _ :: _, [] => by
    simp only [compileParts, bindSpots, List.map_nil]
    exact .pure
  | p :: ps, .value read ty :: parts => by
    simp only [compileParts, bindSpots, List.map_cons, Part.spot]
    exact (compileInto_bindings p read ty).bind fun _ => compileParts_bindings ps parts
  | p :: ps, .suffix read ty :: parts => by
    simp only [compileParts, bindSpots, List.map_cons, Part.spot]
    exact (bindSuffix_binds read).bind fun _ => compileParts_bindings ps parts

end

/-! ## On every subject -/

theorem compile_bindings {names : NameSupply} :
    (compile env p subject ty names).1.map (·.bindings) = (bindInto env p ty []).map (·.2) := by
  rw [← compileInto_bindings p subject ty ⟨names, [], []⟩]
  unfold compile
  cases compileInto env p subject ty ⟨names, [], []⟩ <;> rfl

theorem bindingTypes_eq : bindingTypes env p ty = ((bindInto env p ty []).map (·.2)).toOption.getD [] := by
  rw [← compile_bindings]
  unfold bindingTypes
  cases (compile env p (.ident "_subject") ty (.new env.settings.tempStem)).1 <;> rfl

theorem bindingTypes_of_compile {env : Env} {p : Located Pattern} {subject : Expr} {ty : Ty} {names : NameSupply}
    {compiled : CompiledPattern} (h : (compile env p subject ty names).1 = .ok compiled) :
    bindingTypes env p ty = compiled.bindings := by
  rw [bindingTypes_eq, ← compile_bindings, h]
  rfl

end Lowering.Match

namespace Lowering.Lower

open Match (compile)

/-- A pattern is refused for the same reason, or binds the same names to the same types, whatever the subject is read
    from and whatever names are taken. So the guard and the body of a clause are lowered in the very scope in which
    inference types the body. -/
theorem lowerClause_bindings (env : Env) (ty : Ty) :
    (∀ p subject subject' names names', (compile env p subject ty names).1.map (·.bindings) =
      (compile env p subject' ty names').1.map (·.bindings)) ∧
    ∀ clause subject position flag, lowerClause env clause subject ty position flag = (do
      let compiled ← compilePattern env clause.source.pattern subject ty
      bracket (fun s => { s with scope := Inference.clauseScope ⟨env, s.typeParams⟩ s.scope ty clause.source.pattern })
          (fun s => { s with scope := s.scope.leave }) do
        let compiled ← withGuard compiled clause.guard
        let body ← clauseBody clause.body position
        pure (compiled.assemble clause.source.references (setFlag flag ++ body), compiled.isUnconditional)) := by
  refine ⟨fun p subject subject' names names' => ?_, fun clause subject position flag => funext fun s => ?_⟩
  · rw [Match.compile_bindings, Match.compile_bindings]
  · show EStateM.bind _ _ s = EStateM.bind _ _ s
    unfold EStateM.bind compilePattern
    cases hcompiled : (compile env clause.source.pattern subject ty s.names).1 with
    | error d => simp only [hcompiled, ofChecked]; rfl
    | ok compiled =>
      simp only [hcompiled, ofChecked, Inference.clauseScope, Match.bindingTypes_of_compile hcompiled]
      rfl

end Lowering.Lower
