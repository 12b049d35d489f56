/-
  Match.Compile — from a pattern and a subject to steps.

  The subject is an expression that can be evaluated more than once. Opening an extraction emits the steps before
  the sub-patterns and yields, for every position, what the sub-pattern there is matched against.
-/

import Lowering.Match.Extraction
import Lowering.Match.Step
import Lowering.NameSupply

namespace Lowering.Match

open Source (Pattern)
open Target (Expr)

structure CompileState where
  names : NameSupply
  steps : List Step
  bindings : List (String × Ty)

abbrev Compile := EStateM Diagnostic CompileState

namespace Compile

def fail {α : Type} (fault : Fault) (span : Span) : Compile α := throw ⟨fault, span⟩

def ofChecked {α : Type} : Checked α → Compile α
  | .ok a => pure a
  | .error d => throw d

def emit (step : Step) : Compile Unit := modify fun s => { s with steps := s.steps ++ [step] }

def fresh : Compile String := modifyGet fun s => (s.names.fresh.1, { s with names := s.names.fresh.2 })

/-- Records a binding; a name is bound once per pattern. -/
def bindName (name : String) (ty : Ty) (span : Span) : Compile Unit := do
  if (← get).bindings.any (·.1 == name) then fail (.boundTwice name) span
  modify fun s => { s with bindings := s.bindings ++ [(name, ty)] }

def bindValue (name : String) (value : Expr) (ty : Ty) (span : Span) : Compile Unit := do
  bindName name ty span
  emit (.bind name value)

def downcast (subject : Expr) (ty : Ty) : Compile Expr := do
  let tmp ← fresh
  let ok ← fresh
  emit (.assert (some tmp) false ok subject ty)
  emit (.touch (.ident tmp))
  pure (.ident tmp)

def hold (value : Expr) : Compile Expr := do
  let tmp ← fresh
  emit (.define [tmp] value)
  pure (.ident tmp)

end Compile

open Compile

/-! ## Parts -/

/-- What stands at one position of a subject. -/
inductive Part where
  | value (read : Expr) (ty : Ty)
  /-- The remaining elements, for a rest pattern. -/
  | suffix (read : Expr) (ty : Ty)

def tupleParts (subject : Expr) (types : List Ty) : List Part :=
  types.mapIdx fun i ty => .value (.selector subject (Ty.tupleField i)) ty

def fieldPart (base : Expr) (f : FieldRead) : Part :=
  let read := Expr.selector base f.name
  .value (if f.wrapped then .method read "Get" [] else read) f.ty

/-! ## Extractions -/

def openUnapply (companion param : Ty) (shape : UnapplyShape) (site : Site) (subject : Expr) :
    Compile (List Part) := do
  let subject ← if site.subject.isAny && !param.isAny then downcast subject param else pure subject
  let call := Expr.method (.zero companion) "Unapply" [subject]
  match shape with
  | .bool => do
    emit (.check call)
    pure []
  | .option payload expand => do
    let option ← hold call
    emit (.check (.method option "IsDefined" []))
    let content := Expr.method option "Get" []
    match expand with
    | some types => pure (tupleParts content types)
    | none => pure [.value content payload]

def openStructural (head : Ty) (fields : List FieldRead) (cast : Bool) (subject : Expr) : Compile (List Part) := do
  let base ← if cast then downcast subject head else pure subject
  pure (fields.map (fieldPart base))

def sequencePart (base : Expr) (seq elem : Ty) (rest : Option Nat) (i : Nat) : Part :=
  if some i == rest then .suffix (.method base "Drop" [.nat i]) seq else .value (.method base "Get" [.nat i]) elem

def openSequence (seq elem : Ty) (rest : Option Nat) (arity : Nat) (subject : Expr) : Compile (List Part) := do
  let base ← if subject.isPureRead then pure subject else hold subject
  let op := if rest.isSome then BinaryOp.ge else .eq
  emit (.check (.binary op (.method base "Size" []) (.nat (rest.getD arity))))
  pure ((List.range arity).map (sequencePart base seq elem rest))

def openReflective (runtime : String) (head : Ty) (arity : Nat) (subject : Expr) : Compile (List Part) := do
  if arity == 0 then
    emit (.check (.apply (.qualified runtime "UnapplyCheck") [subject, .zero head]))
    pure []
  else
    let vals ← hold (.apply (.qualified runtime "UnapplyFull") [subject, .zero head])
    emit (.check (.binary .and (.binary .ne vals .nil) (.binary .eq (.apply (.ident "len") [vals]) (.nat arity))))
    pure ((List.range arity).map fun i => .value (.index vals (.nat i)) .any)

def openExtractor (env : Env) (site : Site) (subject : Expr) : Compile (List Part) := do
  match ← ofChecked (resolve env site) with
  | .unapply companion param shape => openUnapply companion param shape site subject
  | .structural head fields cast => openStructural head fields cast subject
  | .sequence seq elem rest => openSequence seq elem rest site.arity subject
  | .reflective head => openReflective env.runtime head site.arity subject

/-! ## Tuples, literals and types -/

def openTuple (env : Env) (elems : List (Located Pattern)) (span : Span) (subject : Expr) (ty : Ty) :
    Compile (List Part) := do
  let arity := elems.length
  let settings := env.settings
  if arity < settings.leastArity || settings.mostArity < arity then
    fail (.tuplePatternArity arity settings.leastArity settings.mostArity) span
  if elems.any (·.val.isRest) then fail .restInTuple span
  let ty := env.expand ty
  match ty.tupleArity? with
  | some n => if n == arity then pure (tupleParts subject ty.args) else fail (.tuplePatternLength arity n) span
  | none => fail (if ty.isAny || ty.isNil then .tuplePatternUnknown ty else .tuplePatternSubject ty) span

def literalTest (value : Literal) (subject : Expr) (ty : Ty) : Expr :=
  match ty.isBool, value with
  | true, .bool true => subject
  | true, .bool false => .not subject
  | _, _ => .binary .eq subject (.lit value)

/-- `name: wanted`; a subject of that very type needs no test. -/
def typedPattern (name : String) (wanted : Ty) (span : Span) (subject : Expr) (ty : Ty) : Compile Unit := do
  if wanted == ty then
    if name != "_" then bindValue name subject ty span
  else
    let bound ← if name == "_" then pure none else do
      bindName name wanted span
      pure (some name)
    let ok ← fresh
    emit (.assert bound true ok subject wanted)

/-- A rest pattern with a name binds the remaining elements. -/
def bindSuffix (p : Located Pattern) (read : Expr) (ty : Ty) : Compile Unit :=
  match p.val with
  | .rest (some name) => bindValue name read ty p.span
  | _ => pure ()

/-! ## Patterns -/

mutual

/-- Emits the steps that match the subject against the pattern. A wrapper around the
    subject's type is looked through. -/
def compileInto (env : Env) : Located Pattern → Expr → Ty → Compile Unit
  | ⟨.wildcard, _⟩, _, _ => pure ()
  | ⟨.ident name, span⟩, subject, ty =>
    if namesCompanion env name then do
      let _ ← openExtractor env ⟨⟨name, [], []⟩, ty.unwrap, span⟩ subject
    else bindValue name subject ty.unwrap span
  | ⟨.literal value, _⟩, subject, ty => emit (.check (literalTest value subject ty.unwrap))
  | ⟨.typed name wanted, span⟩, subject, ty => typedPattern name wanted span subject ty.unwrap
  | ⟨.extractor head typeArgs args, span⟩, subject, ty => do
    let parts ← openExtractor env ⟨⟨head, typeArgs, args⟩, ty.unwrap, span⟩ subject
    compileParts env args parts
  | ⟨.tuple elems, span⟩, subject, ty => do
    let parts ← openTuple env elems span subject ty.unwrap
    compileParts env elems parts
  | ⟨.rest _, span⟩, _, _ => fail .restOutsideSequence span

def compileParts (env : Env) : List (Located Pattern) → List Part → Compile Unit
  | [], _ => pure ()
  | p :: ps, parts =>
    match parts with
    | [] => pure ()
    | .value read ty :: parts => do
      compileInto env p read ty
      compileParts env ps parts
    | .suffix read ty :: parts => do
      bindSuffix p read ty
      compileParts env ps parts

end

/-- Compiles one pattern against one subject. The supply moves on even when this fails. -/
def compile (env : Env) (p : Located Pattern) (subject : Expr) (ty : Ty) (names : NameSupply) :
    Checked CompiledPattern × NameSupply :=
  match compileInto env p subject ty ⟨names, [], []⟩ with
  | .ok _ s => (.ok ⟨s.steps, s.bindings⟩, s.names)
  | .error d s => (.error d, s.names)

/-- The bindings of a pattern against a subject of a type; none when it does not compile. -/
def bindingTypes (env : Env) (p : Located Pattern) (ty : Ty) : List (String × Ty) :=
  match (compile env p (.ident "_subject") ty (.new env.settings.tempStem)).1 with
  | .ok compiled => compiled.bindings
  | .error _ => []

end Lowering.Match
