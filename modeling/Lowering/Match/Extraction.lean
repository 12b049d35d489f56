/-
  Match.Extraction — how a pattern `Head(p, q)` takes a value apart.

  In order of preference: an `Unapply` the target can call; direct reads of the fields of a struct; `Size`, `Get`
  and `Drop` of a sequence; the reflective helper of the runtime.
-/

import Lowering.Env.Basic
import Lowering.Text.Uppercase
import Lowering.Ty.Unify

namespace Lowering.Match

open Source (Pattern)

/-! ## Call-shaped patterns -/

structure ExtractorCall where
  head : String
  typeArgs : List Ty
  args : List (Located Pattern)

def namesCompanion (env : Env) (name : String) : Bool :=
  name.toList.head?.any Text.isUppercase && (env.type? name).any (·.kind == .companion)

/-- The pattern as an extractor call, if it is one. -/
def extractorCall? (env : Env) : Pattern → Option ExtractorCall
  | .extractor head typeArgs args => some ⟨head, typeArgs, args⟩
  | .ident name => if namesCompanion env name then some ⟨name, [], []⟩ else none
  | _ => none

/-- An extractor call on a subject of a known type. -/
structure Site where
  call : ExtractorCall
  subject : Ty
  span : Span

namespace Site

def head (site : Site) : String := site.call.head

def args (site : Site) : List (Located Pattern) := site.call.args

def arity (site : Site) : Nat := site.args.length

def hasRest (site : Site) : Bool := site.args.any (·.val.isRest)

/-- The written type arguments, when there is one for each parameter. -/
def explicitArgs? (site : Site) (params : List String) : Option (List Ty) :=
  if site.call.typeArgs.length == params.length then some site.call.typeArgs else none

end Site

/-! ## Extractions -/

inductive UnapplyShape where
  /-- A truth value; nothing is extracted. -/
  | bool
  /-- An option of the payload; `expand` are the types of a tuple payload that is spread
      over several sub-patterns. -/
  | option (payload : Ty) (expand : Option (List Ty))

structure FieldRead where
  name : String
  ty : Ty
  wrapped : Bool

inductive Extraction where
  /-- `Head[T]{}.Unapply(subject)`, where `param` is the type it takes. -/
  | unapply (companion param : Ty) (shape : UnapplyShape)
  /-- Reads of fields, after a checked downcast to `head` when `downcast` is set. -/
  | structural (head : Ty) (fields : List FieldRead) (downcast : Bool)
  /-- Elements of type `elem` by position; `rest` is the position of a rest pattern. -/
  | sequence (seq elem : Ty) (rest : Option Nat)
  /-- The runtime helper; every element has type `any`. -/
  | reflective (head : Ty)

/-- The type each sub-pattern is matched against, by position. -/
def Extraction.elementTypes (arity : Nat) : Extraction → List Ty
  | .unapply _ _ .bool => []
  | .unapply _ _ (.option _ (some elems)) => elems
  | .unapply _ _ (.option payload none) => List.replicate (Nat.min arity 1) payload
  | .structural _ fields _ => fields.map (·.ty)
  | .sequence seq elem rest => (List.range arity).map fun i => if some i == rest then seq else elem
  | .reflective _ => List.replicate arity .any

/-! ## Direct and reflective unapply -/

/-- The target can call this `Unapply`. -/
def isDirect (unapply : Method) : Bool :=
  unapply.params.length == 1 && (unapply.result.isBool || unapply.result.isOption)

/-- Type arguments a companion entry picks from the subject's own. -/
def companionArgs? (env : Env) (e : TypeEntry) (head : String) (subject : Ty) : Option (List Ty) := do
  let companion ← env.companion? head
  if subject.baseName == Text.bareName companion.target && companion.indices.length == e.typeParams.length then
    companion.indices.mapM fun i => (subject.args[i]?).filter Ty.isConcrete
  else none

/-- Type arguments from the subject in the place of the `Unapply` parameter. -/
def unifiedArgs? (e : TypeEntry) (unapply : Method) (subject : Ty) : Option (List Ty) := do
  unifyAll e.typeParams (← unapply.params.head?) subject

/-- Type arguments of a generic extractor: as written, by its companion, by unification. -/
def extractorArgs (env : Env) (e : TypeEntry) (unapply : Method) (site : Site) : Checked (List Ty) :=
  if e.typeParams.isEmpty then pure []
  else
    let subject := env.expand site.subject
    match site.explicitArgs? e.typeParams <|> companionArgs? env e site.head subject
        <|> unifiedArgs? e unapply subject with
    | some args => pure args
    | none => (Fault.extractorTypeArgs site.head site.subject).raise site.span

/-- The shape of an instantiated result, checked against the number of sub-patterns. -/
def unapplyShape (site : Site) (result : Ty) : Checked UnapplyShape :=
  if result.isBool then
    if site.arity == 0 then pure .bool else (Fault.extractsNothing site.head site.arity).raise site.span
  else
    let payload := result.args.headD .any
    if site.arity ≤ 1 then pure (.option payload none)
    else if payload.tupleArity? == some site.arity then pure (.option payload (some payload.args))
    else (Fault.extractsOther site.head payload site.arity).raise site.span

def directUnapply (env : Env) (e : TypeEntry) (unapply : Method) (site : Site) : Checked Extraction := do
  let args ← extractorArgs env e unapply site
  let s := Substitution.ofParams e.typeParams args
  if site.hasRest then (Fault.restInExtractor site.head).raise site.span
  let shape ← unapplyShape site (unapply.result.subst s)
  pure (.unapply ((env.typeRef e).apply args) ((unapply.params.head?.map (·.subst s)).getD .any) shape)

def reflectiveUnapply (env : Env) (e : TypeEntry) (site : Site) : Checked Extraction := do
  if site.hasRest then (Fault.restInExtractor site.head).raise site.span
  let args ← if e.typeParams.isEmpty then pure []
    else match site.explicitArgs? e.typeParams with
      | some args => pure args
      | none => (Fault.extractorTypeArgsNeeded site.head).raise site.span
  pure (.reflective ((env.typeRef e).apply args))

/-! ## Structs and sequences -/

/-- The head as a type: the subject itself when it is an instance of the head. Against a
    subject of unknown layout the head is instantiated as written, and a downcast is needed. -/
def instantiateHead (env : Env) (e : TypeEntry) (site : Site) : Checked (Ty × Bool) :=
  let subject := env.expand site.subject
  let known := env.entry? subject
  if known.any fun k => k.name == e.name && k.package == e.package then pure (subject, false)
  else if subject.isAny || subject.isNil || known.any (·.kind == .interface) then
    if e.typeParams.isEmpty then pure (env.typeRef e, true)
    else match site.explicitArgs? e.typeParams with
      | some args => pure ((env.typeRef e).apply args, true)
      | none => (Fault.headTypeArgs site.head site.subject).raise site.span
  else (Fault.neverMatches site.head site.subject).raise site.span

def structuralMatch (env : Env) (e : TypeEntry) (site : Site) : Checked Extraction := do
  if site.arity != e.fields.length then (Fault.fieldCount site.head e.fields.length site.arity).raise site.span
  let (head, downcast) ← instantiateHead env e site
  let fields ← e.fields.mapM fun name =>
    match env.field? head name with
    | some info => pure ⟨name, info.ty, info.wrapped⟩
    | none => (Fault.fieldNotIndexed name head).raise site.span
  pure (.structural head fields downcast)

/-- The position of the rest pattern, which must be the last. -/
def restPosition (site : Site) : Checked (Option Nat) :=
  match (List.range site.arity).filter fun i => (site.args[i]?).any (·.val.isRest) with
  | [] => pure none
  | [i] => if i + 1 == site.arity then pure (some i) else Fault.restNotLast.raise site.span
  | _ => Fault.restNotLast.raise site.span

def sequenceMatch (env : Env) (e : TypeEntry) (site : Site) : Checked Extraction := do
  let rest ← restPosition site
  let (seq, downcast) ← instantiateHead env e site
  if downcast then (Fault.sequenceSubject site.head site.subject).raise site.span
  pure (.sequence seq (((env.methodSignature? seq "Get").map (·.result)).getD .any) rest)

def isSequence (e : TypeEntry) : Bool := ["Size", "Get", "Drop"].all fun m => (e.method? m).isSome

/-! ## Resolution -/

/-- How the call is carried out, or why it cannot be. -/
def resolve (env : Env) (site : Site) : Checked Extraction :=
  match env.type? site.head with
  | none => (Fault.unknownExtractor site.head (Suggestion.suggest site.head env.typeNames)).raise site.span
  | some e =>
    match e.method? "Unapply" with
    | some unapply =>
      if isDirect unapply then directUnapply env e unapply site
      else if env.settings.reflectiveUnapply then reflectiveUnapply env e site
      else (Fault.extractorUnsupported site.head).raise site.span
    | none =>
      if e.kind == .struct && !e.fields.isEmpty && !site.hasRest then structuralMatch env e site
      else if isSequence e then sequenceMatch env e site
      else if site.hasRest then (Fault.restWithoutSequence site.head).raise site.span
      else (Fault.notExtractor site.head).raise site.span

end Lowering.Match
