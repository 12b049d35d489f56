/-
  Diagnostic — why a program is refused.

  A run yields a target tree or exactly one diagnostic. A fault says what is wrong, in terms of the program; its
  category and its wording are functions of the fault.
-/

import Lowering.Source.Pattern
import Lowering.Suggestion
import Lowering.Ty.Wrapper

namespace Lowering

inductive Category where
  /-- A write through a value binding or a field not declared `var`. -/
  | immutability
  /-- A concrete type is needed and cannot be determined. -/
  | inference
  /-- Shapes of patterns, coverage, and argument lists. -/
  | pattern
  /-- Clauses of a match disagree on their result. -/
  | resultConflict
  /-- A tree or a table that breaks the type model. -/
  | invariant
  /-- The source is nested deeper than the settings allow. -/
  | depthLimit
  | io
  | settings
  | catalog
  deriving DecidableEq

namespace Category

def label : Category → String
  | .immutability => "Immutability"
  | .inference => "Inference"
  | .pattern => "Pattern"
  | .resultConflict => "Result type"
  | .invariant => "Invariant"
  | .depthLimit => "Nesting"
  | .io => "IO"
  | .settings => "Configuration"
  | .catalog => "Metadata"

def title : Category → String
  | .immutability => "Immutability error"
  | .inference => "Inference error"
  | .pattern => "Pattern error"
  | .resultConflict => "Result type conflict"
  | .invariant => "Invariant violation"
  | .depthLimit => "Nesting limit exceeded"
  | .io => "IO error"
  | .settings => "Configuration error"
  | .catalog => "Metadata error"

/-- Faults of the program have a place in it; faults of files do not. -/
def isLocated : Category → Bool
  | .io | .settings | .catalog => false
  | _ => true

end Category

structure Report where
  category : Category
  message : String
  span : Option Span

namespace Report

def new (category : Category) (message : String) (span : Span) : Report :=
  ⟨category, message, if category.isLocated then some span else none⟩

def render (r : Report) : String :=
  match r.span with
  | some span => r.category.title ++ " at " ++ span.render ++ ": " ++ r.message
  | none => r.category.title ++ ": " ++ r.message

end Report

inductive Fault where
  -- Writes
  | assignToValue (name : String)
  | assignToUnknown (name : String)
  | assignToFixedField (field : String) (receiver : Ty)
  | assignThroughIndex (sequence : Ty)
  | assignToNothing
  -- Names and members
  | unknownName (name : String) (near : Option String)
  | unknownField (receiver : Ty) (field : String) (near : Option String)
  | unknownReceiver (member : String)
  | genericAsValue (name : String)
  -- Types that cannot be determined
  | bindingType (name : String)
  | lambdaParamType (name : String)
  | tupleElementType (position : Nat)
  | subjectType
  | noValue
  | ifWithoutElse (result : Ty)
  | blockWithoutValue (result : Ty)
  | returnWithoutValue (result : Ty)
  | caseFunctionType
  | caseFunctionArity (count : Nat)
  -- Calls
  | notCallable (ty : Ty)
  | companionNotCallable (name : String)
  | arity (callee : String) (expected found : Nat)
  | typeArity (callee : String) (expected found : Nat)
  | typeArgs (callee : String)
  | typeArgsNeeded (callee : String)
  | positionalOnly (callee : String)
  | mixedArgs
  | repeatedArg (name : String)
  | unknownArg (name : String) (near : Option String)
  | missingArg (name owner : String)
  | copyByPosition
  | tupleArity (least most found : Nat)
  -- Returns
  | returnOutsideFunction
  | returnInsideValue
  -- Patterns
  | boundTwice (name : String)
  | restOutsideSequence
  | restInTuple
  | restInExtractor (head : String)
  | restWithoutSequence (head : String)
  | restNotLast
  | tuplePatternArity (found least most : Nat)
  | tuplePatternLength (found subject : Nat)
  | tuplePatternSubject (subject : Ty)
  | tuplePatternUnknown (subject : Ty)
  | unknownExtractor (head : String) (near : Option String)
  | notExtractor (head : String)
  | extractsNothing (head : String) (found : Nat)
  | extractsOther (head : String) (payload : Ty) (found : Nat)
  | extractorUnsupported (head : String)
  | extractorTypeArgs (head : String) (subject : Ty)
  | extractorTypeArgsNeeded (head : String)
  | headTypeArgs (head : String) (subject : Ty)
  | fieldCount (head : String) (fields found : Nat)
  | neverMatches (head : String) (subject : Ty)
  | sequenceSubject (head : String) (subject : Ty)
  -- Matches
  | unreachableClause (pattern : Source.Pattern)
  | repeatedDefault
  | notExhaustive (missing : List String)
  | defaultNeeded (subject : Ty)
  | clausesDisagree (reference : Ty) (origin : Option Source.Pattern) (pattern : Source.Pattern) (ty : Ty)
  -- Declarations
  | variantFieldTypes (field sealedType : String) (first second : Ty)
  | doubleWrap (wrap : DoubleWrap)
  | sealedNotIndexed (name : String)
  | variantFieldNotIndexed (field : String)
  | fieldNotIndexed (field : String) (owner : Ty)
  | noFieldAt (owner : Ty) (position : Nat)
  | depthLimit (limit : Nat)

namespace Fault

def category : Fault → Category
  | .assignToValue _ | .assignToFixedField _ _ | .assignThroughIndex _ => .immutability
  | .assignToUnknown _ | .unknownName _ _ | .unknownReceiver _ | .genericAsValue _
  | .bindingType _ | .lambdaParamType _ | .tupleElementType _ | .subjectType | .noValue
  | .ifWithoutElse _ | .blockWithoutValue _ | .returnWithoutValue _ | .caseFunctionType | .caseFunctionArity _
  | .notCallable _ | .companionNotCallable _ | .arity _ _ _ | .typeArity _ _ _ | .typeArgs _ | .typeArgsNeeded _
  | .tuplePatternUnknown _ | .extractorTypeArgs _ _ | .extractorTypeArgsNeeded _ | .headTypeArgs _ _ => .inference
  | .clausesDisagree _ _ _ _ => .resultConflict
  | .doubleWrap _ | .sealedNotIndexed _ | .variantFieldNotIndexed _ | .fieldNotIndexed _ _ | .noFieldAt _ _ => .invariant
  | .depthLimit _ => .depthLimit
  | _ => .pattern

def message : Fault → String
  | .assignToValue name => s!"cannot assign to `{name}`: it is a value binding"
  | .assignToUnknown name => s!"cannot assign to unknown name `{name}`"
  | .assignToFixedField field receiver =>
    s!"cannot assign to field `{field}` of `{receiver.render}`: it is not declared var"
  | .assignThroughIndex sequence => s!"cannot assign through an index of `{sequence.render}`"
  | .assignToNothing => "invalid assignment target"
  | .unknownName name near => s!"unknown name `{name}`{Suggestion.hint near}"
  | .unknownField receiver field near => s!"`{receiver.render}` has no field `{field}`{Suggestion.hint near}"
  | .unknownReceiver member => s!"cannot resolve the type of the receiver of `.{member}`"
  | .genericAsValue name => s!"generic function `{name}` cannot be used as a value"
  | .bindingType name => s!"cannot infer the type of `{name}`; add a type annotation"
  | .lambdaParamType name => s!"cannot infer the type of lambda parameter `{name}`"
  | .tupleElementType position => s!"cannot infer the type of tuple element {position}"
  | .subjectType => "cannot infer the type of the match subject"
  | .noValue => "this expression has no value but is used as one"
  | .ifWithoutElse result => s!"`if` without `else` cannot produce a value of type `{result.render}`"
  | .blockWithoutValue result => s!"block must end in a value of type `{result.render}`"
  | .returnWithoutValue result => s!"missing return value of type `{result.render}`"
  | .caseFunctionType => "a case-function literal needs an expected function type"
  | .caseFunctionArity count => s!"a case-function literal takes one argument, the expected type has {count}"
  | .notCallable ty => s!"cannot call a value of type `{ty.render}`"
  | .companionNotCallable name => s!"`{name}` cannot be called"
  | .arity callee expected found => s!"`{callee}` takes {expected} arguments, found {found}"
  | .typeArity callee expected found => s!"`{callee}` takes {expected} type arguments, found {found}"
  | .typeArgs callee => s!"cannot infer the type arguments of `{callee}`"
  | .typeArgsNeeded callee => s!"cannot infer the type arguments of `{callee}`; pass them explicitly"
  | .positionalOnly callee => s!"`{callee}` takes positional arguments only"
  | .mixedArgs => "cannot mix named and positional arguments"
  | .repeatedArg name => s!"argument `{name}` given twice"
  | .unknownArg name near => s!"unknown argument `{name}`{Suggestion.hint near}"
  | .missingArg name owner => s!"missing argument `{name}` for `{owner}`"
  | .copyByPosition => "`Copy` takes named arguments only"
  | .tupleArity least most found => s!"tuples have between {least} and {most} elements, found {found}"
  | .returnOutsideFunction => "`return` outside of a function"
  | .returnInsideValue => "`return` is not allowed inside an `if`, `match` or block used as a value"
  | .boundTwice name => s!"`{name}` is bound more than once in the same pattern"
  | .restOutsideSequence => "rest pattern outside of a sequence pattern"
  | .restInTuple => "rest pattern inside a tuple pattern"
  | .restInExtractor head => s!"rest pattern needs a sequence, but `{head}` is an extractor"
  | .restWithoutSequence head => s!"rest pattern needs a sequence, but `{head}` has no Size/Get/Drop"
  | .restNotLast => "rest pattern must be the last element"
  | .tuplePatternArity found least most =>
    s!"tuple pattern of arity {found} is outside the supported range {least}..={most}"
  | .tuplePatternLength found subject => s!"tuple pattern has {found} elements but the subject has {subject}"
  | .tuplePatternSubject subject => s!"tuple pattern cannot match a value of type `{subject.render}`"
  | .tuplePatternUnknown subject => s!"cannot infer the element types of a tuple subject of type `{subject.render}`"
  | .unknownExtractor head near => s!"unknown extractor `{head}`{Suggestion.hint near}"
  | .notExtractor head => s!"`{head}` is not an extractor, struct or sequence type"
  | .extractsNothing head found => s!"`{head}` extracts nothing but the pattern has {found} arguments"
  | .extractsOther head payload found => s!"`{head}` extracts `{payload.render}` but the pattern has {found} arguments"
  | .extractorUnsupported head =>
    s!"`{head}` has an Unapply that cannot be called directly and reflective matching is disabled"
  | .extractorTypeArgs head subject =>
    s!"cannot infer type arguments of extractor `{head}` for subject `{subject.render}`"
  | .extractorTypeArgsNeeded head => s!"extractor `{head}` needs explicit type arguments for reflective matching"
  | .headTypeArgs head subject => s!"cannot infer type arguments of `{head}` from subject `{subject.render}`"
  | .fieldCount head fields found => s!"`{head}` has {fields} fields but the pattern has {found} arguments"
  | .neverMatches head subject => s!"pattern `{head}` can never match a value of type `{subject.render}`"
  | .sequenceSubject head subject =>
    s!"sequence pattern `{head}` needs a subject of its own type, got `{subject.render}`"
  | .unreachableClause pattern => s!"unreachable clause `case {pattern.render}` after the default case"
  | .repeatedDefault => "multiple default cases in one match"
  | .notExhaustive missing => "match is not exhaustive: missing " ++ ", ".intercalate missing
  | .defaultNeeded subject => s!"match on `{subject.render}` needs a default case"
  | .clausesDisagree reference origin pattern ty =>
    let first := match origin with
      | some p => s!"case {p.render} has type `{reference.render}`"
      | none => s!"the declared type is `{reference.render}`"
    s!"match clauses disagree on their result: {first} but case {pattern.render} has type `{ty.render}`"
  | .variantFieldTypes field sealedType first second =>
    s!"variant field `{field}` of `{sealedType}` is declared as both `{first.render}` and `{second.render}`"
  | .doubleWrap wrap => wrap.message
  | .sealedNotIndexed name => s!"sealed type `{name}` missing from the index"
  | .variantFieldNotIndexed field => s!"variant field `{field}` missing from the index"
  | .fieldNotIndexed field owner => s!"field `{field}` of `{owner.render}` is not indexed"
  | .noFieldAt owner position => s!"`{owner.render}` has no field at position {position}"
  | .depthLimit limit => s!"expression nesting exceeds the limit of {limit}"

def report (f : Fault) (span : Span) : Report := .new f.category f.message span

end Fault

structure Diagnostic where
  fault : Fault
  span : Span

def Diagnostic.report (d : Diagnostic) : Report := d.fault.report d.span

abbrev Checked := Except Diagnostic

def Fault.raise {α : Type} (fault : Fault) (span : Span) : Checked α := .error ⟨fault, span⟩

/-- Places a violation of the type model. -/
def Checked.ofWrap {α : Type} (span : Span) : Except DoubleWrap α → Checked α
  | .ok a => .ok a
  | .error wrap => .error ⟨.doubleWrap wrap, span⟩

end Lowering
