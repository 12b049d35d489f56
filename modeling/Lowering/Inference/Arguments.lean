/-
  Inference.Arguments — arguments of a call and the type arguments they determine.

  Arguments are all by position or all by name. Type arguments are those written, or else found by unification:
  first the arguments that have a type of their own, then lambdas, whose parameters are typed by what is bound so
  far, then the type the context expects.
-/

import Lowering.Diagnostic
import Lowering.Ty.Unify

namespace Lowering

/-! ## By position and by name -/

section

variable {α : Type}

abbrev NamedArg (α : Type) := Option (Located String) × α

/-- Puts an argument into the slot of the parameter of its name. -/
def placeArg (names : List String) (slots : List (Option α)) (name : Located String) (a : α) :
    Checked (List (Option α)) :=
  match names.findIdx? (· == name.val) with
  | none => (Fault.unknownArg name.val (Suggestion.suggest name.val names)).raise name.span
  | some i =>
    match slots[i]? with
    | some none => pure (slots.set i (some a))
    | _ => (Fault.repeatedArg name.val).raise name.span

def placeArgs (names : List String) : (slots : List (Option α)) → List (NamedArg α) → Checked (List (Option α))
  | slots, [] => pure slots
  | slots, (none, _) :: args => placeArgs names slots args
  | slots, (some name, a) :: args => do
    let slots ← placeArg names slots name a
    placeArgs names slots args

/-- Arguments by position, whether or not they are named. -/
def byPosition (args : List (NamedArg α)) : List (Option α) := args.map fun arg => some arg.2

/-- Arguments in the order of the parameters: as they stand, or one slot per parameter when
    they are named. Whether a slot may stay empty is for the caller to say. -/
def arrange (names : List String) (args : List (NamedArg α)) (span : Span) : Checked (List (Option α)) :=
  if args.all (·.1.isNone) then pure (byPosition args)
  else if args.any (·.1.isNone) then Fault.mixedArgs.raise span
  else placeArgs names (List.replicate names.length none) args

end

/-! ## Type arguments -/

inductive ArgTyping where
  /-- It has a type of its own. -/
  | plain (ty : Unit → Ty)
  /-- A lambda is typed against the types expected of its parameters. -/
  | lambda (ty : List Ty → Ty)
  /-- A case function has no type without context. -/
  | caseFunction

namespace Unifier

/-- Unifies a parameter with an argument that has a type of its own. -/
def unifyPlain (u : Unifier) (pair : Ty × ArgTyping) : Option Unifier :=
  match pair.2 with
  | .plain ty => u.unify? pair.1 (ty ())
  | _ => some u

/-- Unifies a parameter with a lambda, typed by the bindings so far. -/
def unifyLambda (u : Unifier) (pair : Ty × ArgTyping) : Option Unifier :=
  match pair.2 with
  | .lambda ty =>
    let expected := match u.apply pair.1 with
      | .func params _ => params
      | _ => []
    u.unify? pair.1 (ty expected)
  | _ => some u

/-- Unifies the declared result with the type the context wants, when that is still needed. -/
def unifyResult (u : Unifier) (expected : Option (Ty × Ty)) : Option Unifier :=
  match expected with
  | some (declared, wanted) =>
    if u.resolve.isNone && !wanted.isAny then u.unify? declared wanted else some u
  | none => some u

end Unifier

/-- The type arguments of a generic callee, `none` when some parameter stays unbound. -/
def resolveTypeArgs (typeParams : List String) (params : List Ty) (args : List (Option ArgTyping))
    (explicit : List Ty) (expected : Option (Ty × Ty)) : Option (List Ty) :=
  if typeParams.isEmpty then some []
  else if explicit.length == typeParams.length then some explicit
  else do
    let pairs := (params.zip args).filterMap fun (param, arg) => arg.map (param, ·)
    let u ← pairs.foldlM Unifier.unifyPlain (.new typeParams)
    let u ← pairs.foldlM Unifier.unifyLambda u
    let u ← u.unifyResult expected
    u.resolve

end Lowering
