/-
  Ty.Unify — solving for type parameters.

  A pattern type mentions unknown type parameters, a known type does not. Walking both together binds each
  parameter to the part of the known type that stands in its place. Shapes that do not line up contribute nothing;
  a parameter met with two different types is a conflict.
-/

import Lowering.Ty.Substitution
import Lowering.Ty.Wrapper

namespace Lowering

/-- One parameter, two types. -/
structure Conflict where
  param : String
  first : Ty
  second : Ty

/-- Parameters to solve for and what they are bound to so far. -/
structure Unifier where
  params : List String
  bound : Substitution

namespace Unifier

def new (params : List String) : Unifier := ⟨params, Table.empty⟩

def bind (u : Unifier) (param : String) (t : Ty) : Unifier := { u with bound := u.bound.insert param t }

/-- A unification step keeps its bindings when it fails. -/
abbrev Solve := EStateM Conflict Substitution

/-- Meets the parameter `name` with a known type. -/
def meet (params : List String) (name : String) (known : Ty) : Solve Unit := fun bound =>
  if known.isAny || known.mentions params then .ok () bound
  else match bound.find? name with
    | some first => if first == known then .ok () bound else .error ⟨name, first, known⟩ bound
    | none => .ok () (bound.insert name known)

def param? (params : List String) (pattern : Ty) : Option String :=
  pattern.leafName?.filter params.contains

/-- A known type without parts can only meet a parameter. -/
def atLeaf (params : List String) (pattern known : Ty) : Solve Unit :=
  match param? params pattern with
  | some name => meet params name known
  | none => pure ()

mutual

/-- Unifies a pattern with a known type. A wrapper on the known side alone is looked through. -/
def solve (params : List String) (pattern : Ty) : (known : Ty) → Solve Unit
  | .nil | .void => pure ()
  | .generic base args => do
    match base.baseName == Ty.wrapperName && !pattern.isWrapper, args with
    | true, [inner] => solve params pattern inner
    | _, args =>
      match param? params pattern, pattern with
      | some name, _ => meet params name (.generic base args)
      | none, .generic pbase pargs =>
        if pbase.baseName == base.baseName && pargs.length == args.length then solveList params pargs args
        else pure ()
      | none, _ => pure ()
  | .func ins outs =>
    match param? params pattern, pattern with
    | some name, _ => meet params name (.func ins outs)
    | none, .func pins pouts => do
      solveList params pouts outs
      if pins.length == ins.length then solveKnown params pins ins
    | none, _ => pure ()
  | .pointer elem =>
    match param? params pattern, pattern with
    | some name, _ => meet params name (.pointer elem)
    | none, .pointer pelem => solve params pelem elem
    | none, _ => pure ()
  | .array elem =>
    match param? params pattern, pattern with
    | some name, _ => meet params name (.array elem)
    | none, .array pelem => solve params pelem elem
    | none, _ => pure ()
  | .map key elem =>
    match param? params pattern, pattern with
    | some name, _ => meet params name (.map key elem)
    | none, .map pkey pelem => do
      solve params pkey key
      solve params pelem elem
    | none, _ => pure ()
  | .basic name => atLeaf params pattern (.basic name)
  | .named package name => atLeaf params pattern (.named package name)
  | .any => atLeaf params pattern .any

/-- Pairs patterns with known types for as long as both last. -/
def solveList (params : List String) (patterns : List Ty) : (known : List Ty) → Solve Unit
  | [] => pure ()
  | k :: ks =>
    match patterns with
    | [] => pure ()
    | p :: ps => do
      solve params p k
      solveList params ps ks

/-- The same, leaving out known types that are not concrete. -/
def solveKnown (params : List String) (patterns : List Ty) : (known : List Ty) → Solve Unit
  | [] => pure ()
  | k :: ks =>
    match patterns with
    | [] => pure ()
    | p :: ps => do
      if k.isConcrete then solve params p k
      solveKnown params ps ks

end

/-- Extends the bindings by what the pair yields, up to the first conflict. -/
def unify (u : Unifier) (pattern known : Ty) : Unifier × Option Conflict :=
  match solve u.params pattern known u.bound with
  | .ok _ bound => ({ u with bound := bound }, none)
  | .error conflict bound => ({ u with bound := bound }, some conflict)

/-- The same, `none` on a conflict. -/
def unify? (u : Unifier) (pattern known : Ty) : Option Unifier :=
  match u.unify pattern known with
  | (u, none) => some u
  | (_, some _) => none

/-- The binding of every parameter, in order, when each has a concrete one. -/
def resolve (u : Unifier) : Option (List Ty) :=
  u.params.mapM fun p => (u.bound.find? p).filter Ty.isConcrete

def apply (u : Unifier) (t : Ty) : Ty := t.subst u.bound

end Unifier

/-- Solves one pair for all of `params`. -/
def unifyAll (params : List String) (pattern known : Ty) : Option (List Ty) := do
  let u ← (Unifier.new params).unify? pattern known
  u.resolve

end Lowering
