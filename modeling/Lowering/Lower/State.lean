/-
  Lower.State — what lowering keeps while it walks a program.

  Brackets undo what they did when they are left, with a result or with a diagnostic.
-/

import Lowering.Inference.Query
import Lowering.Storage

namespace Lowering

/-- A function being lowered; a `return` belongs to the innermost. -/
structure FunctionFrame where
  result : Ty
  /-- Made for a construct in the place of a value. -/
  synthetic : Bool

structure LowerState where
  scope : Scope
  names : NameSupply
  typeParams : List String
  depth : Nat
  /-- Innermost first. -/
  functions : List FunctionFrame
  /-- Dot-imported packages whose symbols are used. -/
  dotUsed : List String

/-- Lowering changes the state even where it ends in a diagnostic. -/
abbrev Lower := EStateM Diagnostic LowerState

def LowerState.start (env : Env) : LowerState := ⟨.new, .new env.settings.tempStem, [], 0, [], []⟩

namespace Lower

variable {α : Type}

def fail (fault : Fault) (span : Span) : Lower α := throw ⟨fault, span⟩

def ofChecked : Checked α → Lower α
  | .ok a => pure a
  | .error d => throw d

/-! ## Brackets -/

/-- Runs an action between two changes of the state. -/
def bracket (open_ close : LowerState → LowerState) (act : Lower α) : Lower α := fun s =>
  match act (open_ s) with
  | .ok a s' => .ok a (close s')
  | .error d s' => .error d (close s')

def withScope (act : Lower α) : Lower α :=
  bracket (fun s => { s with scope := s.scope.enter }) (fun s => { s with scope := s.scope.leave }) act

def withFunction (result : Ty) (synthetic : Bool) (act : Lower α) : Lower α :=
  bracket (fun s => { s with functions := ⟨result, synthetic⟩ :: s.functions })
    (fun s => { s with functions := s.functions.tail }) act

def withTypeParams (params : List String) (act : Lower α) : Lower α := fun s =>
  bracket (fun s => { s with typeParams := params }) (fun s' => { s' with typeParams := s.typeParams }) act s

/-- Runs an action one level deeper; fails at the limit. -/
def nested (env : Env) (span : Span) (act : Lower α) : Lower α := fun s =>
  if env.settings.maxDepth ≤ s.depth then .error ⟨.depthLimit env.settings.maxDepth, span⟩ s
  else bracket (fun s => { s with depth := s.depth + 1 }) (fun s => { s with depth := s.depth - 1 }) act s

/-! ## Parts of the state -/

def scope : Lower Scope := return (← get).scope

def bind (name : String) (mutability : Mutability) (ty : Ty) : Lower Unit :=
  modify fun s => { s with scope := s.scope.bind name mutability ty }

def bindAll (bindings : List (String × Ty)) : Lower Unit :=
  modify fun s => { s with scope := s.scope.bindAll bindings }

def fresh : Lower String := modifyGet fun s => (s.names.fresh.1, { s with names := s.names.fresh.2 })

def freshFlag : Lower String := modifyGet fun s => (s.names.freshFlag.1, { s with names := s.names.freshFlag.2 })

def notePackage (env : Env) (package : String) : Lower Unit :=
  modify fun s =>
    if env.catalog.imports.isDotImported package && !s.dotUsed.contains package then
      { s with dotUsed := package :: s.dotUsed }
    else s

/-! ## Inference in the current scope -/

def inference (env : Env) : Lower Inference := return ⟨env, (← get).typeParams⟩

def ask (env : Env) (question : Inference → Query α) : Lower α := fun s =>
  let (a, scope) := (question ⟨env, s.typeParams⟩).run s.scope
  .ok a { s with scope := scope }

/-- The type of an expression, a wrapper looked through. -/
def typeOf (env : Env) (e : Located Source.Expr) : Lower Ty :=
  return (← ask env (·.ask e)).unwrap

/-- Compiles a pattern, taking temporaries from the supply. -/
def compilePattern (env : Env) (p : Located Source.Pattern) (subject : Target.Expr) (ty : Ty) :
    Lower Match.CompiledPattern := fun s =>
  let (compiled, names) := Match.compile env p subject ty s.names
  ofChecked compiled { s with names := names }

end Lower

end Lowering
