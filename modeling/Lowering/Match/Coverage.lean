/-
  Match.Coverage — a match has a clause for every value.

  A default clause, `_` or a bare name without a guard, covers everything; there is at most one and it comes last.
  Without one the subject must have a closed set of shapes, each with an unguarded clause that matches all of it:
  the variants of a sealed type, or the two truth values.
-/

import Lowering.Match.Extraction

namespace Lowering.Match

open Source (Pattern Clause)

structure Coverage where
  default : Option Nat
  /-- The other clauses alone cover every value. -/
  isExhaustive : Bool

def Coverage.needsPanic (c : Coverage) : Bool := c.default.isNone

/-- Matches every value. -/
def isDefault (env : Env) (c : Clause) : Bool :=
  c.guard.isNone && c.pattern.val.isIrrefutable && (extractorCall? env c.pattern.val).isNone

/-- The position of the default clause; what comes after one is refused. -/
def defaultClause (env : Env) : (found : Option Nat) → (position : Nat) → List Clause → Checked (Option Nat)
  | found, _, [] => pure found
  | found, position, c :: cs =>
    match isDefault env c, found with
    | false, none => defaultClause env none (position + 1) cs
    | true, none => defaultClause env (some position) (position + 1) cs
    | false, some _ => (Fault.unreachableClause c.pattern.val).raise c.pattern.span
    | true, some _ => Fault.repeatedDefault.raise c.pattern.span

/-! ## Closed subjects -/

def coversBool (b : Bool) (c : Clause) : Bool :=
  c.guard.isNone && match c.pattern.val with
    | .literal (.bool v) => v == b
    | _ => false

/-- The variant of the sealed type `e` that the clause matches all of. A variant of the same
    name from elsewhere does not count. -/
def coveredVariant? (env : Env) (e : TypeEntry) (c : Clause) : Option String := do
  if c.guard.isSome then none
  let call ← extractorCall? env c.pattern.val
  let head ← env.type? call.head
  if head.package == e.package && e.variants.contains head.name && call.args.all (·.val.isIrrefutable) then
    some (Text.bareName call.head)
  else none

/-- The shapes no clause covers; `none` when the subject's shapes are not a closed set. -/
def missingShapes (env : Env) (clauses : List Clause) (subject : Ty) : Option (List String) :=
  let subject := env.expand subject
  if subject.isBool then
    some (([(true, "true"), (false, "false")].filter fun (b, _) => !clauses.any (coversBool b)).map (·.2))
  else do
    let e ← (env.entry? subject).filter (·.isSealed)
    let covered := clauses.filterMap (coveredVariant? env e)
    some (e.variants.filter fun v => !covered.contains v)

/-! ## The check -/

def checkCoverage (env : Env) (clauses : List Clause) (subject : Ty) (span : Span) : Checked Coverage := do
  let default ← defaultClause env none 0 clauses
  let missing := missingShapes env clauses subject
  if default.isNone then
    match missing with
    | some [] => pure ()
    | some missing => (Fault.notExhaustive missing).raise span
    | none => (Fault.defaultNeeded subject).raise span
  pure ⟨default, missing.any List.isEmpty⟩

end Lowering.Match
