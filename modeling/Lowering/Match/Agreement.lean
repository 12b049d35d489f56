/-
  Match.Agreement — one result type for all clauses of a match.

  The reference is the declared type, or else the first clause type, that is concrete and neither `any` nor a type
  parameter. Every clause must be compatible with it, or be a bare numeric literal under a numeric reference.
  Without a reference the match has type `any`.
-/

import Lowering.Diagnostic

namespace Lowering

namespace Ty

/-- Fits whatever stands on the other side. -/
def isFlexible (typeParams : List String) (t : Ty) : Bool := t.isAny || t.isNil || t.isParam typeParams

mutual

/-- The types agree, or one of them is flexible, or they are instances of the same generic
    type with compatible arguments. -/
def compatible (typeParams : List String) : Ty → Ty → Bool
  | .generic base args, b =>
    Ty.generic base args == b || b.isFlexible typeParams ||
      match b with
      | .generic base' args' =>
        base.baseName == base'.baseName && args.length == args'.length && allCompatible typeParams args args'
      | _ => false
  | a, b => a == b || a.isFlexible typeParams || b.isFlexible typeParams

def allCompatible (typeParams : List String) : List Ty → List Ty → Bool
  | [], _ => true
  | a :: as, bs =>
    match bs with
    | [] => true
    | b :: bs => a.compatible typeParams b && allCompatible typeParams as bs

end

def isReference (typeParams : List String) (t : Ty) : Bool :=
  t.isConcrete && !t.isAny && !t.isParam typeParams

end Ty

namespace Match

structure ClauseResult where
  pattern : Source.Pattern
  ty : Ty
  /-- The body is a bare numeric literal, which converts to any numeric type. -/
  numericLiteral : Bool

def reference? (typeParams : List String) (declared : Option Ty) (types : List Ty) : Option Ty :=
  declared.filter (Ty.isReference typeParams) <|> types.find? (Ty.isReference typeParams)

namespace ClauseResult

def fits (typeParams : List String) (reference : Ty) (c : ClauseResult) : Bool :=
  (c.numericLiteral && reference.isNumeric) || reference.compatible typeParams c.ty

end ClauseResult

/-- The result type of a match. A conflict names the clause the reference came from, if any,
    and the first clause that does not fit. -/
def agree (typeParams : List String) (declared : Option Ty) (span : Span) (clauses : List ClauseResult) : Checked Ty :=
  if !clauses.isEmpty && clauses.all (·.ty.isVoid) then pure .void
  else match reference? typeParams declared (clauses.map (·.ty)) with
    | none => pure .any
    | some reference =>
      match clauses.find? fun c => !c.fits typeParams reference with
      | none => pure reference
      | some c =>
        let origin := (clauses.find? (·.ty == reference)).map (·.pattern)
        (Fault.clausesDisagree reference origin c.pattern c.ty).raise span

end Match

end Lowering
