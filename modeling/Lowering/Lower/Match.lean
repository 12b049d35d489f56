/-
  Lower.Match — matches as conditionals.

  Every clause becomes a run of conditionals around its body. In tail position the bodies return; in effect
  position a flag keeps later clauses from running once one has run. Without a clause that always matches and
  without a default a match ends in a panic.
-/

import Lowering.Lower.Piece
import Lowering.Match.Coverage

namespace Lowering.Lower

open Target (Expr Stmt)

/-- The subject as an expression that can be evaluated repeatedly, and how it is defined. -/
def matchSubject (subject : Piece) : Lower (List Stmt × Expr) := do
  let lowered ← subject.value none
  if lowered.isPureRead then pure ([], lowered)
  else
    let tmp ← fresh
    pure ([.define1 tmp lowered], .ident tmp)

/-- The flag of a match of several clauses in effect position. -/
def matchFlag (position : Position) (clauses : Nat) : Lower (Option String) :=
  match position with
  | .effect => if 1 < clauses then some <$> freshFlag else pure none
  | .tail _ => pure none

def unlessSet (flag : String) (body : List Stmt) : Stmt := .guarded (.not (.ident flag)) body

/-- Results of the clauses that have one; a body without a value returns or panics itself. -/
def clauseResults (clauses : List ClausePiece) (types : List Ty) : List Match.ClauseResult :=
  ((clauses.zip types).filter fun (_, ty) => !ty.isVoid).map fun (c, ty) =>
    ⟨c.source.pattern.val, ty, c.source.body.val.isNumericLiteral⟩

/-- Refuses clauses that disagree with each other or with the result of the match. -/
def checkAgreement (env : Env) (clauses : List ClausePiece) (subject result : Ty) (span : Span) : Lower Unit := do
  let inf ← inference env
  let types ← ask env (·.askClauses subject (clauses.map (·.source)))
  let declared := if result.isAny then none else some result
  let _ ← ofChecked (Match.agree inf.typeParams declared span (clauseResults clauses types))

def withGuard (compiled : Match.CompiledPattern) (guard : Option Piece) : Lower Match.CompiledPattern :=
  match guard with
  | none => pure compiled
  | some guard => do
    let cond ← guard.value (some .bool)
    pure (compiled.guard cond)

def clauseBody (body : Piece) (position : Position) : Lower (List Stmt) :=
  match position with
  | .effect => body.effect
  | .tail result => body.tail result

def setFlag : Option String → List Stmt
  | some flag => [.assign1 (.ident flag) (.bool true)]
  | none => []

/-- One clause, and whether it always matches. Bindings the clause never reads are left out. -/
def lowerClause (env : Env) (clause : ClausePiece) (subject : Expr) (ty : Ty) (position : Position)
    (flag : Option String) : Lower (List Stmt × Bool) := do
  let compiled ← compilePattern env clause.source.pattern subject ty
  withScope do
    bindAll compiled.bindings
    let compiled ← withGuard compiled clause.guard
    let body ← clauseBody clause.body position
    pure (compiled.assemble clause.source.references (setFlag flag ++ body), compiled.isUnconditional)

def placeClause (flag : Option String) (stmts : List Stmt) (always : Bool) : List Stmt :=
  match flag with
  | some flag => [unlessSet flag stmts]
  | none => if !always && 1 < stmts.length then [.block stmts] else stmts

/-- The chain of clauses, and whether one of them always matches. -/
def lowerClauses (env : Env) (subject : Expr) (ty : Ty) (position : Position) (flag : Option String) :
    List ClausePiece → Lower (List Stmt × Bool)
  | [] => pure ([], false)
  | clause :: clauses => do
    let (stmts, always) ← lowerClause env clause subject ty position flag
    let placed := placeClause flag stmts always
    if always then pure (placed, true)
    else
      let (rest, exhausted) ← lowerClauses env subject ty position flag clauses
      pure (placed ++ rest, exhausted)

def unreachable (ty : Ty) (flag : Option String) : Stmt :=
  let panic := Stmt.expr (.apply (.ident "panic") [.string ("unreachable: no case matched a `" ++ ty.render ++ "`")])
  match flag with
  | some flag => unlessSet flag [panic]
  | none => panic

def lowerMatch (env : Env) (subject : Piece) (clauses : List ClausePiece) (position : Position) (span : Span) :
    Lower (List Stmt) := do
  let ty ← typeOf env subject.source
  if ty.isNil || ty.isVoid then fail .subjectType subject.source.span
  let coverage ← ofChecked (Match.checkCoverage env (clauses.map (·.source)) ty span)
  match position with
  | .tail result => checkAgreement env clauses ty result span
  | .effect => pure ()
  let (start, value) ← matchSubject subject
  let flag ← matchFlag position clauses.length
  let (chain, exhausted) ← lowerClauses env value ty position flag clauses
  let flagStart := match flag with
    | some flag => [Stmt.define1 flag (.bool false)]
    | none => []
  let ending := if !exhausted && coverage.needsPanic then [unreachable ty flag] else []
  pure (start ++ flagStart ++ chain ++ ending)

end Lowering.Lower
