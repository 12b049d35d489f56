/-
  Lower.Block — statements and blocks.

  A value binding is stored in the wrapper, a variable as it is. A local that no later statement mentions is
  touched once, because the target refuses unused locals. The last expression of a block with a result is its
  value.
-/

import Lowering.Lower.Names

namespace Lowering.Lower

open Target (Expr Stmt)

/-! ## Bindings -/

def bindingType (env : Env) (decl : Source.ValDecl) : Lower Ty := do
  let ty ← match decl.ty with
    | some ty => pure ty
    | none => typeOf env decl.value
  if ty.isNil || ty.isVoid then fail (.bindingType decl.name.val) decl.name.span
  pure ty

/-- A lowered value as it is stored in a value binding. A read of a wrapper keeps it. -/
def storeValue (env : Env) (source : Located Source.Expr) (value : Expr) (ty : Ty) : Lower Expr := do
  if ← isWrapperRead env source.val then ofChecked (Storage.rewrap env value ty source.span)
  else ofChecked (Storage.wrap env value ty source.span)

def lowerLocal (env : Env) (decl : Source.ValDecl) (value : Piece) : Lower (List Stmt) := do
  let ty ← bindingType env decl
  let lowered ← value.value (some ty)
  let name := decl.name.val
  if decl.mutable then
    bind name .var ty
    pure [.var name ty (some lowered)]
  else
    let stored ← storeValue env decl.value lowered ty
    let wrapper ← ofChecked (Storage.wrapperType env ty decl.name.span)
    bind name .val wrapper
    pure [.define1 name stored]

def valStmt (env : Env) (decl : Source.ValDecl) (value : Piece) : StmtPiece where
  source := .val decl
  run later := do
    let stmts ← lowerLocal env decl value
    let name := decl.name.val
    pure (if later.any (·.references name) then stmts else stmts ++ [.discard (.ident name)])
  expr := none

/-! ## Assignments -/

/-- The place an assignment writes to and the type it holds. Writes to value bindings, to
    fields not declared `var` and into sequences are refused. -/
def assignTarget (env : Env) (target : Piece) (span : Span) : Lower (Expr × Ty) := do
  match target.source.val, target.parts with
  | .ident name, _ =>
    let scope ← scope
    ofChecked (Storage.checkAssignBinding scope name target.source.span)
    pure (.ident name, scope.typeOf name)
  | .select _ member, [receiver] =>
    let ty ← typeOf env receiver.source
    ofChecked (Storage.checkAssignField env ty member.val member.span)
    let fieldType := ((env.field? ty member.val).map (·.ty)).getD .nil
    let lowered ← receiver.value none
    pure (.selector lowered member.val, fieldType)
  | .index _ _, [sequence, index] =>
    let assign (elem : Ty) : Lower (Expr × Ty) := do
      let x ← sequence.value none
      let i ← index.value none
      pure (.index x i, elem)
    match ← typeOf env sequence.source with
    | .array elem => assign elem
    | .map _ elem => assign elem
    | other => fail (.assignThroughIndex other) target.source.span
  | _, _ => fail .assignToNothing span

def assignStmt (env : Env) (target : Piece) (op : Option BinaryOp) (value : Piece) (span : Span) : StmtPiece where
  source := .assign target.source op value.source
  run _ := do
    let (place, ty) ← assignTarget env target span
    let lowered ← value.value (if ty.isNil then none else some ty)
    pure [.assign [place] op [lowered]]
  expr := none

/-! ## Other statements -/

def exprStmt (e : Piece) : StmtPiece where
  source := .expr e.source
  run _ := e.effect
  expr := some e

/-- A `return` from the innermost function, which must be one of the program. -/
def lowerReturn (value : Option Piece) (span : Span) : Lower (List Stmt) := do
  match (← get).functions with
  | [] => fail .returnOutsideFunction span
  | function :: _ =>
    if function.synthetic then fail .returnInsideValue span
    match value with
    | none => if function.result.isVoid then pure [.ret []] else fail (.returnWithoutValue function.result) span
    | some value =>
      if function.result.isVoid then do
        let stmts ← value.effect
        pure (stmts ++ [.ret []])
      else value.tail function.result

def returnStmt (value : Option Piece) (span : Span) : StmtPiece where
  source := .ret (value.map (·.source))
  run _ := lowerReturn value span
  expr := none

/-! ## Blocks -/

/-- Statements in order; with a result the last expression is in tail position. -/
def lowerStmts (result : Ty) : List StmtPiece → Lower (List Stmt)
  | [] => pure []
  | [last] =>
    match last.expr with
    | some e => if result.isVoid then last.run [] else e.tail result
    | none => last.run []
  | stmt :: later => do
    let stmts ← stmt.run (later.map (·.source))
    let rest ← lowerStmts result later
    pure (stmts ++ rest)

/-- A block in its own scope. With a result, control must not fall off its end. -/
def lowerBlock (stmts : List StmtPiece) (result : Ty) (span : Span) : Lower (List Stmt) :=
  withScope do
    let lowered ← lowerStmts result stmts
    if !result.isVoid && !Stmt.terminates lowered then fail (.blockWithoutValue result) span
    pure lowered

def loopStmt (cond : Piece) (body : List StmtPiece) (source : Located Source.Stmt) : StmtPiece where
  source := source.val
  run _ := do
    let lowered ← cond.value (some .bool)
    let stmts ← lowerBlock body .void source.span
    pure [.loop (some lowered) stmts]
  expr := none

/-- A block as an expression; one of a single expression is that expression. -/
def blockPiece (env : Env) (source : Located Source.Expr) (stmts : List StmtPiece) : Piece :=
  let span := source.span
  let braces (result : Ty) : Lower (List Stmt) := do
    let body ← lowerBlock stmts result span
    pure [.block body]
  let piece := Piece.ofStmts env source braces (braces .void)
  let value := match stmts with
    | [⟨_, _, some e⟩] => fun expected => nested env span (e.value expected)
    | _ => piece.value
  { piece with value := value, body := fun result => lowerBlock stmts result span }

def ifPiece (env : Env) (source : Located Source.Expr) (cond thenBranch : Piece) (elseBranch : Option Piece) : Piece :=
  .ofStmts env source
    (fun result => do
      match elseBranch with
      | none => fail (.ifWithoutElse result) source.span
      | some elseBranch =>
        let c ← cond.value (some .bool)
        let t ← thenBranch.tail result
        let e ← elseBranch.tail result
        pure [.ifElse c t e])
    (do
      let c ← cond.value (some .bool)
      let t ← thenBranch.effect
      let e ← match elseBranch with
        | some elseBranch => elseBranch.effect
        | none => pure []
      pure [.ifElse c t e])

end Lowering.Lower
