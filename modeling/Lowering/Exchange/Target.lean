/-
  Exchange.Target — target trees in the exchange format.

  Target trees are handed over as values, so the fields of their alternatives are named.
-/

import Lowering.Exchange.Source
import Lowering.Target.Tree

namespace Lowering.Exchange

namespace Target

open Lowering.Target

/-! ## Expressions and statements -/

def field? : Json → Option Target.Field := record? (Target.Field.mk <$> field "name" string? <*> field "ty" ty?)

def ofField (f : Target.Field) : Json := .object [("name", .string f.name), ("ty", ofTy f.ty)]

/-- A literal or nil. -/
def lit? (j : Json) : Option Expr := do
  match ← Tagged.read? j with
  | .bare "Nil" => some .nil
  | .bare _ => none
  | .carrying "Nil" .null => some .nil
  | .carrying tag payload => (literal? tag payload).map .lit

mutual

def exprUpTo? : Nat → Json → Option Expr
  | 0, _ => none
  | fuel + 1, j => do
    let expr := exprUpTo? fuel
    match ← Tagged.read? j with
    | .bare _ => none
    | .carrying tag payload =>
      match tag with
      | "Ident" => (string? payload).map .ident
      | "Lit" => lit? payload
      | "Type" => (ty? payload).map .type
      | "Selector" => named? (.selector <$> field "x" expr <*> field "sel" string?) payload
      | "Call" => named? (.call <$> field "fun" expr <*> field "type_args" tys? <*> field "args" (list? expr)) payload
      | "Index" => named? (.index <$> field "x" expr <*> field "index" expr) payload
      | "Binary" => named? (.binary <$> field "op" binaryOp? <*> field "left" expr <*> field "right" expr) payload
      | "Unary" => named? (.unary <$> field "op" unaryOp? <*> field "x" expr) payload
      | "FuncLit" =>
        named? (.funcLit <$> field "params" (list? field?) <*> field "results" tys?
          <*> field "body" (list? (stmtUpTo? fuel))) payload
      | "Composite" => named? (.composite <$> field "ty" ty? <*> field "elts" (list? (elementUpTo? fuel))) payload
      | "TypeAssert" => named? (.typeAssert <$> field "x" expr <*> field "ty" ty?) payload
      | "Paren" => (expr payload).map .paren
      | _ => none

def elementUpTo? : Nat → Json → Option Element
  | 0, _ => none
  | fuel + 1, j => record? (Element.mk <$> optional "key" string? <*> field "value" (exprUpTo? fuel)) j

def stmtUpTo? : Nat → Json → Option Stmt
  | 0, _ => none
  | fuel + 1, j => do
    let expr := exprUpTo? fuel
    let body := list? (stmtUpTo? fuel)
    match ← Tagged.read? j with
    | .bare _ => none
    | .carrying tag payload =>
      match tag with
      | "Define" => named? (.define <$> field "names" strings? <*> field "values" (list? expr)) payload
      | "Var" => named? (.var <$> field "name" string? <*> field "ty" ty? <*> optional "value" expr) payload
      | "Assign" =>
        named? (.assign <$> field "targets" (list? expr) <*> optional "op" binaryOp?
          <*> field "values" (list? expr)) payload
      | "Expr" => (expr payload).map .expr
      | "Return" => (list? expr payload).map .ret
      | "If" => named? (.ifElse <$> field "cond" expr <*> field "then" body <*> field "els" body) payload
      | "For" => named? (.loop <$> optional "cond" expr <*> field "body" body) payload
      | "Block" => (body payload).map .block
      | _ => none

end

def expr? (j : Json) : Option Expr := exprUpTo? (j.depth + 1) j

def stmt? (j : Json) : Option Stmt := stmtUpTo? (j.depth + 1) j

mutual

def ofExpr : Expr → Json
  | .ident name => tagged "Ident" (.string name)
  | .lit value => tagged "Lit" (tagged (ofLiteral value).1 (ofLiteral value).2)
  | .nil => tagged "Lit" (.string "Nil")
  | .type ty => tagged "Type" (ofTy ty)
  | .selector x sel => tagged "Selector" (.object [("x", ofExpr x), ("sel", .string sel)])
  | .call callee typeArgs args =>
    tagged "Call" (.object [("fun", ofExpr callee), ("type_args", ofTys typeArgs), ("args", .array (ofExprList args))])
  | .index x index => tagged "Index" (.object [("x", ofExpr x), ("index", ofExpr index)])
  | .binary op left right =>
    tagged "Binary" (.object [("op", ofBinaryOp op), ("left", ofExpr left), ("right", ofExpr right)])
  | .unary op x => tagged "Unary" (.object [("op", ofUnaryOp op), ("x", ofExpr x)])
  | .funcLit params results body =>
    tagged "FuncLit"
      (.object [("params", ofList ofField params), ("results", ofTys results), ("body", .array (ofStmtList body))])
  | .composite ty elements =>
    tagged "Composite" (.object [("ty", ofTy ty), ("elts", .array (ofElementList elements))])
  | .typeAssert x ty => tagged "TypeAssert" (.object [("x", ofExpr x), ("ty", ofTy ty)])
  | .paren x => tagged "Paren" (ofExpr x)

def ofExprList : List Expr → List Json
  | [] => []
  | e :: es => ofExpr e :: ofExprList es

def ofOptionExpr : Option Expr → Json
  | none => .null
  | some e => ofExpr e

def ofElementList : List Element → List Json
  | [] => []
  | ⟨key, value⟩ :: es => .object [("key", ofOption Json.string key), ("value", ofExpr value)] :: ofElementList es

def ofStmt : Stmt → Json
  | .define names values =>
    tagged "Define" (.object [("names", ofStrings names), ("values", .array (ofExprList values))])
  | .var name ty value =>
    tagged "Var" (.object [("name", .string name), ("ty", ofTy ty), ("value", ofOptionExpr value)])
  | .assign targets op values =>
    tagged "Assign" (.object [("targets", .array (ofExprList targets)), ("op", ofOption ofBinaryOp op),
      ("values", .array (ofExprList values))])
  | .expr e => tagged "Expr" (ofExpr e)
  | .ret values => tagged "Return" (.array (ofExprList values))
  | .ifElse cond thenBody els =>
    tagged "If" (.object [("cond", ofExpr cond), ("then", .array (ofStmtList thenBody)), ("els", .array (ofStmtList els))])
  | .loop cond body => tagged "For" (.object [("cond", ofOptionExpr cond), ("body", .array (ofStmtList body))])
  | .block body => tagged "Block" (.array (ofStmtList body))

def ofStmtList : List Stmt → List Json
  | [] => []
  | s :: ss => ofStmt s :: ofStmtList ss

end

/-! ## Declarations and files -/

def typeParam? : Json → Option TypeParam := record? (TypeParam.mk <$> field "name" string? <*> field "constraint" ty?)

def ofTypeParam (p : TypeParam) : Json := .object [("name", .string p.name), ("constraint", ofTy p.constraint)]

def funcDecl? : Json → Option FuncDecl :=
  record? (FuncDecl.mk <$> field "name" string? <*> field "type_params" (list? typeParam?)
    <*> optional "receiver" field? <*> field "params" (list? field?) <*> field "results" tys?
    <*> field "body" (list? stmt?))

def ofFuncDecl (d : FuncDecl) : Json :=
  .object [("name", .string d.name), ("type_params", ofList ofTypeParam d.typeParams),
    ("receiver", ofOption ofField d.receiver), ("params", ofList ofField d.params), ("results", ofTys d.results),
    ("body", ofList ofStmt d.body)]

def decl? (j : Json) : Option Decl := do
  match ← Tagged.read? j with
  | .carrying "Func" payload => (funcDecl? payload).map .func
  | .carrying "Struct" payload =>
    named? (.struct <$> field "name" string? <*> field "type_params" (list? typeParam?)
      <*> field "fields" (list? field?)) payload
  | .carrying "Alias" payload =>
    named? (.typeAlias <$> field "name" string? <*> field "type_params" (list? typeParam?) <*> field "ty" ty?) payload
  | .carrying "Var" payload =>
    named? (.var <$> field "name" string? <*> optional "ty" ty? <*> optional "value" expr?) payload
  | .carrying "Const" payload =>
    named? (.const <$> field "name" string? <*> optional "ty" ty? <*> field "value" expr?) payload
  | _ => none

def ofDecl : Decl → Json
  | .func d => tagged "Func" (ofFuncDecl d)
  | .struct name typeParams fields =>
    tagged "Struct" (.object [("name", .string name), ("type_params", ofList ofTypeParam typeParams),
      ("fields", ofList ofField fields)])
  | .typeAlias name typeParams ty =>
    tagged "Alias" (.object [("name", .string name), ("type_params", ofList ofTypeParam typeParams), ("ty", ofTy ty)])
  | .var name ty value =>
    tagged "Var" (.object [("name", .string name), ("ty", ofOption ofTy ty), ("value", ofOption ofExpr value)])
  | .const name ty value =>
    tagged "Const" (.object [("name", .string name), ("ty", ofOption ofTy ty), ("value", ofExpr value)])

def import? : Json → Option Import := record? (Import.mk <$> optional "alias" string? <*> field "path" string?)

def ofImport (i : Import) : Json := .object [("alias", ofOption Json.string i.aliasName), ("path", .string i.path)]

def file? : Json → Option File :=
  record? (File.mk <$> field "package" string? <*> field "imports" (list? import?) <*> field "decls" (list? decl?))

def ofFile (f : File) : Json :=
  .object [("package", .string f.package), ("imports", ofList ofImport f.imports), ("decls", ofList ofDecl f.decls)]

end Target

end Lowering.Exchange
