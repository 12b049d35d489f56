/-
  Exchange.Source — source trees in the exchange format.

  Readers of trees carry fuel, which the depth of the value bounds: every node lies deeper than its parent.
-/

import Lowering.Exchange.Types
import Lowering.Source.Program

namespace Lowering.Exchange

open Source

/-! ## Operators and literals -/

def binaryTag : BinaryOp → String
  | .add => "Add" | .sub => "Sub" | .mul => "Mul" | .div => "Div" | .mod => "Mod"
  | .eq => "Eq" | .ne => "Ne" | .lt => "Lt" | .gt => "Gt" | .le => "Le" | .ge => "Ge"
  | .and => "And" | .or => "Or"
  | .bitAnd => "BitAnd" | .bitOr => "BitOr" | .bitXor => "BitXor" | .shl => "Shl" | .shr => "Shr"

def binaryOps : List BinaryOp :=
  [.add, .sub, .mul, .div, .mod, .eq, .ne, .lt, .gt, .le, .ge, .and, .or, .bitAnd, .bitOr, .bitXor, .shl, .shr]

def binaryOp? (j : Json) : Option BinaryOp := do
  let tag ← bareTag? j
  binaryOps.find? (binaryTag · == tag)

def ofBinaryOp (op : BinaryOp) : Json := .string (binaryTag op)

def unaryTag : UnaryOp → String
  | .neg => "Neg"
  | .not => "Not"
  | .bitNot => "BitNot"

def unaryOp? (j : Json) : Option UnaryOp := do
  let tag ← bareTag? j
  [UnaryOp.neg, .not, .bitNot].find? (unaryTag · == tag)

def ofUnaryOp (op : UnaryOp) : Json := .string (unaryTag op)

/-- A literal under one of the given tags, for the five forms in order. -/
def literal? (tag : String) (payload : Json) : Option Literal :=
  match tag with
  | "Int" => (int? payload).map .int
  | "Float" => (float? payload).map .float
  | "String" => (string? payload).map .string
  | "Char" => (char? payload).map .char
  | "Bool" => (bool? payload).map .bool
  | _ => none

def ofLiteral : Literal → String × Json
  | .int n => ("Int", .int n)
  | .float x => ("Float", .float x)
  | .string s => ("String", .string s)
  | .char c => ("Char", .string (String.singleton c))
  | .bool b => ("Bool", .bool b)

/-! ## Patterns -/

def patternUpTo? (form : Payload) : Nat → Json → Option Pattern
  | 0, _ => none
  | fuel + 1, j => do
    match ← Tagged.read? j with
    | .bare "Wildcard" => some .wildcard
    | .carrying "Wildcard" .null => some .wildcard
    | .carrying "Ident" payload => (string? payload).map .ident
    | .carrying "Literal" payload =>
      match ← Tagged.read? payload with
      | .carrying tag payload => (literal? tag payload).map .literal
      | .bare _ => none
    | .carrying "Typed" payload => form.read? (.typed <$> field "name" string? <*> field "ty" ty?) payload
    | .carrying "Extractor" payload =>
      form.read? (.extractor <$> field "head" string? <*> field "type_args" tys?
        <*> field "args" (list? (located? (patternUpTo? form fuel)))) payload
    | .carrying "Tuple" payload => (list? (located? (patternUpTo? form fuel)) payload).map .tuple
    | .carrying "Rest" payload => (option? string? payload).map .rest
    | _ => none

def pattern? (form : Payload) (j : Json) : Option Pattern := patternUpTo? form (j.depth + 1) j

mutual

def ofPattern : Pattern → Json
  | .wildcard => .string "Wildcard"
  | .ident name => tagged "Ident" (.string name)
  | .literal value => tagged "Literal" (tagged (ofLiteral value).1 (ofLiteral value).2)
  | .typed name ty => tagged "Typed" (.object [("name", .string name), ("ty", ofTy ty)])
  | .extractor head typeArgs args =>
    tagged "Extractor"
      (.object [("head", .string head), ("type_args", ofTys typeArgs), ("args", .array (ofPatternList args))])
  | .tuple elems => tagged "Tuple" (.array (ofPatternList elems))
  | .rest name => tagged "Rest" (ofOption Json.string name)

def ofPatternList : List (Located Pattern) → List Json
  | [] => []
  | ⟨p, span⟩ :: ps => .object [("node", ofPattern p), ("span", ofSpan span)] :: ofPatternList ps

end

/-! ## Expressions and statements -/

def lambdaParam? : Json → Option LambdaParam :=
  record? (LambdaParam.mk <$> field "name" string? <*> optional "ty" ty?)

def ofLambdaParam (p : LambdaParam) : Json := .object [("name", .string p.name), ("ty", ofOption ofTy p.ty)]

mutual

def exprUpTo? (form : Payload) : Nat → Json → Option Expr
  | 0, _ => none
  | fuel + 1, j => do
    let expr := located? (exprUpTo? form fuel)
    match ← Tagged.read? j with
    | .bare "Nil" => some .nil
    | .bare _ => none
    | .carrying tag payload =>
      match tag with
      | "Nil" => match payload with
        | .null => some .nil
        | _ => none
      | "IntLit" => (literal? "Int" payload).map .lit
      | "FloatLit" => (literal? "Float" payload).map .lit
      | "StringLit" => (literal? "String" payload).map .lit
      | "CharLit" => (literal? "Char" payload).map .lit
      | "BoolLit" => (literal? "Bool" payload).map .lit
      | "Ident" => (string? payload).map .ident
      | "Call" =>
        form.read? (.call <$> field "callee" expr <*> field "type_args" tys?
          <*> field "args" (list? (argUpTo? form fuel))) payload
      | "Select" => form.read? (.select <$> field "target" expr <*> field "member" (located? string?)) payload
      | "Index" => form.read? (.index <$> field "target" expr <*> field "index" expr) payload
      | "Binary" => form.read? (.binary <$> field "left" expr <*> field "op" binaryOp? <*> field "right" expr) payload
      | "Unary" => form.read? (.unary <$> field "op" unaryOp? <*> field "expr" expr) payload
      | "Lambda" => form.read? (.lambda <$> field "params" (list? lambdaParam?) <*> field "body" expr) payload
      | "If" =>
        form.read? (.ifElse <$> field "cond" expr <*> field "then_branch" expr
          <*> optional "else_branch" expr) payload
      | "Match" =>
        form.read? (.matchOn <$> field "subject" expr <*> field "clauses" (list? (clauseUpTo? form fuel))) payload
      | "Tuple" => (list? expr payload).map .tuple
      | "PartialFunction" => (list? (clauseUpTo? form fuel) payload).map .caseFunction
      | "Block" => (list? (located? (stmtUpTo? form fuel)) payload).map .block
      | _ => none

def argUpTo? (form : Payload) : Nat → Json → Option Arg
  | 0, _ => none
  | fuel + 1, j =>
    record? (Arg.mk <$> optional "name" (located? string?) <*> field "value" (located? (exprUpTo? form fuel))) j

def clauseUpTo? (form : Payload) : Nat → Json → Option Clause
  | 0, _ => none
  | fuel + 1, j => do
    let expr := located? (exprUpTo? form fuel)
    record? (Clause.mk <$> field "pattern" (located? (pattern? form)) <*> optional "guard" expr
      <*> field "body" expr) j

def valDeclUpTo? (form : Payload) : Nat → Json → Option ValDecl
  | 0, _ => none
  | fuel + 1, j =>
    record? (ValDecl.mk <$> field "name" (located? string?) <*> field "mutable" bool? <*> optional "ty" ty?
      <*> field "value" (located? (exprUpTo? form fuel))) j

def stmtUpTo? (form : Payload) : Nat → Json → Option Stmt
  | 0, _ => none
  | fuel + 1, j => do
    let expr := located? (exprUpTo? form fuel)
    match ← Tagged.read? j with
    | .bare _ => none
    | .carrying tag payload =>
      match tag with
      | "Val" => (valDeclUpTo? form fuel payload).map .val
      | "Assign" =>
        form.read? (.assign <$> field "target" expr <*> optional "op" binaryOp? <*> field "value" expr) payload
      | "Expr" => (expr payload).map .expr
      | "Return" => (option? expr payload).map .ret
      | "While" =>
        form.read? (.loop <$> field "cond" expr <*> field "body" (list? (located? (stmtUpTo? form fuel)))) payload
      | _ => none

end

def expr? (form : Payload) (j : Json) : Option Expr := exprUpTo? form (j.depth + 1) j

def arg? (form : Payload) (j : Json) : Option Arg := argUpTo? form (j.depth + 1) j

def clause? (form : Payload) (j : Json) : Option Clause := clauseUpTo? form (j.depth + 1) j

def valDecl? (form : Payload) (j : Json) : Option ValDecl := valDeclUpTo? form (j.depth + 1) j

def stmt? (form : Payload) (j : Json) : Option Stmt := stmtUpTo? form (j.depth + 1) j

mutual

def ofExpr : Expr → Json
  | .lit value => tagged ((ofLiteral value).1 ++ "Lit") (ofLiteral value).2
  | .nil => .string "Nil"
  | .ident name => tagged "Ident" (.string name)
  | .call callee typeArgs args =>
    tagged "Call"
      (.object [("callee", ofLocatedExpr callee), ("type_args", ofTys typeArgs), ("args", .array (ofArgList args))])
  | .select target member =>
    tagged "Select" (.object [("target", ofLocatedExpr target), ("member", ofLocated Json.string member)])
  | .index target index =>
    tagged "Index" (.object [("target", ofLocatedExpr target), ("index", ofLocatedExpr index)])
  | .binary left op right =>
    tagged "Binary" (.object [("left", ofLocatedExpr left), ("op", ofBinaryOp op), ("right", ofLocatedExpr right)])
  | .unary op operand => tagged "Unary" (.object [("op", ofUnaryOp op), ("expr", ofLocatedExpr operand)])
  | .lambda params body =>
    tagged "Lambda" (.object [("params", ofList ofLambdaParam params), ("body", ofLocatedExpr body)])
  | .ifElse cond thenBranch elseBranch =>
    tagged "If" (.object [("cond", ofLocatedExpr cond), ("then_branch", ofLocatedExpr thenBranch),
      ("else_branch", ofOptionExpr elseBranch)])
  | .matchOn subject clauses =>
    tagged "Match" (.object [("subject", ofLocatedExpr subject), ("clauses", .array (ofClauseList clauses))])
  | .tuple elems => tagged "Tuple" (.array (ofExprList elems))
  | .caseFunction clauses => tagged "PartialFunction" (.array (ofClauseList clauses))
  | .block stmts => tagged "Block" (.array (ofStmtList stmts))

def ofLocatedExpr : Located Expr → Json
  | ⟨e, span⟩ => .object [("node", ofExpr e), ("span", ofSpan span)]

def ofOptionExpr : Option (Located Expr) → Json
  | none => .null
  | some e => ofLocatedExpr e

def ofExprList : List (Located Expr) → List Json
  | [] => []
  | e :: es => ofLocatedExpr e :: ofExprList es

def ofArgList : List Arg → List Json
  | [] => []
  | ⟨name, value⟩ :: args =>
    .object [("name", ofOption (ofLocated Json.string) name), ("value", ofLocatedExpr value)] :: ofArgList args

def ofClause : Clause → Json
  | ⟨pattern, guard, body⟩ =>
    .object [("pattern", ofLocated ofPattern pattern), ("guard", ofOptionExpr guard), ("body", ofLocatedExpr body)]

def ofClauseList : List Clause → List Json
  | [] => []
  | c :: cs => ofClause c :: ofClauseList cs

def ofValDecl : ValDecl → Json
  | ⟨name, mutable, ty, value⟩ =>
    .object [("name", ofLocated Json.string name), ("mutable", .bool mutable), ("ty", ofOption ofTy ty),
      ("value", ofLocatedExpr value)]

def ofStmt : Stmt → Json
  | .val decl => tagged "Val" (ofValDecl decl)
  | .assign target op value =>
    tagged "Assign" (.object [("target", ofLocatedExpr target), ("op", ofOption ofBinaryOp op),
      ("value", ofLocatedExpr value)])
  | .expr e => tagged "Expr" (ofLocatedExpr e)
  | .ret value => tagged "Return" (ofOptionExpr value)
  | .loop cond body => tagged "While" (.object [("cond", ofLocatedExpr cond), ("body", .array (ofStmtList body))])

def ofStmtList : List (Located Stmt) → List Json
  | [] => []
  | ⟨s, span⟩ :: ss => .object [("node", ofStmt s), ("span", ofSpan span)] :: ofStmtList ss

end

/-! ## Declarations -/

def typeParam? : Json → Option TypeParam :=
  record? (TypeParam.mk <$> field "name" string? <*> optional "constraint" ty?)

def ofTypeParam (p : TypeParam) : Json :=
  .object [("name", .string p.name), ("constraint", ofOption ofTy p.constraint)]

def param? : Json → Option Param := record? (Param.mk <$> field "name" (located? string?) <*> field "ty" ty?)

def ofParam (p : Param) : Json := .object [("name", ofLocated Json.string p.name), ("ty", ofTy p.ty)]

def receiver? : Json → Option Receiver := record? (Receiver.mk <$> field "name" string? <*> field "ty" ty?)

def ofReceiver (p : Receiver) : Json := .object [("name", .string p.name), ("ty", ofTy p.ty)]

def funcDecl? (form : Payload) : Json → Option FuncDecl :=
  record? (FuncDecl.mk <$> field "name" (located? string?) <*> field "type_params" (list? typeParam?)
    <*> optional "receiver" receiver? <*> field "params" (list? param?) <*> optional "result" ty?
    <*> field "body" (located? (expr? form)) <*> field "span" span?)

def ofFuncDecl (d : FuncDecl) : Json :=
  .object [("name", ofLocated Json.string d.name), ("type_params", ofList ofTypeParam d.typeParams),
    ("receiver", ofOption ofReceiver d.receiver), ("params", ofList ofParam d.params), ("result", ofOption ofTy d.result),
    ("body", ofLocatedExpr d.body), ("span", ofSpan d.span)]

def structField? : Json → Option StructField :=
  record? (StructField.mk <$> field "name" (located? string?) <*> field "ty" ty? <*> field "mutable" bool?)

def ofStructField (f : StructField) : Json :=
  .object [("name", ofLocated Json.string f.name), ("ty", ofTy f.ty), ("mutable", .bool f.mutable)]

def structDecl? : Json → Option StructDecl :=
  record? (StructDecl.mk <$> field "name" (located? string?) <*> field "type_params" (list? typeParam?)
    <*> field "fields" (list? structField?) <*> field "span" span?)

def ofStructDecl (d : StructDecl) : Json :=
  .object [("name", ofLocated Json.string d.name), ("type_params", ofList ofTypeParam d.typeParams),
    ("fields", ofList ofStructField d.fields), ("span", ofSpan d.span)]

def variant? : Json → Option Variant :=
  record? (Variant.mk <$> field "name" (located? string?) <*> field "fields" (list? structField?))

def ofVariant (v : Variant) : Json :=
  .object [("name", ofLocated Json.string v.name), ("fields", ofList ofStructField v.fields)]

def sealedDecl? : Json → Option SealedDecl :=
  record? (SealedDecl.mk <$> field "name" (located? string?) <*> field "type_params" (list? typeParam?)
    <*> field "variants" (list? variant?) <*> field "span" span?)

def ofSealedDecl (d : SealedDecl) : Json :=
  .object [("name", ofLocated Json.string d.name), ("type_params", ofList ofTypeParam d.typeParams),
    ("variants", ofList ofVariant d.variants), ("span", ofSpan d.span)]

def aliasDecl? : Json → Option AliasDecl :=
  record? (AliasDecl.mk <$> field "name" (located? string?) <*> field "type_params" (list? typeParam?)
    <*> field "ty" ty?)

def ofAliasDecl (d : AliasDecl) : Json :=
  .object [("name", ofLocated Json.string d.name), ("type_params", ofList ofTypeParam d.typeParams), ("ty", ofTy d.ty)]

def decl? (form : Payload) (j : Json) : Option Decl := do
  match ← Tagged.read? j with
  | .carrying "Val" payload => (valDecl? form payload).map .val
  | .carrying "Func" payload => (funcDecl? form payload).map .func
  | .carrying "Struct" payload => (structDecl? payload).map .struct
  | .carrying "Sealed" payload => (sealedDecl? payload).map .sealedType
  | .carrying "TypeAlias" payload => (aliasDecl? payload).map .typeAlias
  | _ => none

def ofDecl : Decl → Json
  | .val d => tagged "Val" (ofValDecl d)
  | .func d => tagged "Func" (ofFuncDecl d)
  | .struct d => tagged "Struct" (ofStructDecl d)
  | .sealedType d => tagged "Sealed" (ofSealedDecl d)
  | .typeAlias d => tagged "TypeAlias" (ofAliasDecl d)

def program? (form : Payload) : Json → Option Program :=
  record? (Program.mk <$> field "package" string? <*> field "decls" (list? (located? (decl? form))))

def ofProgram (p : Program) : Json :=
  .object [("package", .string p.package), ("decls", ofList (ofLocated ofDecl) p.decls)]

end Lowering.Exchange
