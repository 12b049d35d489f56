/-
  Target.Render — a readable text of the target tree.

  One tab per level of nesting. A binary operation and a function literal stand in parentheses wherever they are
  an operand.
-/

import Lowering.Target.Tree

namespace Lowering.Target

/-! ## Lines and lists -/

def tabs (depth : Nat) : String := String.ofList (List.replicate depth '\t')

def line (depth : Nat) (text : String) : String := tabs depth ++ text ++ "\n"

def commas (texts : List String) : String := ", ".intercalate texts

def openBrace : String := " \x7b"

def closeBrace : String := "\x7d"

def fieldsText (fields : List Field) : String := commas (fields.map fun f => f.name ++ " " ++ f.ty.render)

def typeParamsText (params : List TypeParam) : String :=
  if params.isEmpty then ""
  else "[" ++ commas (params.map fun p => p.name ++ " " ++ p.constraint.render) ++ "]"

def typeArgsText (args : List Ty) : String :=
  if args.isEmpty then "" else "[" ++ commas (Ty.renderList args) ++ "]"

def resultsText (results : List Ty) : String := Ty.resultText (Ty.renderList results)

/-- Parentheses around the text of an operand that needs them. -/
def asOperand (x : Expr) (text : String) : String :=
  match x with
  | .binary _ _ _ | .funcLit _ _ _ => "(" ++ text ++ ")"
  | _ => text

/-! ## Expressions and statements -/

mutual

/-- An expression inside a statement at the given depth. -/
def Expr.renderAt (depth : Nat) : Expr → String
  | .ident name => name
  | .lit value => value.render
  | .nil => "nil"
  | .type ty => ty.render
  | .selector x sel => asOperand x (x.renderAt depth) ++ "." ++ sel
  | .call callee typeArgs args =>
    asOperand callee (callee.renderAt depth) ++ typeArgsText typeArgs ++ "(" ++ commas (Expr.renderList depth args) ++ ")"
  | .index x index => asOperand x (x.renderAt depth) ++ "[" ++ index.renderAt depth ++ "]"
  | .binary op left right =>
    asOperand left (left.renderAt depth) ++ " " ++ op.render ++ " " ++ asOperand right (right.renderAt depth)
  | .unary op x => op.render ++ asOperand x (x.renderAt depth)
  | .funcLit params results body =>
    "func(" ++ fieldsText params ++ ")" ++ resultsText results ++ openBrace ++ "\n"
      ++ Stmt.renderBlock (depth + 1) body ++ tabs depth ++ closeBrace
  | .composite ty elements => ty.render ++ "\x7b" ++ commas (Element.renderList depth elements) ++ closeBrace
  | .typeAssert x ty => asOperand x (x.renderAt depth) ++ ".(" ++ ty.render ++ ")"
  | .paren x => "(" ++ x.renderAt depth ++ ")"

def Expr.renderList (depth : Nat) : List Expr → List String
  | [] => []
  | x :: xs => x.renderAt depth :: Expr.renderList depth xs

def Element.renderList (depth : Nat) : List Element → List String
  | [] => []
  | ⟨none, value⟩ :: rest => value.renderAt depth :: Element.renderList depth rest
  | ⟨some key, value⟩ :: rest => (key ++ ": " ++ value.renderAt depth) :: Element.renderList depth rest

def Stmt.renderAt (depth : Nat) : Stmt → String
  | .define names values => line depth (commas names ++ " := " ++ commas (Expr.renderList depth values))
  | .var name ty none => line depth ("var " ++ name ++ " " ++ ty.render)
  | .var name ty (some value) =>
    line depth ("var " ++ name ++ " " ++ ty.render ++ " = " ++ value.renderAt depth)
  | .assign targets op values =>
    let sign := match op with
      | some op => " " ++ op.render ++ "= "
      | none => " = "
    line depth (commas (Expr.renderList depth targets) ++ sign ++ commas (Expr.renderList depth values))
  | .expr e => line depth (e.renderAt depth)
  | .ret [] => line depth "return"
  | .ret (value :: values) =>
    line depth ("return " ++ commas (value.renderAt depth :: Expr.renderList depth values))
  | .ifElse cond thenBody els =>
    line depth ("if " ++ cond.renderAt depth ++ openBrace) ++ Stmt.renderBlock (depth + 1) thenBody
      ++ Stmt.renderElse depth els
  | .loop none body =>
    line depth ("for" ++ openBrace) ++ Stmt.renderBlock (depth + 1) body ++ line depth closeBrace
  | .loop (some cond) body =>
    line depth ("for " ++ cond.renderAt depth ++ openBrace) ++ Stmt.renderBlock (depth + 1) body
      ++ line depth closeBrace
  | .block body =>
    line depth "\x7b" ++ Stmt.renderBlock (depth + 1) body ++ line depth closeBrace

def Stmt.renderBlock (depth : Nat) : List Stmt → String
  | [] => ""
  | s :: ss => s.renderAt depth ++ Stmt.renderBlock depth ss

/-- The end of a conditional: an else branch that is one conditional continues the chain. -/
def Stmt.renderElse (depth : Nat) : List Stmt → String
  | [] => line depth closeBrace
  | [.ifElse cond thenBody els] =>
    line depth (closeBrace ++ " else if " ++ cond.renderAt depth ++ openBrace)
      ++ Stmt.renderBlock (depth + 1) thenBody ++ Stmt.renderElse depth els
  | s :: ss =>
    line depth (closeBrace ++ " else" ++ openBrace) ++ s.renderAt (depth + 1) ++ Stmt.renderBlock (depth + 1) ss
      ++ line depth closeBrace

end

def Expr.render (e : Expr) : String := e.renderAt 0

def Stmt.render (s : Stmt) : String := s.renderAt 0

/-! ## Declarations -/

def FuncDecl.render (d : FuncDecl) : String :=
  let receiver := match d.receiver with
    | some r => if r.name.isEmpty then "(" ++ r.ty.render ++ ") " else "(" ++ r.name ++ " " ++ r.ty.render ++ ") "
    | none => ""
  line 0 ("func " ++ receiver ++ d.name ++ typeParamsText d.typeParams ++ "(" ++ fieldsText d.params ++ ")"
      ++ resultsText d.results ++ openBrace)
    ++ Stmt.renderBlock 1 d.body ++ line 0 closeBrace

def Decl.render : Decl → String
  | .func d => d.render
  | .struct name typeParams [] =>
    line 0 ("type " ++ name ++ typeParamsText typeParams ++ " struct\x7b\x7d")
  | .struct name typeParams fields =>
    line 0 ("type " ++ name ++ typeParamsText typeParams ++ " struct" ++ openBrace)
      ++ String.join (fields.map fun f => line 1 (f.name ++ " " ++ f.ty.render)) ++ line 0 closeBrace
  | .typeAlias name typeParams ty => line 0 ("type " ++ name ++ typeParamsText typeParams ++ " = " ++ ty.render)
  | .var name ty value =>
    let tyText := match ty with
      | some ty => " " ++ ty.render
      | none => ""
    let valueText := match value with
      | some value => " = " ++ value.render
      | none => ""
    line 0 ("var " ++ name ++ tyText ++ valueText)
  | .const name (some ty) value => line 0 ("const " ++ name ++ " " ++ ty.render ++ " = " ++ value.render)
  | .const name none value => line 0 ("const " ++ name ++ " = " ++ value.render)

def Import.render (i : Import) : String :=
  match i.aliasName with
  | some name => name ++ " " ++ Text.quotedString i.path
  | none => Text.quotedString i.path

def File.render (f : File) : String :=
  let imports :=
    if f.imports.isEmpty then ""
    else line 0 "" ++ line 0 "import (" ++ String.join (f.imports.map fun i => line 1 i.render) ++ line 0 ")"
  line 0 ("package " ++ f.package) ++ imports ++ String.join (f.decls.map fun d => line 0 "" ++ d.render)

end Lowering.Target
