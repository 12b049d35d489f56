/-
  Lower.Imports — the imports a lowered file needs.

  A package is imported when an emitted type or selection names it. Uses of dot imports have no qualifier, so they
  are noted while lowering.
-/

import Lowering.Env.Basic
import Lowering.Target.Tree

namespace Lowering.Lower

open Target (Expr Stmt Element Decl Import TypeParam)

/-! ## Qualifiers -/

mutual

def tyQualifiers : Ty → List String
  | .named package _ => if package.isEmpty then [] else [package]
  | .generic base params => tyQualifiers base ++ tyListQualifiers params
  | .array elem => tyQualifiers elem
  | .pointer elem => tyQualifiers elem
  | .map key elem => tyQualifiers key ++ tyQualifiers elem
  | .func params results => tyListQualifiers params ++ tyListQualifiers results
  | .basic _ | .any | .nil | .void => []

def tyListQualifiers : List Ty → List String
  | [] => []
  | t :: ts => tyQualifiers t ++ tyListQualifiers ts

end

def fieldQualifiers (fields : List Target.Field) : List String := tyListQualifiers (fields.map (·.ty))

mutual

def exprQualifiers (env : Env) : Expr → List String
  | .ident _ | .lit _ | .nil => []
  | .type ty => tyQualifiers ty
  | .selector (.ident name) _ => if env.isPackage name then [name] else []
  | .selector x _ => exprQualifiers env x
  | .call callee typeArgs args =>
    exprQualifiers env callee ++ tyListQualifiers typeArgs ++ exprListQualifiers env args
  | .index x index => exprQualifiers env x ++ exprQualifiers env index
  | .binary _ left right => exprQualifiers env left ++ exprQualifiers env right
  | .unary _ x => exprQualifiers env x
  | .paren x => exprQualifiers env x
  | .funcLit params results body =>
    fieldQualifiers params ++ tyListQualifiers results ++ stmtListQualifiers env body
  | .composite ty elements => tyQualifiers ty ++ elementQualifiers env elements
  | .typeAssert x ty => exprQualifiers env x ++ tyQualifiers ty

def exprListQualifiers (env : Env) : List Expr → List String
  | [] => []
  | e :: es => exprQualifiers env e ++ exprListQualifiers env es

def elementQualifiers (env : Env) : List Element → List String
  | [] => []
  | ⟨_, value⟩ :: es => exprQualifiers env value ++ elementQualifiers env es

def stmtQualifiers (env : Env) : Stmt → List String
  | .define _ values => exprListQualifiers env values
  | .ret values => exprListQualifiers env values
  | .var _ ty none => tyQualifiers ty
  | .var _ ty (some value) => tyQualifiers ty ++ exprQualifiers env value
  | .assign targets _ values => exprListQualifiers env targets ++ exprListQualifiers env values
  | .expr e => exprQualifiers env e
  | .ifElse cond thenBody els =>
    exprQualifiers env cond ++ stmtListQualifiers env thenBody ++ stmtListQualifiers env els
  | .loop none body => stmtListQualifiers env body
  | .loop (some cond) body => exprQualifiers env cond ++ stmtListQualifiers env body
  | .block body => stmtListQualifiers env body

def stmtListQualifiers (env : Env) : List Stmt → List String
  | [] => []
  | s :: ss => stmtQualifiers env s ++ stmtListQualifiers env ss

end

def paramQualifiers (params : List TypeParam) : List String := tyListQualifiers (params.map (·.constraint))

def declQualifiers (env : Env) : Decl → List String
  | .func d =>
    paramQualifiers d.typeParams ++ fieldQualifiers (d.receiver.toList ++ d.params) ++ tyListQualifiers d.results
      ++ stmtListQualifiers env d.body
  | .struct _ typeParams fields => paramQualifiers typeParams ++ fieldQualifiers fields
  | .typeAlias _ typeParams ty => paramQualifiers typeParams ++ tyQualifiers ty
  | .var _ ty value => tyListQualifiers ty.toList ++ exprListQualifiers env value.toList
  | .const _ ty value => tyListQualifiers ty.toList ++ exprQualifiers env value

/-! ## Imports -/

/-- The import a qualifier needs; none when its path is not known. -/
def importOf? (env : Env) (qualifier : String) : Option Import :=
  if qualifier == env.runtime then some ⟨none, env.settings.runtimeImport⟩
  else
    let table := env.catalog.imports
    (table.resolve? qualifier <|> table.entry? qualifier).map fun i => ⟨i.aliasName, i.path⟩

def dotImport? (env : Env) (package : String) : Option Import :=
  (env.catalog.imports.entry? package).map fun i => ⟨some ".", i.path⟩

def importBefore (a b : Import) : Bool :=
  match a.aliasName, b.aliasName with
  | none, none => Text.before a.path b.path
  | none, some _ => true
  | some _, none => false
  | some x, some y => Text.before x y || (x == y && Text.before a.path b.path)

def placeImport (i : Import) : List Import → List Import
  | [] => [i]
  | j :: js =>
    if importBefore i j then i :: j :: js
    else if importBefore j i then j :: placeImport i js
    else j :: js

def collectImports (env : Env) (decls : List Decl) (dotUsed : List String) : List Import :=
  let qualified := (decls.flatMap (declQualifiers env)).filterMap (importOf? env)
  (qualified ++ dotUsed.filterMap (dotImport? env)).foldr placeImport []

end Lowering.Lower
