/-
  Source.Program — declarations of one package.
-/

import Lowering.Source.Expr

namespace Lowering.Source

structure TypeParam where
  name : String
  constraint : Option Ty

structure Param where
  name : Located String
  ty : Ty

structure Receiver where
  name : String
  ty : Ty

/-- A function, or a method when it has a receiver. Without a result it runs for its effect. -/
structure FuncDecl where
  name : Located String
  typeParams : List TypeParam
  receiver : Option Receiver
  params : List Param
  result : Option Ty
  body : Located Expr
  span : Span

/-- A field; a value binding unless it is mutable. -/
structure StructField where
  name : Located String
  ty : Ty
  mutable : Bool

structure StructDecl where
  name : Located String
  typeParams : List TypeParam
  fields : List StructField
  span : Span

/-- One shape of a sealed type. -/
structure Variant where
  name : Located String
  fields : List StructField

/-- A closed set of variants. -/
structure SealedDecl where
  name : Located String
  typeParams : List TypeParam
  variants : List Variant
  span : Span

/-- `type Name[T] = target` -/
structure AliasDecl where
  name : Located String
  typeParams : List TypeParam
  ty : Ty

inductive Decl where
  | val (decl : ValDecl)
  | func (decl : FuncDecl)
  | struct (decl : StructDecl)
  | sealedType (decl : SealedDecl)
  | typeAlias (decl : AliasDecl)

def Decl.name : Decl → String
  | .val d => d.name.val
  | .func d => d.name.val
  | .struct d => d.name.val
  | .sealedType d => d.name.val
  | .typeAlias d => d.name.val

structure Program where
  package : String
  decls : List (Located Decl)

def typeParamNames (params : List TypeParam) : List String := params.map (·.name)

end Lowering.Source
