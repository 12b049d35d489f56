/-
  Source.Pattern — the patterns of case clauses.
-/

import Lowering.Literal
import Lowering.Span
import Lowering.Ty.Basic

namespace Lowering.Source

inductive Pattern where
  /-- `_` -/
  | wildcard
  /-- Binds the matched value. -/
  | ident (name : String)
  | literal (value : Literal)
  /-- `name: Type` -/
  | typed (name : String) (ty : Ty)
  /-- `Head[T](p, q)`; the head may be qualified. -/
  | extractor (head : String) (typeArgs : List Ty) (args : List (Located Pattern))
  /-- `(p, q)` -/
  | tuple (elems : List (Located Pattern))
  /-- `rest @ _*`, or `_*` without a name. -/
  | rest (name : Option String)

namespace Pattern

instance : Inhabited Pattern := ⟨.wildcard⟩

/-- `_` and bare names, which match every value. -/
def isIrrefutable : Pattern → Bool
  | .wildcard | .ident _ => true
  | _ => false

def isRest : Pattern → Bool
  | .rest _ => true
  | _ => false

mutual

def render : Pattern → String
  | .wildcard => "_"
  | .ident name => name
  | .literal value => value.render
  | .typed name ty => name ++ ": " ++ ty.render
  | .extractor head typeArgs args =>
    head
      ++ (if typeArgs.isEmpty then "" else "[" ++ ", ".intercalate (Ty.renderList typeArgs) ++ "]")
      ++ "(" ++ ", ".intercalate (renderList args) ++ ")"
  | .tuple elems => "(" ++ ", ".intercalate (renderList elems) ++ ")"
  | .rest (some name) => name ++ " @ _*"
  | .rest none => "_*"

def renderList : List (Located Pattern) → List String
  | [] => []
  | ⟨p, _⟩ :: ps => p.render :: renderList ps

end

end Pattern

end Lowering.Source
