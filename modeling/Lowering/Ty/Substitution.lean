/-
  Ty.Substitution — replacing type parameters.

  A substitution sends names to types. Every leaf that may stand for a type parameter, a basic name or an own
  declared name, is replaced by the image of its name; qualified names never are.
-/

import Lowering.Table
import Lowering.Ty.Basic

namespace Lowering

abbrev Substitution := Table Ty

/-- Parameters sent to arguments by position; the last of repeated parameters counts. -/
def Substitution.ofParams (params : List String) (args : List Ty) : Substitution :=
  Table.ofList (params.zip args)

namespace Ty

mutual

def subst (s : Substitution) : Ty → Ty
  | .basic name => (s.find? name).getD (.basic name)
  | .named package name =>
    if package.isEmpty then (s.find? name).getD (.named package name) else .named package name
  | .generic base params => .generic (base.subst s) (substList s params)
  | .array elem => .array (elem.subst s)
  | .pointer elem => .pointer (elem.subst s)
  | .map key elem => .map (key.subst s) (elem.subst s)
  | .func params results => .func (substList s params) (substList s results)
  | .any => .any
  | .nil => .nil
  | .void => .void

def substList (s : Substitution) : List Ty → List Ty
  | [] => []
  | t :: ts => t.subst s :: substList s ts

end

end Ty

end Lowering
