/-
  Text.Qualified — names with a package in front.

  A source name is bare (`Name`) or qualified (`pkg.Name`); the last dot divides a qualified name. An empty
  package means the package being lowered.
-/

namespace Lowering.Text

/-- The qualifier and the bare name around the last dot, `none` without a dot. -/
def splitQualifier (name : String) : Option (String × String) :=
  match name.toList.reverse.span (· != '.') with
  | (_, []) => none
  | (bare, _ :: qualifier) => some (String.ofList qualifier.reverse, String.ofList bare.reverse)

def bareName (name : String) : String :=
  match splitQualifier name with
  | some (_, bare) => bare
  | none => name

def qualify (package name : String) : String :=
  if package.isEmpty then name else package ++ "." ++ name

end Lowering.Text
