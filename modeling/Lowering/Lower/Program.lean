/-
  Lower.Program — a whole program.

  The written types are checked, the declarations indexed and lowered, and the imports they need collected.
-/

import Lowering.Catalog.Prelude
import Lowering.Lower.Decl
import Lowering.Lower.Imports
import Lowering.Source.Wrappers

namespace Lowering

def Env.ofProgram (program : Source.Program) (catalog : Catalog) (settings : Settings) : Checked Env := do
  let index ← Index.build program settings.runtimePackage
  pure ⟨index, catalog, settings⟩

def lowerProgram (program : Source.Program) (catalog : Catalog) (settings : Settings) : Checked Target.File := do
  program.checkTypes
  let env ← Env.ofProgram program catalog settings
  match Lower.lowerDecls env program.decls (.start env) with
  | .ok decls s => pure ⟨program.package, Lower.collectImports env decls s.dotUsed, decls⟩
  | .error d _ => throw d

end Lowering
