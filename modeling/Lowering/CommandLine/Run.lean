/-
  CommandLine.Run — a run of the command line, as a function of the files it reads.

  Settings are read first, then the program, then the catalogs. A run either prints its result or, on the first
  failure, prints nothing and reports it.
-/

import Lowering.CommandLine.Arguments
import Lowering.Exchange.Catalog
import Lowering.Exchange.Target
import Lowering.Json.Writer
import Lowering.Lower.Program
import Lowering.Target.Render

namespace Lowering.CommandLine

/-- The text of a file by its path, if it can be read. -/
abbrev Files := String → Option String

/-- Exit code, text for the standard output, and text for the error output. -/
structure Outcome where
  exit : Nat
  out : String
  err : String

def Outcome.done (out : String) : Outcome := ⟨0, out, ""⟩

def Outcome.failed (err : String) : Outcome := ⟨1, "", err ++ "\n"⟩

def Outcome.misused (fault : UsageFault) : Outcome := ⟨2, "", "error: " ++ fault.message ++ "\n"⟩

/-! ## Reading -/

def readSettings (files : Files) : (path : Option String) → Except Report Settings
  | none => pure .standard
  | some path =>
    match files path with
    | none => throw SettingsFault.missingFile.report
    | some text => (Settings.ofToml text).mapError (·.report)

def readProgram (files : Files) (path : String) : Except Report Source.Program :=
  match files path with
  | none => throw (.new .io ("failed to read " ++ path) .synthetic)
  | some text =>
    match (Json.ofFile? text).bind (Exchange.program? .ordered) with
    | some program => pure program
    | none => throw (.new .io ("invalid program " ++ path) .synthetic)

def readCatalog (files : Files) (path : String) : Except CatalogFault CatalogFile :=
  match files path with
  | none => throw .missingFile
  | some text => Exchange.catalogOfText text

/-- The prelude and the catalogs over it, later ones over earlier ones. -/
def readCatalogs (files : Files) (runtime : String) (paths : List String) : Except Report Catalog :=
  paths.foldlM (fun catalog path => do
    let file ← (readCatalog files path).mapError (·.report)
    pure (catalog.merge file)) (Prelude.catalog runtime)

/-! ## Running -/

def lowerInputs (files : Files) (settings : Settings) (inputs : Inputs) : Except Report Target.File := do
  let program ← readProgram files inputs.program
  let catalog ← readCatalogs files settings.runtimePackage inputs.catalogs
  (lowerProgram program catalog settings).mapError (·.report)

def runInputs (files : Files) (settings : Settings) (inputs : Inputs) (present : Target.File → String) : Outcome :=
  match lowerInputs files settings inputs with
  | .ok file => .done (present file)
  | .error report => .failed (inputs.source.getD inputs.program ++ ": " ++ report.render)

def Invocation.run (i : Invocation) (files : Files) : Outcome :=
  match readSettings files i.settings with
  | .error report => .failed ("Error: " ++ report.render)
  | .ok settings =>
    match i.task with
    | .lower inputs true => runInputs files settings inputs (·.render)
    | .lower inputs false => runInputs files settings inputs fun file => (Exchange.Target.ofFile file).pretty ++ "\n"
    | .check inputs => runInputs files settings inputs fun _ => "ok\n"
    | .prelude => .done ((Exchange.ofCatalogFile (Prelude.file settings.runtimePackage)).pretty ++ "\n")

def run (words : List String) (files : Files) : Outcome :=
  match parse words with
  | .ok invocation => invocation.run files
  | .error fault => .misused fault

end Lowering.CommandLine
