/-
  Catalog.Basic — tables of everything other packages declare.

  Merging a file overwrites entries of the same name and keeps the first import of a package. A file is accepted
  only when none of its types wraps a wrapper.
-/

import Lowering.Catalog.Entry
import Lowering.Catalog.Imports
import Lowering.Diagnostic

namespace Lowering

structure CatalogFile where
  types : List TypeEntry
  functions : List FunctionEntry
  companions : List CompanionEntry
  imports : List PackageImport

inductive CatalogFault where
  | unreadable
  | missingFile
  | wrapper (member : String) (wrap : DoubleWrap)

def CatalogFault.message : CatalogFault → String
  | .unreadable => "invalid metadata"
  | .missingFile => "failed to read the metadata"
  | .wrapper member wrap => "`" ++ member ++ "`: " ++ wrap.message

def CatalogFault.report (f : CatalogFault) : Report := .new .catalog f.message .synthetic

/-! ## Acceptance -/

def checkMember (member : String) (ty : Ty) : Except CatalogFault Unit :=
  match ty.checkWrappers with
  | .ok _ => .ok ()
  | .error wrap => .error (.wrapper member wrap)

/-- The types an entry declares with the member that declares them: fields, then
    constraints, then the parameters and the result of each method. -/
def TypeEntry.members (e : TypeEntry) : List (String × Ty) :=
  e.fields.zip e.fieldTypes ++ e.constraints.entries
    ++ e.methods.entries.flatMap fun (name, m) => (m.params ++ [m.result]).map (name, ·)

def CatalogFile.check (f : CatalogFile) : Except CatalogFault Unit := do
  f.types.forM fun e => e.members.forM fun (member, ty) => checkMember (e.qualifiedName ++ "." ++ member) ty
  f.functions.forM fun e => (e.params ++ [e.result]).forM (checkMember e.qualifiedName)

/-! ## Tables -/

structure Catalog where
  types : Table TypeEntry
  functions : Table FunctionEntry
  companions : Table CompanionEntry
  imports : ImportTable

namespace Catalog

def empty : Catalog := ⟨.empty, .empty, .empty, .empty⟩

def addType (c : Catalog) (e : TypeEntry) : Catalog := { c with types := c.types.insert e.qualifiedName e }

def addFunction (c : Catalog) (e : FunctionEntry) : Catalog :=
  { c with functions := c.functions.insert e.qualifiedName e }

def addCompanion (c : Catalog) (e : CompanionEntry) : Catalog :=
  { c with companions := c.companions.insert e.qualifiedName e }

def addImport (c : Catalog) (i : PackageImport) : Catalog := { c with imports := c.imports.add i }

def merge (c : Catalog) (f : CatalogFile) : Catalog :=
  let c := f.types.foldl addType c
  let c := f.functions.foldl addFunction c
  let c := f.companions.foldl addCompanion c
  f.imports.foldl addImport c

def type? (c : Catalog) (package name : String) : Option TypeEntry := c.types.find? (Text.qualify package name)

def function? (c : Catalog) (package name : String) : Option FunctionEntry :=
  c.functions.find? (Text.qualify package name)

def companion? (c : Catalog) (package name : String) : Option CompanionEntry :=
  c.companions.find? (Text.qualify package name)

def typeNames (c : Catalog) : List String := c.types.values.map (·.name)

def toFile (c : Catalog) : CatalogFile :=
  ⟨c.types.values, c.functions.values, c.companions.values, c.imports.entries⟩

end Catalog

end Lowering
