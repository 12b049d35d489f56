/-
  Catalog.Imports — which packages are imported, and under which name.

  A package goes by its alias, or by its own name without one. The symbols of a dot import are used without a
  qualifier.
-/

namespace Lowering

structure PackageImport where
  package : String
  path : String
  aliasName : Option String
  dot : Bool

def PackageImport.localName (i : PackageImport) : String := i.aliasName.getD i.package

/-- Imports in the order they were added, each package once. -/
structure ImportTable where
  entries : List PackageImport

namespace ImportTable

def empty : ImportTable := ⟨[]⟩

def entry? (t : ImportTable) (package : String) : Option PackageImport :=
  t.entries.find? (·.package == package)

def add (t : ImportTable) (i : PackageImport) : ImportTable :=
  if t.entries.any (·.package == i.package) then t else ⟨t.entries ++ [i]⟩

def resolve? (t : ImportTable) (qualifier : String) : Option PackageImport :=
  t.entries.find? fun i => !i.dot && i.localName == qualifier

def dotImports (t : ImportTable) : List PackageImport := t.entries.filter (·.dot)

def isPackage (t : ImportTable) (name : String) : Bool := (t.resolve? name).isSome

def isDotImported (t : ImportTable) (package : String) : Bool :=
  t.entries.any fun i => i.dot && i.package == package

/-- The qualifier emitted code uses for a package: none for a dot import. -/
def qualifierOf? (t : ImportTable) (package : String) : Option String :=
  (t.entry? package).map fun i => if i.dot then "" else i.localName

end ImportTable

end Lowering
