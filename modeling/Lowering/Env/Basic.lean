/-
  Env.Basic — looking things up.

  The program's own index comes first, then the catalog: a bare name is an own declaration, or one of the runtime
  package or a dot import; a qualified name belongs to the package its qualifier stands for.
-/

import Lowering.Catalog.Basic
import Lowering.Env.Index
import Lowering.Settings

namespace Lowering

structure Env where
  index : Index
  catalog : Catalog
  settings : Settings

/-- A field as a receiver sees it: its type without the wrapper, and whether it has one. -/
structure FieldInfo where
  ty : Ty
  wrapped : Bool

def Method.subst (m : Method) (s : Substitution) : Method :=
  { m with params := m.params.map (·.subst s), result := m.result.subst s }

namespace Env

def runtime (env : Env) : String := env.settings.runtimePackage

def packageOf (env : Env) (qualifier : String) : String :=
  match env.catalog.imports.resolve? qualifier with
  | some i => i.package
  | none => qualifier

def dotPackages (env : Env) : List String := env.catalog.imports.dotImports.map (·.package)

/-! ## Names -/

def type? (env : Env) (name : String) : Option TypeEntry :=
  match Text.splitQualifier name with
  | some (qualifier, bare) => env.catalog.type? (env.packageOf qualifier) bare
  | none =>
    env.index.types.find? name <|> (env.runtime :: env.dotPackages).findSome? (env.catalog.type? · name)

/-- Functions of the runtime package are only found qualified. -/
def function? (env : Env) (name : String) : Option FunctionEntry :=
  match Text.splitQualifier name with
  | some (qualifier, bare) => env.catalog.function? (env.packageOf qualifier) bare
  | none => env.index.functions.find? name <|> env.dotPackages.findSome? (env.catalog.function? · name)

def companion? (env : Env) (name : String) : Option CompanionEntry :=
  match Text.splitQualifier name with
  | some (qualifier, bare) => env.catalog.companion? (env.packageOf qualifier) bare
  | none =>
    env.index.companions.find? name <|> (env.runtime :: env.dotPackages).findSome? (env.catalog.companion? · name)

/-- The qualifier emitted code uses for symbols of a package. -/
def qualifier (env : Env) (package : String) : String :=
  if package.isEmpty || package == env.runtime then package
  else (env.catalog.imports.qualifierOf? package).getD package

def isPackage (env : Env) (name : String) : Bool := name == env.runtime || env.catalog.imports.isPackage name

def typeNames (env : Env) : List String := env.index.types.keys ++ env.catalog.typeNames

/-! ## Types -/

def typeRef (env : Env) (e : TypeEntry) : Ty := .named (env.qualifier e.package) e.name

def runtimeType (env : Env) (name : String) (args : List Ty) : Ty := (Ty.named env.runtime name).apply args

def tupleType (env : Env) (elems : List Ty) : Ty := .tuple env.runtime elems

def wrapperType (env : Env) (inner : Ty) : Except DoubleWrap Ty := inner.wrapIn env.runtime

/-- The declared type at the head of a type. -/
def entry? (env : Env) : Ty → Option TypeEntry
  | .pointer elem => env.entry? elem
  | .generic base _ => env.entry? base
  | .basic name => env.type? name
  | .named package name => env.type? (Text.qualify package name)
  | _ => none

/-! ## Aliases -/

/-- One expansion of an own alias at the head of a type. -/
def expandOnce (env : Env) (t : Ty) : Option Ty := do
  let name ← t.base.leafName?
  let a ← env.index.aliases.find? name
  some (a.target.subst (.ofParams a.typeParams t.args))

end Env

/-- The types that a type becomes as own aliases at its head are expanded one after another, from itself
    on; `none` if there is no end to them. -/
def Ty.expansions (t : Ty) : ReaderT Env Option (List Ty) := fun env =>
  match env.expandOnce t with
  | none => some [t]
  | some next => do
    let later ← next.expansions.run env
    some (t :: later)
partial_fixpoint

namespace Env

def expansions (env : Env) (t : Ty) : Option (List Ty) := t.expansions env

/-- The type with own aliases at its head expanded. Aliases that expand for ever have no such type: then
    nothing is returned when this runs. -/
def expand (env : Env) (t : Ty) : Ty :=
  match env.expandOnce t with
  | none => t
  | some next => ((env.expansions next).bind List.getLast?).getD t

/-! ## Members -/

/-- The type parameters of an entry sent to the arguments of a receiver. -/
def receiverSubst (e : TypeEntry) (receiver : Ty) : Substitution :=
  let value := match receiver with
    | .pointer elem => elem
    | other => other
  .ofParams e.typeParams value.args

def field? (env : Env) (receiver : Ty) (name : String) : Option FieldInfo := do
  let e ← env.entry? receiver
  let i ← e.fieldIndex? name
  let declared ← e.fieldTypes[i]?
  some ⟨declared.unwrap.subst (receiverSubst e receiver), (e.flags[i]?).getD declared.isWrapper⟩

def method? (env : Env) (receiver : Ty) (name : String) : Option (TypeEntry × Method) := do
  let e ← env.entry? receiver
  let m ← e.method? name
  some (e, m)

/-- A method with the receiver's arguments applied. -/
def methodSignature? (env : Env) (receiver : Ty) (name : String) : Option Method := do
  let (e, m) ← env.method? receiver name
  some (m.subst (receiverSubst e receiver))

end Env

end Lowering
