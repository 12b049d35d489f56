/-
  Settings — what a run can be told.

  `Settings.check` refuses, in this order: a runtime package without a name, a range of tuple arities the runtime
  does not provide, a nesting limit of zero.
-/

import Lowering.Diagnostic
import Lowering.Toml.Reader

namespace Lowering

structure Settings where
  /-- Qualifier of runtime symbols in emitted code. -/
  runtimePackage : String
  runtimeImport : String
  tempStem : String
  maxDepth : Nat
  /-- Extractors the target cannot call directly go through a runtime helper. -/
  reflectiveUnapply : Bool
  leastArity : Nat
  mostArity : Nat

def leastTupleArity : Nat := 2

def mostTupleArity : Nat := 10

inductive SettingsFault where
  | unreadable
  | missingFile
  | noRuntime
  | arityRange (least most : Nat)
  | noDepth

def SettingsFault.message : SettingsFault → String
  | .unreadable => "invalid configuration"
  | .missingFile => "failed to read the configuration"
  | .noRuntime => "runtime_package must not be empty"
  | .arityRange least most =>
    "tuple arity range " ++ toString least ++ "..=" ++ toString most ++ " is outside the runtime's "
      ++ toString leastTupleArity ++ "..=" ++ toString mostTupleArity
  | .noDepth => "max_depth must be positive"

def SettingsFault.report (f : SettingsFault) : Report := .new .settings f.message .synthetic

namespace Settings

def standard : Settings where
  runtimePackage := "std"
  runtimeImport := "valgo/std"
  tempStem := "_tmp"
  maxDepth := 256
  reflectiveUnapply := true
  leastArity := leastTupleArity
  mostArity := mostTupleArity

def check (s : Settings) : Except SettingsFault Unit := do
  if s.runtimePackage.isEmpty then throw .noRuntime
  if s.leastArity < leastTupleArity || mostTupleArity < s.mostArity || s.mostArity < s.leastArity then
    throw (.arityRange s.leastArity s.mostArity)
  if s.maxDepth == 0 then throw .noDepth

/-! ## Reading -/

def stringAt (table : Toml.Entries) (key : String) (standard : String) : Except SettingsFault String :=
  match table.lookup key with
  | none => pure standard
  | some (.value (.string s)) => pure s
  | some _ => throw .unreadable

def natAt (table : Toml.Entries) (key : String) (standard : Nat) : Except SettingsFault Nat :=
  match table.lookup key with
  | none => pure standard
  | some (.value (.integer n)) => if 0 ≤ n then pure n.toNat else throw .unreadable
  | some _ => throw .unreadable

def boolAt (table : Toml.Entries) (key : String) (standard : Bool) : Except SettingsFault Bool :=
  match table.lookup key with
  | none => pure standard
  | some (.value (.bool b)) => pure b
  | some _ => throw .unreadable

/-- Settings from the text of a file; keys that are not settings are ignored. -/
def ofToml (text : String) : Except SettingsFault Settings := do
  let some table := Toml.parse? text | throw .unreadable
  let settings : Settings := {
    runtimePackage := ← stringAt table "runtime_package" standard.runtimePackage
    runtimeImport := ← stringAt table "runtime_import" standard.runtimeImport
    tempStem := ← stringAt table "temp_prefix" standard.tempStem
    maxDepth := ← natAt table "max_depth" standard.maxDepth
    reflectiveUnapply := ← boolAt table "reflective_unapply" standard.reflectiveUnapply
    leastArity := ← natAt table "min_tuple_arity" standard.leastArity
    mostArity := ← natAt table "max_tuple_arity" standard.mostArity }
  settings.check
  pure settings

end Settings

end Lowering
