/-
  Ty.Wrapper — the immutable wrapper.

  A value binding and a field not declared `var` are stored as `Immutable[T]` of the runtime package. A wrapper
  never holds a wrapper: `checkWrappers` finds the outermost, leftmost place of a type where one does.
-/

import Lowering.Ty.Basic

namespace Lowering

namespace Ty

def wrapperName : String := "Immutable"

def isWrapper : Ty → Bool
  | .generic base params => base.baseName == wrapperName && params.length == 1
  | _ => false

def wrapped? (t : Ty) : Option Ty := if t.isWrapper then t.args.head? else none

def unwrap (t : Ty) : Ty := t.wrapped?.getD t

theorem unwrap_eq {t : Ty} (h : t.isWrapper = false) : t.unwrap = t := by simp [unwrap, wrapped?, h]

end Ty

structure DoubleWrap where
  ty : Ty

def DoubleWrap.message (e : DoubleWrap) : String :=
  "immutable wrapper cannot wrap another immutable value: " ++ e.ty.render

namespace Ty

/-- This very node wraps a wrapper. -/
def isDoubleWrap : Ty → Bool
  | .generic base [inner] => base.baseName == wrapperName && inner.isWrapper
  | _ => false

mutual

/-- Refuses a wrapper of a wrapper at any depth. -/
def checkWrappers : Ty → Except DoubleWrap Unit
  | .generic base params => do
    if isDoubleWrap (.generic base params) then throw ⟨.generic base params⟩
    base.checkWrappers
    checkWrappersList params
  | .array elem => elem.checkWrappers
  | .pointer elem => elem.checkWrappers
  | .map key elem => do
    key.checkWrappers
    elem.checkWrappers
  | .func params results => do
    checkWrappersList params
    checkWrappersList results
  | _ => pure ()

def checkWrappersList : List Ty → Except DoubleWrap Unit
  | [] => pure ()
  | t :: ts => do
    t.checkWrappers
    checkWrappersList ts

end

/-- An application that is refused when it wraps a wrapper somewhere. -/
def checkedApply (base : Ty) (args : List Ty) : Except DoubleWrap Ty := do
  let t := base.apply args
  t.checkWrappers
  pure t

/-- `Immutable[inner]` of the runtime package. -/
def wrapIn (runtime : String) (inner : Ty) : Except DoubleWrap Ty :=
  checkedApply (.named runtime wrapperName) [inner]

end Ty

end Lowering
