/-
  MethodForm — which methods the target can keep.

  The target has no type parameters on methods and rejects a generic type with a method that instantiates the type
  at other arguments. Such a method becomes a function `Receiver_Method` that takes the receiver first.
-/

import Lowering.Catalog.Entry
import Lowering.NameSupply

namespace Lowering

inductive MethodForm where
  /-- Stays a method. -/
  | keep
  /-- Becomes a function; `kept` says which of the method's own parameters survive. -/
  | extract (function : String) (typeParams : List String) (kept : List Bool)

namespace Ty

mutual

/-- The type applies the type named `base` to arguments other than `args`. -/
def reinstantiates (base : String) (args : List Ty) : Ty → Bool
  | .generic b params => (b.baseName == base && !(params == args)) || anyReinstantiates base args params
  | .array elem => elem.reinstantiates base args
  | .pointer elem => elem.reinstantiates base args
  | .map key elem => key.reinstantiates base args || elem.reinstantiates base args
  | .func params results => anyReinstantiates base args params || anyReinstantiates base args results
  | .basic _ | .named _ _ | .any | .nil | .void => false

def anyReinstantiates (base : String) (args : List Ty) : List Ty → Bool
  | [] => false
  | t :: ts => t.reinstantiates base args || anyReinstantiates base args ts

end

/-- A result of type `result` needs the generic type of `receiver` at other arguments. -/
def instantiationCycle (receiver result : Ty) : Bool :=
  !receiver.args.isEmpty && result.reinstantiates receiver.baseName receiver.args

end Ty

/-- The items whose flag is set, for as long as both lists last. -/
def keepFlagged {α : Type} (items : List α) (flags : List Bool) : List α :=
  ((items.zip flags).filter (·.2)).map (·.1)

namespace MethodForm

def mustExtract (owner : TypeEntry) (m : Method) : Bool :=
  !m.typeParams.isEmpty || m.generic || (owner.selfType owner.package).instantiationCycle m.result

def of (owner : TypeEntry) (name : String) (m : Method) : MethodForm :=
  if mustExtract owner m then
    let kept := m.typeParams.map fun p => !owner.typeParams.contains p
    .extract (methodFunction owner.name name) (owner.typeParams ++ keepFlagged m.typeParams kept) kept
  else .keep

def isExtracted : MethodForm → Bool
  | .keep => false
  | .extract _ _ _ => true

/-- The type arguments of a call of the function: the receiver's, then the surviving own. -/
def typeArgs (receiverArgs methodArgs : List Ty) (kept : List Bool) : List Ty :=
  receiverArgs ++ keepFlagged methodArgs kept

end MethodForm

end Lowering
