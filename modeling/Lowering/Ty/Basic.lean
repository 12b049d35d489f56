/-
  Ty.Basic — types, shared by the source and the target tree.

  A leaf is a basic name (`int`, or a type parameter) or a declared name with its package; an empty package means
  the package being lowered. `nil` is an unknown type, `void` the absence of a value, `any` the type of
  everything. Two types are the same type when they render alike, so a basic name and an own declared name of the
  same spelling agree.
-/

namespace Lowering

inductive Ty where
  | basic (name : String)
  | named (package name : String)
  | generic (base : Ty) (params : List Ty)
  | array (elem : Ty)
  | pointer (elem : Ty)
  | map (key elem : Ty)
  | func (params results : List Ty)
  | any
  | nil
  | void

namespace Ty

instance : Inhabited Ty := ⟨.void⟩

/-! ## Common types -/

def int : Ty := .basic "int"

def bool : Ty := .basic "bool"

def string : Ty := .basic "string"

def float64 : Ty := .basic "float64"

def own (name : String) : Ty := .named "" name

/-- A base type applied to arguments; the base itself when there are none. -/
def apply (base : Ty) (args : List Ty) : Ty :=
  if args.isEmpty then base else .generic base args

/-! ## Rendering -/

/-- The result part of a signature: nothing, one type, or a list in parentheses. -/
def resultText : List String → String
  | [] => ""
  | [single] => " " ++ single
  | many => " (" ++ ", ".intercalate many ++ ")"

mutual

/-- The canonical text of a type. -/
def render : Ty → String
  | .basic name => name
  | .named package name => if package.isEmpty then name else package ++ "." ++ name
  | .generic base params => base.render ++ "[" ++ ", ".intercalate (renderList params) ++ "]"
  | .array elem => "[]" ++ elem.render
  | .pointer elem => "*" ++ elem.render
  | .map key elem => "map[" ++ key.render ++ "]" ++ elem.render
  | .func params results =>
    "func(" ++ ", ".intercalate (renderList params) ++ ")" ++ resultText (renderList results)
  | .any => "any"
  | .nil => "nil"
  | .void => "void"

def renderList : List Ty → List String
  | [] => []
  | t :: ts => t.render :: renderList ts

end

/-- Types are compared by their renderings. -/
instance : BEq Ty := ⟨fun a b => a.render == b.render⟩

/-! ## Parts -/

/-- The unqualified name of the outermost declared type. -/
def baseName : Ty → String
  | .basic name => name
  | .named _ name => name
  | .generic base _ => base.baseName
  | .pointer elem => elem.baseName
  | other => other.render

def package? : Ty → Option String
  | .named package _ => if package.isEmpty then none else some package
  | .generic base _ => base.package?
  | .pointer elem => elem.package?
  | _ => none

def base : Ty → Ty
  | .generic base _ => base
  | other => other

def args : Ty → List Ty
  | .generic _ params => params
  | _ => []

/-- The name of a leaf that may stand for a type parameter. -/
def leafName? : Ty → Option String
  | .basic name => some name
  | .named package name => if package.isEmpty then some name else none
  | _ => none

def unqualified : Ty → Ty
  | .named _ name => own name
  | .generic base params => .generic base.unqualified params
  | other => other

/-! ## Kinds -/

def isNil : Ty → Bool
  | .nil => true
  | _ => false

def isVoid : Ty → Bool
  | .void => true
  | _ => false

def isAny : Ty → Bool
  | .any => true
  | .basic name => name == "any" || name == "interface\x7b\x7d"
  | _ => false

def isBool : Ty → Bool
  | .basic name => name == "bool"
  | _ => false

def isString : Ty → Bool
  | .basic name => name == "string"
  | _ => false

def isFunc : Ty → Bool
  | .func _ _ => true
  | _ => false

def numericNames : List String :=
  ["int", "int8", "int16", "int32", "int64", "uint", "uint8", "uint16", "uint32", "uint64", "uintptr",
    "float32", "float64", "byte", "rune"]

def builtinNames : List String :=
  numericNames ++ ["bool", "string", "complex64", "complex128", "error", "any"]

def isNumeric : Ty → Bool
  | .basic name => numericNames.contains name
  | _ => false

def isBuiltin : Ty → Bool
  | .basic name => builtinNames.contains name
  | _ => false

def isOption (t : Ty) : Bool := t.baseName == "Option" && t.args.length == 1

/-- A leaf that names one of `params`. -/
def isParam (params : List String) (t : Ty) : Bool :=
  match t.leafName? with
  | some name => params.contains name
  | none => false

/-! ## Tuples -/

def tupleName (arity : Nat) : String := if arity == 2 then "Tuple" else "Tuple" ++ toString arity

/-- The field that holds the element at `index`, counted from zero. -/
def tupleField (index : Nat) : String := "V" ++ toString (index + 1)

def tuple (runtime : String) (elems : List Ty) : Ty :=
  (Ty.named runtime (tupleName elems.length)).apply elems

def tupleArity? : Ty → Option Nat
  | .generic base params => if base.baseName == tupleName params.length then some params.length else none
  | _ => none

/-! ## Walks -/

mutual

/-- Some leaf names one of `params`. -/
def mentions (params : List String) : Ty → Bool
  | .basic name => params.contains name
  | .named package name => package.isEmpty && params.contains name
  | .generic base args => base.mentions params || anyMentions params args
  | .array elem => elem.mentions params
  | .pointer elem => elem.mentions params
  | .map key elem => key.mentions params || elem.mentions params
  | .func ps rs => anyMentions params ps || anyMentions params rs
  | .any | .nil | .void => false

def anyMentions (params : List String) : List Ty → Bool
  | [] => false
  | t :: ts => t.mentions params || anyMentions params ts

end

mutual

/-- Fully known: neither `nil` nor `void` anywhere. -/
def isConcrete : Ty → Bool
  | .nil | .void => false
  | .basic _ | .named _ _ | .any => true
  | .generic base params => base.isConcrete && allConcrete params
  | .array elem => elem.isConcrete
  | .pointer elem => elem.isConcrete
  | .map key elem => key.isConcrete && elem.isConcrete
  | .func params results => allConcrete params && allConcrete results

def allConcrete : List Ty → Bool
  | [] => true
  | t :: ts => t.isConcrete && allConcrete ts

end

mutual

def size : Ty → Nat
  | .basic _ | .named _ _ | .any | .nil | .void => 1
  | .generic base params => 1 + base.size + sizeList params
  | .array elem => 1 + elem.size
  | .pointer elem => 1 + elem.size
  | .map key elem => 1 + key.size + elem.size
  | .func params results => 1 + sizeList params + sizeList results

def sizeList : List Ty → Nat
  | [] => 0
  | t :: ts => t.size + sizeList ts

end

/-- What a function of this declared result returns: nothing for `void`. -/
def results (result : Ty) : List Ty := if result.isVoid then [] else [result]

end Ty

end Lowering
