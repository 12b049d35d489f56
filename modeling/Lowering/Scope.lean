/-
  Scope — which names are bound, and how.

  A stack of frames over the frame of the package. A lookup takes the innermost frame that binds the name, so
  inner bindings shadow outer ones. The package frame is never left.
-/

import Lowering.Table
import Lowering.Ty.Basic

namespace Lowering

inductive Mutability where
  | val
  | var
  deriving DecidableEq

structure Binding where
  mutability : Mutability
  ty : Ty

abbrev Frame := Table Binding

structure Scope where
  /-- Frames entered since the package frame, innermost first. -/
  inner : List Frame
  package : Frame

namespace Scope

def new : Scope := ⟨[], Table.empty⟩

def depth (s : Scope) : Nat := s.inner.length + 1

def enter (s : Scope) : Scope := { s with inner := Table.empty :: s.inner }

def leave (s : Scope) : Scope := { s with inner := s.inner.tail }

/-- Binds in the innermost frame, over a binding of the same frame. -/
def bind (s : Scope) (name : String) (mutability : Mutability) (ty : Ty) : Scope :=
  match s.inner with
  | [] => { s with package := s.package.insert name ⟨mutability, ty⟩ }
  | frame :: outer => { s with inner := frame.insert name ⟨mutability, ty⟩ :: outer }

def bindAll (s : Scope) (bindings : List (String × Ty)) : Scope :=
  bindings.foldl (fun s (name, ty) => s.bind name .val ty) s

def find? (s : Scope) (name : String) : Option Binding :=
  s.inner.findSome? (·.find? name) <|> s.package.find? name

/-- The type of a name, `nil` when it is not bound. -/
def typeOf (s : Scope) (name : String) : Ty := ((s.find? name).map (·.ty)).getD .nil

def mutabilityOf? (s : Scope) (name : String) : Option Mutability := (s.find? name).map (·.mutability)

def contains (s : Scope) (name : String) : Bool := (s.find? name).isSome

end Scope

end Lowering
