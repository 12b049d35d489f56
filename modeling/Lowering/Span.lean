/-
  Span — places in the source text.

  A span is a range of offsets handed over by the parser; a located value carries the span it was written at.
  Synthesized nodes have the empty span at offset zero.
-/

namespace Lowering

structure Span where
  start : Nat
  stop : Nat
  deriving DecidableEq, Inhabited

namespace Span

def synthetic : Span := ⟨0, 0⟩

def isSynthetic (s : Span) : Bool := s.start == 0 && s.stop == 0

def merge (a b : Span) : Span :=
  ⟨if a.start ≤ b.start then a.start else b.start, if a.stop ≤ b.stop then b.stop else a.stop⟩

def render (s : Span) : String := toString s.start ++ ".." ++ toString s.stop

end Span

structure Located (α : Type) where
  val : α
  span : Span

end Lowering
