/-
# Regions of a source text

A `Span` is a region of a text, counted in bytes of its UTF-8 encoding.
-/

namespace SymbolicCalculus

/-- The region from the byte `start` up to, but without, the byte `stop`. -/
structure Span where
  start : Nat
  stop : Nat
deriving DecidableEq

namespace Span

/-- The empty region at a position. -/
def empty (n : Nat) : Span := ⟨n, n⟩

/-- The region from the start of one region to the end of another. -/
def through (a b : Span) : Span := ⟨a.start, b.stop⟩

/-- The region as traces show it. -/
def text (s : Span) : String := toString s.start ++ ".." ++ toString s.stop

end Span

/-- The number of bytes that characters take in UTF-8. -/
def utf8Length : List Char → Nat
  | [] => 0
  | c :: cs => c.utf8Size + utf8Length cs

end SymbolicCalculus
