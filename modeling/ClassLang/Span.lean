/-!
# Positions in source text

A `Span` says where a node starts and how many bytes it covers. The file it belongs to
is not part of it: the module being compiled knows its own path, and the path is attached
when a diagnostic leaves the compiler.
-/

namespace ClassLang

/-- The start of a node, counted from one, and its length in bytes. -/
structure Span where
  line : Nat
  column : Nat
  length : Nat
  deriving DecidableEq, Repr, Inhabited

namespace Span

/-- The position of things that no source text declares. -/
def unknown : Span := ⟨0, 0, 0⟩

/-- The text of a position, `line:column`; the length is not shown. -/
def render (s : Span) : String := s!"{s.line}:{s.column}"

/-- A span of no bytes. -/
def isEmpty (s : Span) : Bool := s.length == 0

end Span

end ClassLang
