import LintMend.Text.Line

/-!
# Spans and origins

A span is a half-open range of bytes of a source text. An origin says where a piece of source
begins: its line and byte column, both counted from one, and its span.
-/

namespace LintMend

/-- The bytes from `start` up to, but not including, `stop`. -/
structure Span where
  start : Nat
  stop : Nat
deriving DecidableEq, Repr, Inhabited

namespace Span

/-- Number of bytes; zero if the ends are out of order. -/
def length (s : Span) : Nat := s.stop - s.start

def isEmpty (s : Span) : Bool := s.length == 0

/-- Each span begins before the other one stops. -/
def overlaps (a b : Span) : Bool := a.start < b.stop && b.start < a.stop

/-- The span cuts a piece out of the text: its ends are in order, inside the text, and between
characters. -/
def fits (s : Span) (source : String) : Bool :=
  s.start ≤ s.stop && s.stop ≤ byteLength source && isByteBoundary source s.start &&
    isByteBoundary source s.stop

/-- The text of the span, if the span fits. -/
def text? (s : Span) (source : String) : Option String := sliceBytes? source s.start s.stop

theorem overlaps_comm (a b : Span) : a.overlaps b = b.overlaps a := by
  simp [overlaps, Bool.and_comm]

end Span

/-- Where a piece of source begins, and its span. -/
structure Origin where
  line : Nat
  column : Nat
  span : Span
deriving DecidableEq, Repr, Inhabited

/-- The origin of a span. -/
def LineIndex.origin (index : LineIndex) (span : Span) : Origin :=
  let position := index.position span.start
  ⟨position.line, position.column, span⟩

end LintMend
