import Packrat.Text.Bytes

/-!
# Spans of grammar text

A span is a pair of byte offsets. Spans are stored in 32 bits each, so offsets beyond that are
clamped: a span of a text below four gibibytes is exact, and no text makes one overflow.
-/

namespace Packrat

/-- Byte offsets of the first character of a piece of text and of what follows it. -/
structure Span where
  start : Nat
  stop : Nat
  deriving DecidableEq, Repr, Inhabited

namespace Span

/-- The largest offset a span can hold. -/
def maxOffset : Nat := 0xFFFFFFFF

/-- The span between two offsets, clamped. -/
def between (start stop : Nat) : Span := ⟨min start maxOffset, min stop maxOffset⟩

theorem between_of_le {start stop : Nat} (h₁ : start ≤ maxOffset) (h₂ : stop ≤ maxOffset) :
    between start stop = ⟨start, stop⟩ := by
  rw [between, Nat.min_eq_left h₁, Nat.min_eq_left h₂]

/-- Bytes between the offsets; an inverted span has none. -/
def length (s : Span) : Nat := s.stop - s.start

/-- Whether no byte lies between the offsets. -/
def isEmpty (s : Span) : Bool := s.stop ≤ s.start

theorem isEmpty_iff_length_eq_zero (s : Span) : s.isEmpty ↔ s.length = 0 := by
  simp [isEmpty, length, Nat.sub_eq_zero_iff_le]

/-- The text under the span, if both offsets fall between characters of the text. -/
def textIn? (s : Span) (text : String) : Option String := Text.slice? text s.start s.stop

end Span

end Packrat
