import Packrat.Position
import Mathlib.Data.List.DropRight

/-!
# Which line an offset is on

`Lines` counts from left to right and remembers one thing about the character before: whether a
`\n` may complete the line end it was. What that comes to for a whole text is said here without the
memory, by looking at every character and at the one behind it.

A line ends at `\n`, at `\r` unless a `\n` follows, at `U+2028` and at `U+2029`; the pair `\r\n` is
one end, that of its `\n`. This is `lineEnds`. The count has fewer lines in one case: a `\n` behind
`U+2028` or `U+2029` sets the column back and leaves the line, though these two do not pair up with
anything. `absorbed` is the number of such characters, and the line of an offset is short of the
line ends in front of it by exactly that number. The column has no such exception.

Everything is about the text in front of the offset. An offset between the two halves of `\r\n`
needs no exclusion: the `\r` then has nothing behind it and ends its line.

## Main results

* `Lines.line_foldl`: the line after any text, from any state of the count
* `Lines.column_foldl`: the column after any text
* `Position.at_lineEnds`: line and column of an offset, found at once or piece by piece
-/

namespace Packrat

open Text (byteLength)

namespace Lines

/-- The characters that end a line. -/
def EndsLine (c : Char) : Prop := c = '\n' ∨ c = '\r' ∨ c = '\u2028' ∨ c = '\u2029'

instance : DecidablePred EndsLine := fun c =>
  inferInstanceAs (Decidable (c = '\n' ∨ c = '\r' ∨ c = '\u2028' ∨ c = '\u2029'))

/-- Line ends of the text. A `\r` in front of a `\n` is the first half of one. -/
def lineEnds : List Char → Nat
  | [] => 0
  | c :: cs => lineEnds cs + if EndsLine c ∧ ¬(c = '\r' ∧ cs.head? = some '\n') then 1 else 0

/-- Line feeds right behind one of the separators `U+2028` and `U+2029`. -/
def absorbed : List Char → Nat
  | [] => 0
  | c :: cs =>
    absorbed cs + if (c = '\u2028' ∨ c = '\u2029') ∧ cs.head? = some '\n' then 1 else 0

/-- The text behind the last line end. -/
def lastLine (cs : List Char) : List Char := cs.rtakeWhile fun c => ¬EndsLine c

theorem step_of_not_endsLine {c : Char} (h : ¬EndsLine c) (l : Lines) :
    l.step c = ⟨l.line, l.column + 1, false⟩ := by
  obtain ⟨hn, hends⟩ := not_or.mp h
  rw [step, if_neg hn, if_neg hends]

theorem column_step_of_endsLine {c : Char} (h : EndsLine c) (l : Lines) :
    (l.step c).column = 1 := by
  obtain rfl | hends := h
  · rfl
  · by_cases hn : c = '\n'
    · rw [step, if_pos hn]
    · rw [step, if_neg hn, if_pos hends]

/-- The line behind a text, counted on from any state. A `\n` at the beginning of the text may
belong to a line end in front of it, which the flag tells. -/
theorem line_foldl (cs : List Char) (l : Lines) :
    (cs.foldl step l).line + absorbed cs
        + (if l.afterEnd = true ∧ cs.head? = some '\n' then 1 else 0) =
      l.line + lineEnds cs := by
  induction cs generalizing l with
  | nil => simp [absorbed, lineEnds]
  | cons c cs ih =>
    have hrest := ih (l.step c)
    rw [List.foldl_cons, absorbed, lineEnds, List.head?_cons]
    by_cases hends : EndsLine c
    · obtain rfl | rfl | rfl | rfl := hends
      · cases hafter : l.afterEnd <;> simp_all [step, EndsLine] <;> omega
      all_goals
        by_cases hnext : cs.head? = some '\n' <;> simp_all [step, EndsLine] <;> omega
    · have hc : c ≠ '\n' ∧ c ≠ '\u2028' ∧ c ≠ '\u2029' := by
        simp only [EndsLine, not_or] at hends
        exact ⟨hends.1, hends.2.2⟩
      rw [step_of_not_endsLine hends] at hrest ⊢
      simpa [hends, hc] using hrest

theorem column_foldl (cs : List Char) :
    (cs.foldl step {}).column = 1 + (lastLine cs).length := by
  induction cs using List.reverseRecOn with
  | nil => rfl
  | append_singleton cs c ih =>
    rw [List.foldl_append, List.foldl_cons, List.foldl_nil, lastLine, List.rtakeWhile_concat]
    by_cases hends : EndsLine c
    · simp [column_step_of_endsLine hends, hends]
    · rw [step_of_not_endsLine hends, ih, lastLine]
      simp [hends, Nat.add_assoc]

end Lines

namespace Position

open Lines (lineEnds absorbed lastLine)

theorem at?_append (before after : List Char) :
    at? (before ++ after) (byteLength before) = some (behind before) := by
  rw [at?, Text.splitAtByte?_append]
  rfl

theorem behind_eq (cs : List Char) :
    behind cs = ⟨byteLength cs, some (cs.foldl Lines.step {})⟩ := by
  have hlines := lines_advance (start true) cs
  have hoffset := offset_advance (start true) cs
  rw [start, Nat.zero_add] at hoffset
  calc behind cs = ⟨(behind cs).offset, (behind cs).lines⟩ := rfl
    _ = _ := by rw [behind, hlines, start, hoffset]; rfl

/-- Advancing piece by piece is advancing over all of it. -/
theorem foldl_advance (p : Position) (pieces : List (List Char)) :
    pieces.foldl advance p = p.advance pieces.flatten := by
  induction pieces generalizing p with
  | nil => rfl
  | cons piece pieces ih => rw [List.foldl_cons, ih, List.flatten_cons, advance_append]

/-- The position of an offset in a text: its line is one more than the line ends in front of it,
less the line feeds behind a separator, and its column is one more than the characters since. Moving
there from the beginning in pieces of any size leads to the same position. -/
theorem at_lineEnds (before after : List Char) :
    ∃ l : Lines,
      at? (before ++ after) (byteLength before) = some ⟨byteLength before, some l⟩ ∧
      l.line + absorbed before = 1 + lineEnds before ∧
      l.column = 1 + (lastLine before).length ∧
      ∀ pieces : List (List Char), pieces.flatten = before →
        pieces.foldl advance (start true) = ⟨byteLength before, some l⟩ := by
  refine ⟨before.foldl Lines.step {}, ?_, ?_, Lines.column_foldl before, fun pieces hpieces => ?_⟩
  · rw [at?_append, behind_eq]
  · have hline := Lines.line_foldl before {}
    simpa using hline
  · rw [foldl_advance, hpieces, ← behind_eq]
    rfl

/-- Three pieces, the first of which ends inside the pair `\r\n`. -/
theorem at_lineEnds_pieces :
    ['a', '\r'] ++ ['\n', '\u2028', '\n'] ++ ['b'] = ['a', '\r', '\n', '\u2028', '\n', 'b'] ∧
      ∃ l : Lines,
        at? ['a', '\r', '\n', '\u2028', '\n', 'b', 'c'] 8 = some ⟨8, some l⟩ ∧
        l.line = 3 ∧ l.column = 2 ∧
        [['a', '\r'], ['\n', '\u2028', '\n'], ['b']].foldl advance (start true) = ⟨8, some l⟩ := by
  obtain ⟨l, hat, hline, hcolumn, hpieces⟩ :=
    at_lineEnds ['a', '\r', '\n', '\u2028', '\n', 'b'] ['c']
  have habsorbed : absorbed ['a', '\r', '\n', '\u2028', '\n', 'b'] = 1 := by decide
  have hends : lineEnds ['a', '\r', '\n', '\u2028', '\n', 'b'] = 3 := by decide
  refine ⟨rfl, l, hat, ?_, ?_, hpieces _ rfl⟩
  · omega
  · rw [hcolumn]
    rfl

/-- A line feed behind `U+2028` ends the second line of this text, and the offset behind it is
counted to that line. -/
theorem at_separator_lineFeed :
    at? ['\u2028', '\n'] 4 = some ⟨4, some ⟨2, 1, false⟩⟩ ∧ lineEnds ['\u2028', '\n'] = 2 ∧
      ¬(∃ l, at? ['\u2028', '\n'] 4 = some ⟨4, some l⟩ ∧
        l.line = 1 + lineEnds ['\u2028', '\n']) := by
  have hat : at? ['\u2028', '\n'] 4 = some ⟨4, some ⟨2, 1, false⟩⟩ := by decide
  refine ⟨hat, by decide, ?_⟩
  rintro ⟨l, hl, hline⟩
  rw [hat] at hl
  cases hl
  exact absurd hline (by decide)

end Position

end Packrat
