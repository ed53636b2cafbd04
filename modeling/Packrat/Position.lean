import Packrat.Text.Bytes

/-!
# Positions and cursors

A position is a byte offset, with the line and column there when a parse tracks them. Lines end at
`\n`, `\r`, `U+2028` and `U+2029`; a `\n` right after another line end completes that one and opens
no line of its own, which is what makes `\r\n` a single line end. Because the two halves of that
pair may be consumed by different steps, the count carries the flag `afterEnd` across them.

A cursor is a position together with the text ahead of it. Reading the next character needs no
search in the text, and going back is putting an old cursor in place of the new one. That the text
ahead really is what follows the offset is an invariant of how cursors come about, `Cursor.Within`:
a cursor starts in front of the whole text and moves over characters it finds ahead.

## Main results

* `Position.advance_append`: a position depends on the text passed, not on how it was cut
* `Cursor.Within.step`, `Cursor.Within.advance?`: moving keeps a cursor within its text
-/

namespace Packrat

open Text (byteLength splitAtByte?)

/-- A running count of lines and columns, both from one. -/
structure Lines where
  line : Nat := 1
  column : Nat := 1
  /-- The last character was a line end that a `\n` may complete. -/
  afterEnd : Bool := false
  deriving DecidableEq, Repr

/-- Counts one more character. -/
def Lines.step (l : Lines) (c : Char) : Lines :=
  if c = '\n' then
    ⟨if l.afterEnd then l.line else l.line + 1, 1, false⟩
  else if c = '\r' ∨ c = '\u2028' ∨ c = '\u2029' then
    ⟨l.line + 1, 1, true⟩
  else
    ⟨l.line, l.column + 1, false⟩

/-- A place in a text. -/
structure Position where
  /-- Bytes before the place. -/
  offset : Nat
  /-- The count of lines, when they are tracked. -/
  lines : Option Lines
  deriving DecidableEq, Repr

namespace Position

/-- The beginning of a text. -/
def start (tracked : Bool) : Position := ⟨0, if tracked then some {} else none⟩

/-- The position behind one more character. -/
def step (p : Position) (c : Char) : Position :=
  ⟨p.offset + c.utf8Size, p.lines.map (·.step c)⟩

/-- The position behind more characters. -/
def advance (p : Position) (cs : List Char) : Position := cs.foldl step p

/-- Line and column, when they are tracked. -/
def lineColumn (p : Position) : Option (Nat × Nat) := p.lines.map fun l => (l.line, l.column)

@[simp] theorem advance_nil (p : Position) : p.advance [] = p := rfl

@[simp] theorem advance_cons (p : Position) (c : Char) (cs : List Char) :
    p.advance (c :: cs) = (p.step c).advance cs := rfl

theorem advance_append (p : Position) (a b : List Char) :
    p.advance (a ++ b) = (p.advance a).advance b := by
  simp [advance]

@[simp] theorem offset_step (p : Position) (c : Char) :
    (p.step c).offset = p.offset + c.utf8Size := rfl

@[simp] theorem offset_advance (p : Position) (cs : List Char) :
    (p.advance cs).offset = p.offset + byteLength cs := by
  induction cs generalizing p with
  | nil => simp
  | cons c cs ih => simp [ih, Nat.add_assoc]

/-- The position behind a text, found by counting from its beginning. -/
def behind (text : List Char) : Position := (start true).advance text

theorem lines_advance (p : Position) (cs : List Char) :
    (p.advance cs).lines = p.lines.map fun l => cs.foldl Lines.step l := by
  induction cs generalizing p with
  | nil => simp
  | cons c cs ih => simp [ih, step, Function.comp_def]

/-- Where the byte offset of a text is; `none` where no character begins. -/
def at? (text : List Char) (offset : Nat) : Option Position :=
  (splitAtByte? offset text).map fun (before, _) => behind before

/-- Line and column of an offset, found by counting from the beginning of the text. -/
def lineColumnAt (text : List Char) (offset : Nat) : Nat × Nat :=
  ((at? text offset).bind lineColumn).getD (1, 1)

end Position

/-- A position and the text ahead of it. -/
structure Cursor where
  position : Position
  ahead : List Char
  deriving DecidableEq, Repr

namespace Cursor

/-- The cursor in front of a whole text. -/
def start (tracked : Bool) (text : List Char) : Cursor := ⟨Position.start tracked, text⟩

/-- The byte offset of the cursor. -/
def offset (c : Cursor) : Nat := c.position.offset

/-- The cursor behind the next character; at the end it stays. -/
def step (c : Cursor) : Cursor :=
  match c.ahead with
  | [] => c
  | ch :: rest => ⟨c.position.step ch, rest⟩

/-- The cursor `n` characters further, or at the end. -/
def skip (c : Cursor) (n : Nat) : Cursor :=
  ⟨c.position.advance (c.ahead.take n), c.ahead.drop n⟩

/-- The next `len` bytes and the cursor behind them. -/
def advance? (c : Cursor) (len : Nat) : Option (List Char × Cursor) :=
  (splitAtByte? len c.ahead).map fun (taken, rest) => (taken, ⟨c.position.advance taken, rest⟩)

/-- The text from the cursor up to a later one. -/
def textUpTo (c later : Cursor) : List Char :=
  ((c.advance? (later.offset - c.offset)).map Prod.fst).getD []

@[simp] theorem skip_zero (c : Cursor) : c.skip 0 = c := rfl

@[simp] theorem offset_skip (c : Cursor) (n : Nat) :
    (c.skip n).offset = c.offset + Text.byteLength (c.ahead.take n) := by
  simp [skip, offset]

@[simp] theorem ahead_skip (c : Cursor) (n : Nat) : (c.skip n).ahead = c.ahead.drop n := rfl

@[simp] theorem skip_skip (c : Cursor) (m n : Nat) : (c.skip m).skip n = c.skip (m + n) := by
  simp only [skip, List.take_add, Position.advance_append, List.drop_drop]

theorem step_eq_skip (c : Cursor) : c.step = c.skip 1 := by
  obtain ⟨position, _ | ⟨ch, rest⟩⟩ := c <;> rfl

@[simp] theorem textUpTo_skip (c : Cursor) (n : Nat) :
    c.textUpTo (c.skip n) = c.ahead.take n := by
  have h := Text.splitAtByte?_append (c.ahead.take n) (c.ahead.drop n)
  rw [List.take_append_drop] at h
  simp [textUpTo, advance?, h]

/-- The cursor stands in the text: what it passed and what lies ahead make up the text, and its
position is what counting over the passed part gives. -/
def Within (tracked : Bool) (text : List Char) (c : Cursor) : Prop :=
  ∃ passed, text = passed ++ c.ahead ∧ c.position = (Position.start tracked).advance passed

theorem within_start (tracked : Bool) (text : List Char) :
    Within tracked text (start tracked text) := ⟨[], rfl, rfl⟩

theorem Within.skip {tracked : Bool} {text : List Char} {c : Cursor} (h : Within tracked text c)
    (n : Nat) : Within tracked text (c.skip n) := by
  obtain ⟨passed, htext, hpos⟩ := h
  refine ⟨passed ++ c.ahead.take n, ?_, ?_⟩
  · simp [Cursor.skip, htext]
  · simp [Cursor.skip, hpos, Position.advance_append]

theorem Within.step {tracked : Bool} {text : List Char} {c : Cursor} (h : Within tracked text c) :
    Within tracked text c.step := c.step_eq_skip ▸ h.skip 1

theorem Within.advance? {tracked : Bool} {text taken : List Char} {c d : Cursor} {len : Nat}
    (h : Within tracked text c) (hd : c.advance? len = some (taken, d)) :
    Within tracked text d := by
  obtain ⟨passed, htext, hpos⟩ := h
  simp only [Cursor.advance?, Option.map_eq_some_iff, Prod.exists, Prod.mk.injEq,
    Text.splitAtByte?_eq_some_iff] at hd
  obtain ⟨a, b, ⟨hab, -⟩, rfl, rfl⟩ := hd
  exact ⟨passed ++ a, by simp [htext, hab], by simp [hpos, Position.advance_append]⟩

end Cursor

end Packrat
