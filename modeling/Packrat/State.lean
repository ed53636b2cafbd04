import Std.Data.HashMap
import Packrat.CharClass
import Packrat.Context
import Packrat.Error
import Packrat.Position

/-!
# The state of a parse

A parse moves one cursor over its text. A step that matches moves the cursor behind what it
consumed; a step that fails leaves the cursor alone and reports a failure.

## Failures

An error message speaks about the furthest place that any step got to, not about the place where
the last attempt gave up. So the state keeps one place, `failure`, and what was expected there: a
failure further on replaces both, one at the same place adds a description, one before it is
dropped. A literal fails behind the characters that still agree with it, which is what lets
`"abc"` and `"abd"` share a report. While reporting is suspended, failures leave no mark at all.

When the text matched and then goes on past every failure, nothing but its end would have been
accepted there; `error` then reports the cursor with no description.

## Memory

With a memory, results of rules are kept by rule, offset and whether failures were being reported:
a result found while reporting was suspended has reported nothing, so it cannot stand in for one
that would have to.

## Journal

The journal lists what happened, newest first. No step reads it; it is what a host sees of a parse
besides its result.
-/

namespace Packrat

/-- One entry of the journal of a parse. -/
inductive Event where
  /-- A failure was reported. -/
  | failed (offset : Nat) (description : String)
  /-- The body of a rule was entered. -/
  | entered (rule : Nat) (offset : Nat) (reporting : Bool)
  /-- The code at a site was called. -/
  | called (site : Nat) (context : Context)
  deriving BEq, Repr

/-- What a remembered result depends on. -/
structure MemoKey where
  rule : Nat
  offset : Nat
  reporting : Bool
  deriving DecidableEq, Hashable, Repr

/-- A remembered result of a rule, and the cursor behind it. -/
structure MemoEntry where
  result : Option Value
  after : Cursor

/-- Remembered results of rules. -/
abbrev Memory := Std.HashMap MemoKey MemoEntry

/-- A parse in progress. -/
structure State where
  /-- The whole text. -/
  text : List Char
  cursor : Cursor
  /-- How often reporting was suspended and not resumed. -/
  suspended : Nat
  /-- The furthest place of a reported failure. -/
  failure : Cursor
  /-- Descriptions of the failures there, in the order of the reports. -/
  expected : List String
  /-- Remembered results, if results are remembered. -/
  memory : Option Memory
  journal : List Event

namespace State

/-- The state before the first step. -/
def start (tracked remembers : Bool) (text : List Char) : State where
  text := text
  cursor := Cursor.start tracked text
  suspended := 0
  failure := Cursor.start tracked text
  expected := []
  memory := if remembers then some ∅ else none
  journal := []

/-- Byte offset of the cursor. -/
def offset (s : State) : Nat := s.cursor.offset

/-- Whether the whole text is consumed. -/
def atEnd (s : State) : Bool := s.cursor.ahead.isEmpty

/-- The state with the cursor elsewhere. -/
def moveTo (s : State) (c : Cursor) : State := { s with cursor := c }

/-- Adds to the journal. -/
def note (s : State) (e : Event) : State := { s with journal := e :: s.journal }

/-! ## Reporting -/

/-- Whether failures are reported. -/
def reporting (s : State) : Bool := s.suspended == 0

/-- Suspends reporting until the matching `resume`. -/
def suspend (s : State) : State := { s with suspended := s.suspended + 1 }

/-- Ends the last suspension. -/
def resume (s : State) : State := { s with suspended := s.suspended - 1 }

/-- Ends the last suspension, if there is one. -/
def resume? (s : State) : Except Fault State :=
  if s.suspended = 0 then .error .notSuspended else .ok s.resume

/-- Reports that `description` failed to match at a place. -/
def failAt (s : State) (place : Cursor) (description : String) : State :=
  if s.reporting then
    let s := s.note (.failed place.offset description)
    if place.offset < s.failure.offset then s
    else if s.failure.offset < place.offset then
      { s with failure := place, expected := [description] }
    else { s with expected := s.expected ++ [description] }
  else s

/-- Reports that `description` failed to match at the cursor. -/
def fail (s : State) (description : String) : State := s.failAt s.cursor description

/-- Reports that `description` failed to match `len` bytes behind the cursor. The place matters only
while failures are reported. -/
def failAfter? (s : State) (len : Nat) (description : String) : Except Fault State :=
  if s.reporting then
    match s.cursor.advance? len with
    | some (_, place) => .ok (s.failAt place description)
    | none => .error .offsetNotABoundary
  else .ok s

/-! ## Steps -/

/-- Consumes the next `len` bytes. -/
def advance? (s : State) (len : Nat) : Except Fault (String × State) :=
  match s.cursor.advance? len with
  | some (taken, c) => .ok (String.ofList taken, s.moveTo c)
  | none => .error .offsetNotABoundary

/-- Number of leading places at which two lists agree. -/
def agreement (same : Char → Char → Bool) : List Char → List Char → Nat
  | a :: as, b :: bs => if same a b then agreement same as bs + 1 else 0
  | _, _ => 0

/-- Whether two characters agree, in their full small forms if case is ignored. -/
def agree (ignoreCase : Bool) (a b : Char) : Bool :=
  if ignoreCase then Text.lower a == Text.lower b else a == b

/-- Matches a text. The result is what was consumed, which is the text itself unless case is
ignored. -/
def literal (s : State) (value : String) (ignoreCase : Bool) (description : String) :
    Option Value × State :=
  let n := agreement (agree ignoreCase) s.cursor.ahead value.toList
  let place := s.cursor.skip n
  if n = value.toList.length then
    (some (.str (String.ofList (s.cursor.ahead.take n))), s.moveTo place)
  else (none, s.failAt place description)

/-- Consumes one character that satisfies `p`. -/
def charWhere (s : State) (p : Char → Bool) (description : String) : Option Char × State :=
  match s.cursor.ahead with
  | c :: _ => if p c then (some c, s.moveTo s.cursor.step) else (none, s.fail description)
  | [] => (none, s.fail description)

/-- Consumes one character that satisfies `p`, as a value. -/
def charValue (s : State) (p : Char → Bool) (description : String) : Option Value × State :=
  let (c?, s) := s.charWhere p description
  (c?.map fun c => .str (String.singleton c), s)

/-- Matches a character class. -/
def charClass (s : State) (k : CharClass) (description : String) : Option Value × State :=
  s.charValue k.accepts description

/-- What `.` fails with. -/
def anyCharacter : String := "any character"

/-- Matches any one character. -/
def any (s : State) : Option Value × State := s.charValue (fun _ => true) anyCharacter

/-! ## Memory -/

/-- The key of a rule at an offset. -/
def memoKey (s : State) (rule offset : Nat) : MemoKey := ⟨rule, offset, s.reporting⟩

/-- The remembered result of a rule at the cursor. A hit moves the cursor behind that match. -/
def lookUp (s : State) (rule : Nat) : Option (Option Value × State) := do
  let memory ← s.memory
  let entry ← memory[s.memoKey rule s.offset]?
  return (entry.result, s.moveTo entry.after)

/-- Remembers the result of a rule that began at `begun` and ended at the cursor. -/
def remember (s : State) (rule : Nat) (begun : Cursor) (result : Option Value) : State :=
  { s with
    memory := s.memory.map fun m => m.insert (s.memoKey rule begun.offset) ⟨result, s.cursor⟩ }

/-! ## The end of a parse -/

/-- The report on the furthest place reached. -/
def error (s : State) : SyntaxError :=
  let (place, expected) :=
    if s.failure.offset < s.cursor.offset then (s.cursor, []) else (s.failure, s.expected)
  let (line, column) :=
    place.position.lineColumn.getD (Position.lineColumnAt s.text place.offset)
  .of expected (place.ahead.head?.map String.singleton) place.offset line column

/-- The result of the start rule counts only if nothing is left of the text. -/
def finish {α : Type} (s : State) (result : Option α) : Except SyntaxError α :=
  match result with
  | some a => if s.atEnd then .ok a else .error s.error
  | none => .error s.error

/-! ## Agreement with a text -/

/-- All characters of a text agree where it is ahead. -/
theorem agreement_eq_length_iff {as bs : List Char} :
    agreement (agree false) as bs = bs.length ↔ bs <+: as := by
  induction bs generalizing as with
  | nil => cases as <;> simp [agreement]
  | cons b bs ih =>
    cases as with
    | nil => simp [agreement]
    | cons a as =>
      rw [agreement, List.cons_prefix_cons, List.length_cons]
      by_cases hab : a = b
      · subst hab
        simp [agree, ih]
      · have hba : ¬ b = a := fun h => hab h.symm
        simp [agree, hab, hba]

/-! ## What the operations keep -/

@[simp] theorem cursor_note (s : State) (e : Event) : (s.note e).cursor = s.cursor := rfl

@[simp] theorem suspended_note (s : State) (e : Event) : (s.note e).suspended = s.suspended := rfl

@[simp] theorem cursor_moveTo (s : State) (c : Cursor) : (s.moveTo c).cursor = c := rfl

@[simp] theorem suspended_moveTo (s : State) (c : Cursor) :
    (s.moveTo c).suspended = s.suspended := rfl

@[simp] theorem resume_suspend (s : State) : s.suspend.resume = s := by
  simp [suspend, resume]

@[simp] theorem cursor_failAt (s : State) (place : Cursor) (d : String) :
    (s.failAt place d).cursor = s.cursor := by
  simp only [failAt]
  repeat' split
  all_goals rfl

@[simp] theorem suspended_failAt (s : State) (place : Cursor) (d : String) :
    (s.failAt place d).suspended = s.suspended := by
  simp only [failAt]
  repeat' split
  all_goals rfl

/-- What a memory holds behind a store has just been stored, or was held before. -/
theorem entry_of_remember {s : State} {rule : Nat} {begun : Cursor} {result : Option Value}
    {memory : Memory} {key : MemoKey} {entry : MemoEntry}
    (hmemory : (s.remember rule begun result).memory = some memory)
    (hentry : memory[key]? = some entry) :
    key = s.memoKey rule begun.offset ∧ entry = ⟨result, s.cursor⟩ ∨
      ∃ old, s.memory = some old ∧ old[key]? = some entry := by
  obtain ⟨old, hold, rfl⟩ := Option.map_eq_some_iff.mp hmemory
  rw [Std.HashMap.getElem?_insert] at hentry
  split at hentry
  · next hkey => exact .inl ⟨(eq_of_beq hkey).symm, (Option.some.inj hentry).symm⟩
  · exact .inr ⟨old, hold, hentry⟩

/-- A suspended state takes no failures. -/
theorem failAt_of_suspended {s : State} (h : s.suspended ≠ 0) (place : Cursor) (d : String) :
    s.failAt place d = s := by
  simp [failAt, reporting, h]

end State

end Packrat
