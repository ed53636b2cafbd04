import Packrat.State

/-!
# Readers of grammar text

Grammar text is read by recursive descent over the same `State` that later parses run on, without a
memory and without line tracking. A reader takes the state on, with or without a result; a reader
that fails may leave the cursor where it got to, and `attempt` is what puts it back. Failures stay
reported when a reader is given up, so the error on a malformed text names everything that was tried
at the furthest place.

## Inverted ranges

A class range such as `z-a` is read like any other. The first one is noted, also in a branch that is
given up later, and it refuses the text once the whole of it has been read.

## Repetition

`many` needs no bound of its own. A reader under it consumes at least one character whenever it
succeeds, so it can succeed no more often than there are characters ahead, and then fails once.
-/

namespace Packrat

/-- The state of reading a grammar text. -/
structure ReaderState where
  state : State
  /-- The first inverted class range, as the class would show it, and its place. -/
  inverted : Option (String × Span)

/-- Takes the state on, with or without a result. -/
def Reader (α : Type) : Type := ReaderState → Option α × ReaderState

namespace Reader

variable {α β : Type}

instance : Monad Reader where
  pure a := fun s => (some a, s)
  bind p f := fun s =>
    match p s with
    | (some a, s) => f a s
    | (none, s) => (none, s)

@[simp] theorem pure_apply (a : α) (s : ReaderState) : (pure a : Reader α) s = (some a, s) := rfl

theorem bind_apply (p : Reader α) (f : α → Reader β) (s : ReaderState) :
    (p >>= f) s =
      match p s with
      | (some a, s) => f a s
      | (none, s) => (none, s) := rfl

theorem bind_apply_of_some {p : Reader α} {s t : ReaderState} {a : α} (h : p s = (some a, t))
    (f : α → Reader β) : (p >>= f) s = f a t := by
  rw [bind_apply, h]

theorem bind_apply_of_none {p : Reader α} {s t : ReaderState} (h : p s = (none, t))
    (f : α → Reader β) : (p >>= f) s = (none, t) := by
  rw [bind_apply, h]

/-- The order in which readers are put together does not matter, only the order in which they
run. -/
instance : LawfulMonad Reader :=
  LawfulMonad.mk' Reader
    (fun p => by
      funext s
      change (p >>= fun a => pure a) s = p s
      rw [bind_apply]
      split
      · next h => exact h.symm
      · next h => exact h.symm)
    (fun _ _ => rfl)
    (fun p f g => by
      funext s
      simp only [bind_apply]
      cases h : p s with
      | mk a t => cases a <;> rfl)

/-- No result. -/
def fail : Reader α := fun s => (none, s)

/-- The second reader takes over where the first one failed. -/
def orElse (p : Reader α) (q : Unit → Reader α) : Reader α := fun s =>
  match p s with
  | (some a, s) => (some a, s)
  | (none, s) => q () s

instance : OrElse (Reader α) := ⟨orElse⟩

/-- Puts a step of the parse state to use. -/
def ofStep (step : State → Option α × State) : Reader α := fun s =>
  let (a, state) := step s.state
  (a, { s with state })

/-- Succeeds with what the reader gives, if anything. -/
def option (p : Reader α) : Reader (Option α) := fun s =>
  let (a, s) := p s
  (some a, s)

/-- Whether the reader succeeds. -/
def succeeds (p : Reader α) : Reader Bool := fun s =>
  let (a, s) := p s
  (some a.isSome, s)

/-- Where the text ahead begins. -/
def cursor : Reader Cursor := fun s => (some s.state.cursor, s)

/-- Goes back to where it began if the reader fails. -/
def attempt (p : Reader α) : Reader α := fun s =>
  match p s with
  | (some a, s') => (some a, s')
  | (none, s') => (none, { s' with state := s'.state.moveTo s.state.cursor })

/-- Reports none of the failures of the reader. -/
def quietly (p : Reader α) : Reader α := fun s =>
  let (a, s) := p { s with state := s.state.suspend }
  (a, { s with state := s.state.resume })

/-- Reports a failure of the reader under a name of its own. -/
def named (name : String) (p : Reader α) : Reader α := fun s =>
  match quietly (attempt p) s with
  | (some a, s) => (some a, s)
  | (none, s) => (none, { s with state := s.state.fail name })

/-- Whether the reader would succeed; consumes and reports nothing. -/
def peek (p : Reader α) : Reader Bool := fun s =>
  let (a, s') := quietly p s
  (some a.isSome, { s' with state := s'.state.moveTo s.state.cursor })

/-- The results of the reader until it fails, `bound` of them at the most. -/
def collect (p : Reader α) : (bound : Nat) → ReaderState → List α × ReaderState
  | 0, s => ([], s)
  | bound + 1, s =>
    match p s with
    | (none, s) => ([], s)
    | (some a, s) =>
      let (as, s) := collect p bound s
      (a :: as, s)

/-- The results of the reader until it fails. -/
def many (p : Reader α) : Reader (List α) := fun s =>
  let (as, s) := collect p (s.state.cursor.ahead.length + 1) s
  (some as, s)

/-- A text, which is reported quoted if it is not there. -/
def text (value : String) : Reader Unit := do
  let _ ← ofStep (·.literal value false (Text.quote value))

/-- One character that satisfies `p`. -/
def charWhere (p : Char → Bool) (description : String) : Reader Char :=
  ofStep (·.charWhere p description)

/-- Any one character. -/
def anyChar : Reader Char := charWhere (fun _ => true) State.anyCharacter

/-- The text consumed since a cursor. -/
def textSince (begun : Cursor) : Reader (List Char) := do
  return begun.textUpTo (← cursor)

/-- The span consumed since a cursor. -/
def spanSince (begun : Cursor) : Reader Span := do
  return .between begun.offset (← cursor).offset

/-- Notes an inverted range, unless one is noted already. -/
def noteInverted (range : String) (span : Span) : Reader Unit := fun s =>
  (some (), { s with inverted := s.inverted.or (some (range, span)) })

/-- Reads a whole text. An inverted range refuses it before anything else is considered. -/
def run (p : Reader α) (source : String) : Except GrammarError α :=
  let (a, s) := p ⟨State.start false false source.toList, none⟩
  match s.inverted with
  | some (range, span) => .error (.invertedRange range span)
  | none => (s.state.finish a).mapError .malformed

end Reader

end Packrat
