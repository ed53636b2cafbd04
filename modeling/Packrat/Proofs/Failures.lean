import Mathlib.Data.List.Sort
import Packrat.State

/-!
# Reported failures

The state of a parse keeps a summary of the failures that were reported: the furthest place and the
descriptions there. The journal lists all of them, so the summary must be what the journal says.
`State.Sound` is that invariant, together with the fact that the cursors of a state stand in its
text.

The summary is then determined by the set of failures in the journal. Two parses may report failures
in different orders and different numbers of times; as long as they report the same ones, they end
with the same error.

## Main results

* `Sound.moveTo`, `Sound.failAt`: the steps of a parse keep the invariant
* `Sound.error_eq`: the error depends only on the set of failures and on the cursor
-/

namespace Packrat

/-! ### Cursors of one text -/

namespace Cursor

variable {tracked : Bool} {text passed : List Char} {c d : Cursor}

theorem offset_of_passed (h : c.position = (Position.start tracked).advance passed) :
    c.offset = Text.byteLength passed := by
  rw [offset, h, Position.offset_advance]
  exact Nat.zero_add _

/-- An offset belongs to one cursor of a text. -/
theorem Within.eq_of_offset (hc : Within tracked text c) (hd : Within tracked text d)
    (h : c.offset = d.offset) : c = d := by
  obtain ⟨a, hta, hca⟩ := hc
  obtain ⟨b, htb, hdb⟩ := hd
  have hlen : Text.byteLength a = Text.byteLength b := by
    rw [← offset_of_passed hca, ← offset_of_passed hdb, h]
  have hcut := Text.splitAtByte?_append a c.ahead
  rw [hlen, ← hta, htb, Text.splitAtByte?_append b d.ahead] at hcut
  obtain ⟨rfl, hahead⟩ := Prod.mk.inj (Option.some.inj hcut)
  cases c
  cases d
  simp_all

theorem Within.exists_before (h : Within tracked text c) :
    ∃ before, text = before ++ c.ahead ∧ c.offset = Text.byteLength before := by
  obtain ⟨before, htext, hposition⟩ := h
  exact ⟨before, htext, offset_of_passed hposition⟩

/-- The line and the column of the place, which a cursor that counts lines has. -/
theorem Within.exists_lineColumn (h : Within tracked text c) : ∃ lines,
    (Position.at? text c.offset).bind Position.lineColumn = some lines ∧
      c.position.lineColumn = if tracked then some lines else none := by
  obtain ⟨before, htext, hposition⟩ := h
  obtain ⟨lines, hlines⟩ : ∃ lines, (Position.behind before).lineColumn = some lines := by
    rw [Position.lineColumn, Position.behind, Position.lines_advance]
    exact ⟨_, rfl⟩
  refine ⟨lines, ?_, ?_⟩
  · rw [Position.at?, offset_of_passed hposition, htext, Text.splitAtByte?_append]
    exact hlines
  · rw [hposition]
    cases tracked with
    | true => exact hlines
    | false =>
      rw [Position.lineColumn, Position.lines_advance]
      rfl

/-- Whether a cursor counts lines or not, they are those in front of it. -/
theorem Within.lineColumn (h : Within tracked text c) :
    (Position.at? text c.offset).bind Position.lineColumn =
      some (c.position.lineColumn.getD (Position.lineColumnAt text c.offset)) := by
  obtain ⟨lines, hlines, hown⟩ := h.exists_lineColumn
  rw [Position.lineColumnAt, hlines, hown]
  cases tracked <;> rfl

end Cursor

/-! ### Summaries -/

/-- A place and descriptions summarize failures: no failure is further on, and the descriptions are
those of the failures there. -/
structure Summarizes (place : Nat) (expected : List String) (failures : List (Nat × String)) :
    Prop where
  furthest : ∀ f ∈ failures, f.1 ≤ place
  /-- Some failure is at the place, unless it is the beginning of the text. -/
  reached : place ≠ 0 → ∃ d, (place, d) ∈ failures
  expected : ∀ d, d ∈ expected ↔ (place, d) ∈ failures

namespace Summarizes

variable {place other : Nat} {expected expected' : List String}
  {failures failures' : List (Nat × String)}

theorem nil : Summarizes 0 [] [] :=
  ⟨by simp, fun h => absurd rfl h, by simp⟩

/-- A failure before the furthest one leaves the summary alone. -/
theorem cons_of_lt (h : Summarizes place expected failures) (hlt : other < place) (d : String) :
    Summarizes place expected ((other, d) :: failures) := by
  refine ⟨?_, ?_, ?_⟩
  · rintro f (_ | ⟨_, hf⟩)
    · exact hlt.le
    · exact h.furthest f hf
  · intro h0
    obtain ⟨e, he⟩ := h.reached h0
    exact ⟨e, List.mem_cons_of_mem _ he⟩
  · intro e
    have hne : (place, e) ≠ (other, d) := fun heq => hlt.ne (Prod.mk.inj heq).1.symm
    simp [h.expected e, hne]

/-- A failure at the furthest place adds its description. -/
theorem cons (h : Summarizes place expected failures) (d : String) :
    Summarizes place (expected ++ [d]) ((place, d) :: failures) := by
  refine ⟨?_, ?_, ?_⟩
  · rintro f (_ | ⟨_, hf⟩)
    · exact le_rfl
    · exact h.furthest f hf
  · exact fun _ => ⟨d, List.mem_cons_self⟩
  · intro e
    simp [h.expected e, or_comm]

/-- A failure further on replaces the summary. -/
theorem cons_of_gt (h : Summarizes place expected failures) (hgt : place < other) (d : String) :
    Summarizes other [d] ((other, d) :: failures) := by
  refine ⟨?_, ?_, ?_⟩
  · rintro f (_ | ⟨_, hf⟩)
    · exact le_rfl
    · exact (h.furthest f hf).trans hgt.le
  · exact fun _ => ⟨d, List.mem_cons_self⟩
  · intro e
    have hnot : (other, e) ∉ failures := fun hmem => (h.furthest _ hmem).not_gt hgt
    simp [hnot]

/-- One of two summaries is not further on if its failures are among the other's. -/
theorem place_le (h : Summarizes place expected failures)
    (h' : Summarizes other expected' failures') (hsub : ∀ f ∈ failures, f ∈ failures') :
    place ≤ other := by
  by_cases h0 : place = 0
  · exact h0 ▸ Nat.zero_le _
  · obtain ⟨d, hd⟩ := h.reached h0
    exact h'.furthest _ (hsub _ hd)

/-- A set of failures has one summary, up to the order of the descriptions and repetitions. -/
theorem unique (h : Summarizes place expected failures)
    (h' : Summarizes other expected' failures') (hset : ∀ f, f ∈ failures ↔ f ∈ failures') :
    place = other ∧ ∀ d, d ∈ expected ↔ d ∈ expected' := by
  have hplace : place = other :=
    le_antisymm (h.place_le h' fun f => (hset f).mp) (h'.place_le h fun f => (hset f).mpr)
  subst hplace
  exact ⟨rfl, fun d => by rw [h.expected, h'.expected, hset]⟩

end Summarizes

/-! ### Failures in a journal -/

/-- The place and description of a reported failure. -/
def Event.failure? : Event → Option (Nat × String)
  | failed offset description => some (offset, description)
  | _ => none

/-- The site and the context of a call of a code block. -/
def Event.call? : Event → Option (Nat × Context)
  | called site cx => some (site, cx)
  | _ => none

namespace State

/-- The failures that were reported, newest first. -/
def failures (s : State) : List (Nat × String) := s.journal.filterMap Event.failure?

/-- The calls of code blocks, newest first. -/
def calls (s : State) : List (Nat × Context) := s.journal.filterMap Event.call?

@[simp] theorem failures_moveTo (s : State) (c : Cursor) : (s.moveTo c).failures = s.failures := rfl

@[simp] theorem failures_suspend (s : State) : s.suspend.failures = s.failures := rfl

@[simp] theorem failures_remember (s : State) (rule : Nat) (c : Cursor) (r : Option Value) :
    (s.remember rule c r).failures = s.failures := rfl

/-- A report adds one event, unless reporting is suspended. -/
theorem journal_failAt (s : State) (place : Cursor) (d : String) :
    (s.failAt place d).journal =
      if s.reporting then .failed place.offset d :: s.journal else s.journal := by
  unfold failAt
  split
  · dsimp only [note]
    split_ifs <;> rfl
  · rfl

/-- The event is a failure. -/
theorem failures_failAt (s : State) (place : Cursor) (d : String) :
    (s.failAt place d).failures =
      if s.reporting then (place.offset, d) :: s.failures else s.failures := by
  rw [failures, journal_failAt]
  split <;> rfl

theorem calls_failAt (s : State) (place : Cursor) (d : String) :
    (s.failAt place d).calls = s.calls := by
  rw [calls, journal_failAt]
  split <;> rfl

theorem reporting_failAt (s : State) (place : Cursor) (d : String) :
    (s.failAt place d).reporting = s.reporting := by
  rw [reporting, suspended_failAt, reporting]

theorem memory_failAt (s : State) (place : Cursor) (d : String) :
    (s.failAt place d).memory = s.memory := by
  unfold failAt
  split
  · dsimp only
    split_ifs <;> rfl
  · rfl

/-- A report while failures are reported, field by field. -/
theorem failAt_of_reporting {s : State} (h : s.reporting) (place : Cursor) (d : String) :
    s.failAt place d = { s with
      failure := if s.failure.offset < place.offset then place else s.failure
      expected := if place.offset < s.failure.offset then s.expected
        else if s.failure.offset < place.offset then [d] else s.expected ++ [d]
      journal := .failed place.offset d :: s.journal } := by
  rw [failAt, if_pos h]
  dsimp only [note]
  split_ifs
  · omega
  · rfl
  · rfl
  · rfl

/-- The state with only some of the events in its journal. -/
def keeping (p : Event → Bool) (s : State) : State := { s with journal := s.journal.filter p }

/-- Reports depend on no event, and are kept if failures are. -/
theorem failAt_keeping {p : Event → Bool} (hp : ∀ offset d, p (.failed offset d) = true)
    (s : State) (place : Cursor) (d : String) :
    (s.keeping p).failAt place d = (s.failAt place d).keeping p := by
  by_cases hr : s.reporting
  · have hr' : (s.keeping p).reporting := hr
    rw [failAt_of_reporting hr, failAt_of_reporting hr', keeping, keeping, List.filter_cons,
      if_pos (hp place.offset d)]
  · have hr' : ¬ (s.keeping p).reporting := hr
    rw [failAt, failAt, if_neg hr, if_neg hr']

/-- What is remembered depends on no event. -/
theorem lookUp_keeping (p : Event → Bool) (s : State) (rule : Nat) :
    (s.keeping p).lookUp rule = (s.lookUp rule).map fun (result, t) => (result, t.keeping p) := by
  have hmemory : (s.keeping p).memory = s.memory := rfl
  unfold lookUp
  rw [hmemory]
  cases s.memory with
  | none => rfl
  | some memory =>
    have hkey : (s.keeping p).memoKey rule (s.keeping p).offset = s.memoKey rule s.offset := rfl
    simp only [Option.bind_eq_bind, Option.bind_some, hkey]
    cases memory[s.memoKey rule s.offset]? <;> rfl

/-! ### The summary of a state -/

/-- The cursors of a state stand in the text, and its summary of failures is the one of the failures
in the journal. -/
structure Sound (tracked : Bool) (text : List Char) (s : State) : Prop where
  text_eq : s.text = text
  cursor : s.cursor.Within tracked text
  failure : s.failure.Within tracked text
  summary : Summarizes s.failure.offset s.expected s.failures

variable {tracked : Bool} {text : List Char} {s t : State}

theorem sound_start (tracked remembers : Bool) (text : List Char) :
    Sound tracked text (start tracked remembers text) where
  text_eq := rfl
  cursor := Cursor.within_start tracked text
  failure := Cursor.within_start tracked text
  summary := .nil

theorem Sound.moveTo (h : Sound tracked text s) {c : Cursor} (hc : c.Within tracked text) :
    Sound tracked text (s.moveTo c) :=
  ⟨h.text_eq, hc, h.failure, h.summary⟩

theorem Sound.skip (h : Sound tracked text s) (n : Nat) :
    Sound tracked text (s.moveTo (s.cursor.skip n)) :=
  h.moveTo (h.cursor.skip n)

theorem Sound.suspend (h : Sound tracked text s) (n : Nat) :
    Sound tracked text { s with suspended := n } :=
  ⟨h.text_eq, h.cursor, h.failure, h.summary⟩

theorem Sound.entered (h : Sound tracked text s) (rule offset : Nat) (reporting : Bool) :
    Sound tracked text (s.note (.entered rule offset reporting)) :=
  ⟨h.text_eq, h.cursor, h.failure, h.summary⟩

theorem Sound.called (h : Sound tracked text s) (site : Nat) (cx : Context) :
    Sound tracked text (s.note (.called site cx)) :=
  ⟨h.text_eq, h.cursor, h.failure, h.summary⟩

theorem Sound.remember (h : Sound tracked text s) (rule : Nat) (begun : Cursor)
    (result : Option Value) : Sound tracked text (s.remember rule begun result) :=
  ⟨h.text_eq, h.cursor, h.failure, h.summary⟩

theorem Sound.failAt (h : Sound tracked text s) {place : Cursor} (hp : place.Within tracked text)
    (d : String) : Sound tracked text (s.failAt place d) := by
  unfold State.failAt
  split
  · dsimp only
    split_ifs with hlt hgt
    · exact ⟨h.text_eq, h.cursor, h.failure, h.summary.cons_of_lt hlt d⟩
    · exact ⟨h.text_eq, h.cursor, hp, h.summary.cons_of_gt hgt d⟩
    · have heq : s.failure.offset = place.offset :=
        le_antisymm (not_lt.mp hlt) (not_lt.mp hgt)
      exact ⟨h.text_eq, h.cursor, h.failure, heq ▸ h.summary.cons d⟩
  · exact h

/-! ### Errors -/

/-- A set of descriptions has one ordered list. -/
theorem orderedDescriptions_congr {ds es : List String} (h : ∀ d, d ∈ ds ↔ d ∈ es) :
    orderedDescriptions ds = orderedDescriptions es := by
  have : Std.Antisymm (α := String) (· < ·) :=
    ⟨fun a b hab hba => absurd hba (String.lt_asymm hab)⟩
  have : Std.Irrefl (α := String) (· < ·) := ⟨String.lt_irrefl⟩
  refine (pairwise_orderedDescriptions ds).eq_of_mem_iff (pairwise_orderedDescriptions es) ?_
  intro d
  rw [mem_orderedDescriptions, mem_orderedDescriptions, h]

/-- The error is determined by the cursor and the set of failures. -/
theorem Sound.error_eq (hs : Sound tracked text s) (ht : Sound tracked text t)
    (hc : s.cursor = t.cursor) (hset : ∀ f, f ∈ s.failures ↔ f ∈ t.failures) :
    s.error = t.error := by
  obtain ⟨hoffset, hexpected⟩ := hs.summary.unique ht.summary hset
  have hfailure : s.failure = t.failure := hs.failure.eq_of_offset ht.failure hoffset
  unfold State.error
  rw [hc, hfailure, hs.text_eq, ht.text_eq]
  split_ifs
  · rfl
  · dsimp only [SyntaxError.of]
    rw [orderedDescriptions_congr hexpected]

theorem Sound.finish_eq (hs : Sound tracked text s) (ht : Sound tracked text t)
    (hc : s.cursor = t.cursor) (hset : ∀ f, f ∈ s.failures ↔ f ∈ t.failures)
    {α : Type} (result : Option α) : s.finish result = t.finish result := by
  unfold State.finish State.atEnd
  rw [hc, hs.error_eq ht hc hset]

end State

end Packrat
