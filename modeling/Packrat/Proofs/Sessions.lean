import Packrat.Proofs.Slices

/-!
# Any use of a state

A state can be used in other ways than a matcher uses it: its steps may come in any order, failures
may be reported at places of one's own, cursors may be saved and gone back to at any time. A session
is a state together with the cursors that were saved from it. `Permits` says what a use has to
respect: to go back only to a saved cursor, to resume no more often than was suspended, and to give
a length of one's own only where it ends on a boundary of the text.

Whatever the uses, every position in a session then stands in the text: that of the cursor, that of
the furthest failure, those behind remembered matches and the saved ones. With line tracking each
equals what counting from the beginning of the text gives. So no use ever cuts the text in a wrong
place, also where its steps are spelled by byte offsets.

## Main results

* `Session.Intact.step`: a permitted use goes through and keeps every position in the text
* `Session.reached_valid`: so does any number of them, from the state before the first step
-/

namespace Packrat

/-- The position is one of the text: its offset cuts off what lies ahead, and it is what scanning up
to there gives, or counts no lines if they are not tracked. -/
structure Cursor.Valid (tracked : Bool) (text : List Char) (c : Cursor) : Prop where
  cut : ∃ before, Text.splitAtByte? c.offset text = some (before, c.ahead)
  scanned : tracked = true → Position.at? text c.offset = some c.position
  untracked : tracked = false → c.position.lines = none

theorem Cursor.Within.valid {tracked : Bool} {text : List Char} {c : Cursor}
    (h : c.Within tracked text) : c.Valid tracked text := by
  refine ⟨h.cut, ?_, ?_⟩
  · rintro rfl
    obtain ⟨before, htext, hposition⟩ := h
    rw [Position.at?, Cursor.offset_of_passed hposition, htext, Text.splitAtByte?_append, hposition]
    rfl
  · rintro rfl
    obtain ⟨before, -, hposition⟩ := h
    rw [hposition, Position.lines_advance]
    rfl

/-- One use of a state. -/
inductive Use where
  | literal (value : String) (description : String)
  | literalIgnoringCase (value : String) (description : String)
  | charWhere (p : Char → Bool) (description : String)
  | charClass (members : CharClass) (description : String)
  | any
  /-- Keeps the cursor to go back to. -/
  | save
  /-- Goes back to a saved cursor. -/
  | restore (saved : Cursor)
  /-- Goes behind the remembered match of a rule, if there is one. -/
  | lookUp (rule : Nat)
  /-- Remembers the result of a rule that began at a saved cursor. -/
  | remember (rule : Nat) (begun : Cursor) (result : Option Value)
  | suspend
  | resume
  | fail (description : String)
  | advance (len : Nat)
  | failAfter (len : Nat) (description : String)

/-- A state in use, and the cursors that were saved from it. -/
structure Session where
  state : State
  saved : List Cursor

namespace Session

/-- The session with the state behind a step. -/
def behind {α : Type} (x : Session) (outcome : α × State) : Session := { x with state := outcome.2 }

/-- What a use makes of a session. -/
def perform (x : Session) : Use → Except Fault Session
  | .literal value description => .ok (x.behind (x.state.literal value false description))
  | .literalIgnoringCase value description =>
    .ok (x.behind (x.state.literal value true description))
  | .charWhere p description => .ok (x.behind (x.state.charWhere p description))
  | .charClass members description => .ok (x.behind (x.state.charClass members description))
  | .any => .ok (x.behind x.state.any)
  | .save => .ok { x with saved := x.state.cursor :: x.saved }
  | .restore saved => .ok { x with state := x.state.moveTo saved }
  | .lookUp rule =>
    match x.state.lookUp rule with
    | some outcome => .ok (x.behind outcome)
    | none => .ok x
  | .remember rule begun result => .ok { x with state := x.state.remember rule begun result }
  | .suspend => .ok { x with state := x.state.suspend }
  | .resume => return { x with state := ← x.state.resume? }
  | .fail description => .ok { x with state := x.state.fail description }
  | .advance len => return x.behind (← x.state.advance? len)
  | .failAfter len description => return { x with state := ← x.state.failAfter? len description }

/-- What a use makes of a session, with its steps by byte offsets. -/
def performByBytes (x : Session) : Use → Except Fault Session
  | .literal value description => return x.behind (← x.state.literal? value description)
  | .literalIgnoringCase value description =>
    return x.behind (← x.state.literalIgnoringCase? value description)
  | .charWhere p description => return x.behind (← x.state.charWhere? p description)
  | .charClass members description =>
    return x.behind (← x.state.charWhere? members.accepts description)
  | .any => return x.behind (← x.state.charWhere? (fun _ => true) State.anyCharacter)
  | u => x.perform u

/-- What a use has to respect. -/
def Permits (x : Session) : Use → Prop
  | .restore saved | .remember _ saved _ => saved ∈ x.saved
  | .resume => x.state.suspended ≠ 0
  | .advance len | .failAfter len _ => Text.IsBoundary x.state.text (x.state.offset + len)
  | _ => True

/-- The cursors of a session: where the state is, where its furthest failure is, those behind the
remembered matches and the saved ones. -/
def Has (x : Session) (c : Cursor) : Prop :=
  c = x.state.cursor ∨ c = x.state.failure ∨ c ∈ x.saved ∨
    ∃ memory key entry, x.state.memory = some memory ∧ memory[(key : MemoKey)]? = some entry ∧
      c = entry.after

/-- Sessions that permitted uses lead to. -/
inductive Reached (tracked remembers : Bool) (text : List Char) : Session → Prop
  | start : Reached tracked remembers text ⟨.start tracked remembers text, []⟩
  | use {x y : Session} {u : Use} : Reached tracked remembers text x → x.Permits u →
      x.perform u = .ok y → Reached tracked remembers text y

/-- The cursors of a session stand in its text. -/
structure Intact (tracked : Bool) (text : List Char) (x : Session) : Prop where
  sound : x.state.Sound tracked text
  saved : ∀ c ∈ x.saved, c.Within tracked text
  remembered (memory : Memory) : x.state.memory = some memory →
    ∀ (key : MemoKey) (entry : MemoEntry), memory[key]? = some entry →
      entry.after.Within tracked text

variable {tracked remembers : Bool} {text : List Char} {x y : Session}

theorem intact_start : Intact tracked text ⟨.start tracked remembers text, []⟩ := by
  refine ⟨State.sound_start tracked remembers text, nofun, ?_⟩
  intro memory hmemory key entry hentry
  cases remembers with
  | false => nomatch hmemory
  | true =>
    obtain rfl := Option.some.inj hmemory
    rw [Std.HashMap.getElem?_empty] at hentry
    nomatch hentry

namespace Intact

theorem within (h : Intact tracked text x) {c : Cursor} (hc : x.Has c) : c.Within tracked text := by
  obtain rfl | rfl | hsaved | ⟨memory, key, entry, hmemory, hentry, rfl⟩ := hc
  · exact h.sound.cursor
  · exact h.sound.failure
  · exact h.saved c hsaved
  · exact h.remembered memory hmemory key entry hentry

/-- What the steps by byte offsets ask for. -/
theorem within_own_text (h : Intact tracked text x) :
    x.state.cursor.Within tracked x.state.text := by
  rw [h.sound.text_eq]
  exact h.sound.cursor

/-- A step of the state that remembers nothing new. -/
theorem change (h : Intact tracked text x) {s : State} (hs : s.Sound tracked text)
    (hmemory : s.memory = x.state.memory) : Intact tracked text { x with state := s } :=
  ⟨hs, h.saved, fun memory hm => h.remembered memory (hmemory ▸ hm)⟩

theorem moveTo (h : Intact tracked text x) {c : Cursor} (hc : c.Within tracked text) :
    Intact tracked text { x with state := x.state.moveTo c } := h.change (h.sound.moveTo hc) rfl

theorem failAt (h : Intact tracked text x) {place : Cursor} (hplace : place.Within tracked text)
    (description : String) :
    Intact tracked text { x with state := x.state.failAt place description } :=
  h.change (h.sound.failAt hplace description) (State.memory_failAt ..)

theorem literal (h : Intact tracked text x) (value : String) (ignoreCase : Bool)
    (description : String) :
    Intact tracked text (x.behind (x.state.literal value ignoreCase description)) := by
  have hplace := fun n => h.sound.cursor.skip n
  rw [behind, State.literal]
  split
  · exact h.moveTo (hplace _)
  · exact h.failAt (hplace _) description

theorem charWhere (h : Intact tracked text x) (p : Char → Bool) (description : String) :
    Intact tracked text (x.behind (x.state.charWhere p description)) := by
  have hfail := h.failAt h.sound.cursor description
  rw [behind, State.charWhere]
  split
  · split
    · exact h.moveTo h.sound.cursor.step
    · exact hfail
  · exact hfail

theorem save (h : Intact tracked text x) :
    Intact tracked text { x with saved := x.state.cursor :: x.saved } :=
  ⟨h.sound, List.forall_mem_cons.mpr ⟨h.sound.cursor, h.saved⟩, h.remembered⟩

theorem lookUp (h : Intact tracked text x) {rule : Nat} {outcome : Option Value × State}
    (hhit : x.state.lookUp rule = some outcome) : Intact tracked text (x.behind outcome) := by
  obtain ⟨memory, hmemory, hhit⟩ := Option.bind_eq_some_iff.mp hhit
  obtain ⟨entry, hentry, hhit⟩ := Option.bind_eq_some_iff.mp hhit
  obtain rfl := Option.some.inj hhit
  exact h.moveTo (h.remembered memory hmemory _ entry hentry)

theorem remember (h : Intact tracked text x) (rule : Nat) (begun : Cursor) (result : Option Value) :
    Intact tracked text { x with state := x.state.remember rule begun result } := by
  refine ⟨h.sound.remember rule begun result, h.saved, ?_⟩
  intro memory hmemory key entry hentry
  obtain ⟨-, rfl⟩ | ⟨old, hold, hentry⟩ := State.entry_of_remember hmemory hentry
  · exact h.sound.cursor
  · exact h.remembered old hold key entry hentry

/-- A permitted use goes through, also by byte offsets, and every position stays in the text. -/
theorem step (h : Intact tracked text x) {u : Use} (hu : x.Permits u) :
    ∃ y, x.perform u = .ok y ∧ x.performByBytes u = .ok y ∧ Intact tracked text y := by
  have hwithin := h.within_own_text
  cases u with
  | literal value description =>
    refine ⟨_, rfl, ?_, h.literal value false description⟩
    rw [performByBytes, State.literal?_eq hwithin]
    rfl
  | literalIgnoringCase value description =>
    refine ⟨_, rfl, ?_, h.literal value true description⟩
    rw [performByBytes, State.literalIgnoringCase?_eq hwithin]
    rfl
  | charWhere p description =>
    refine ⟨_, rfl, ?_, h.charWhere p description⟩
    rw [performByBytes, State.charWhere?_eq hwithin]
    rfl
  | charClass members description =>
    refine ⟨_, rfl, ?_, h.charWhere members.accepts description⟩
    rw [performByBytes, State.charWhere?_eq hwithin]
    rfl
  | any =>
    refine ⟨_, rfl, ?_, h.charWhere (fun _ => true) State.anyCharacter⟩
    rw [performByBytes, State.charWhere?_eq hwithin]
    rfl
  | save => exact ⟨_, rfl, rfl, h.save⟩
  | restore c => exact ⟨_, rfl, rfl, h.moveTo (h.saved c hu)⟩
  | lookUp rule =>
    cases hlook : x.state.lookUp rule with
    | none =>
      have hmiss : x.perform (.lookUp rule) = .ok x := by rw [perform, hlook]
      exact ⟨x, hmiss, hmiss, h⟩
    | some outcome =>
      have hhit : x.perform (.lookUp rule) = .ok (x.behind outcome) := by rw [perform, hlook]
      exact ⟨_, hhit, hhit, h.lookUp hlook⟩
  | remember rule begun result => exact ⟨_, rfl, rfl, h.remember rule begun result⟩
  | suspend => exact ⟨_, rfl, rfl, h.change (h.sound.suspend _) rfl⟩
  | resume =>
    have hresume : x.perform .resume = .ok { x with state := x.state.resume } := by
      rw [perform, State.resume?, if_neg hu]
      rfl
    exact ⟨_, hresume, hresume, h.change (h.sound.suspend _) rfl⟩
  | fail description => exact ⟨_, rfl, rfl, h.failAt h.sound.cursor description⟩
  | advance len =>
    obtain ⟨taken, d, hd⟩ := hwithin.exists_advance? hu
    have hadvance : x.perform (.advance len) = .ok { x with state := x.state.moveTo d } := by
      rw [perform, State.advance?, hd]
      rfl
    exact ⟨_, hadvance, hadvance, h.moveTo (h.sound.cursor.advance? hd)⟩
  | failAfter len description =>
    obtain ⟨taken, d, hd⟩ := hwithin.exists_advance? hu
    have hfail : x.perform (.failAfter len description) =
        .ok { x with state := x.state.failAt d description } := by
      rw [perform, State.failAfter?_of_advance? hd]
      rfl
    exact ⟨_, hfail, hfail, h.failAt (h.sound.cursor.advance? hd) description⟩

end Intact

theorem Reached.intact (h : Reached tracked remembers text x) : Intact tracked text x := by
  induction h with
  | start => exact intact_start
  | use _ hu hperform ih =>
    -- A use has one outcome, so the one at hand is the one of the step.
    obtain ⟨y, hy, -, hintact⟩ := ih.step hu
    obtain rfl := Except.ok.inj (hy.symm.trans hperform)
    exact hintact

/-- However a state is used, in any order and any number of times, every position in the session is
one of the text, and no permitted use goes wrong, by characters or by byte offsets. -/
theorem reached_valid (h : Reached tracked remembers text x) :
    (∀ c, x.Has c → c.Valid tracked text) ∧
      ∀ u, x.Permits u → ∃ y, x.perform u = .ok y ∧ x.performByBytes u = .ok y := by
  refine ⟨fun c hc => (h.intact.within hc).valid, fun u hu => ?_⟩
  obtain ⟨y, hy, hbytes, -⟩ := h.intact.step hu
  exact ⟨y, hy, hbytes⟩

/-- Between the two halves of a line end, behind a remembered match and a failure in front of `b`.
-/
theorem reached_valid_split : ∃ x, Reached true true "\u00e9\r\nb".toList x ∧
    x.state.cursor.position = ⟨3, some ⟨2, 1, true⟩⟩ ∧
    x.state.failure.position = ⟨4, some ⟨2, 1, false⟩⟩ ∧ x.Permits (.advance 1) ∧
    (∀ c, x.Has c → c.Valid true "\u00e9\r\nb".toList) ∧
    ∃ y, x.perform (.advance 1) = .ok y ∧ x.performByBytes (.advance 1) = .ok y := by
  have hstarted : Reached true true "\u00e9\r\nb".toList _ := .start
  have hsaved := hstarted.use (u := .save) trivial rfl
  have hread := hsaved.use (u := .literal "\u00e9\r" "") trivial rfl
  have hkept := hread.use (u := .remember 0 (.start true "\u00e9\r\nb".toList) none)
    List.mem_cons_self rfl
  have hboundary : Text.IsBoundary "\u00e9\r\nb".toList 4 :=
    ⟨['\u00e9', '\r', '\n'], ['b'], rfl, rfl⟩
  have hfailed := hkept.use (u := .failAfter 1 "b") hboundary rfl
  obtain ⟨hvalid, hperforms⟩ := reached_valid hfailed
  exact ⟨_, hfailed, rfl, rfl, hboundary, hvalid, hperforms _ hboundary⟩

end Session

end Packrat
