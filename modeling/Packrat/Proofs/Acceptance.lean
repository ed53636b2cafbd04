import Mathlib.Data.List.Forall2
import Packrat.Proofs.Recognition

/-!
# Readers in front of a known text

What was written by a known rule is read back by following the readers over it. `Accepts p cs rest
V` says that with `cs` ahead, and `rest` behind that, the reader takes `cs` and gives a value as `V`
has it. The rest belongs to the statement because readers are greedy and look ahead: a name ends
only where no more characters of names follow, and it is no reference if an `=` follows it.

A failure counts in two strengths. Where a reader `Rejects` a text it has not moved, so that the
next one can take over; where it `Fails` it may stand anywhere, and `attempt` makes the one of the
other. In all cases the note of an inverted range stays what it was. Where nothing is known but the
text ahead, `Gives` speaks of the values that there may be.

Cursors are followed as such, not only what they have ahead, since the text of a code block is cut
out between two of them.

## Main results

* `Accepts.bind`, `Accepts.orElse`, `Rejects.orElse`, `Fails.attempt`: the rules for readers put
  together
* `Repeats.cons`, `Repeats.flatMap`, `Repeats.many`: the rules for repetitions
* `accepts_text`, `accepts_charWhere`, `rejects_text`, `rejects_charWhere`: texts and characters
-/

namespace Packrat

/-- The same place `n` characters further, with nothing noted on the way. -/
structure ReaderState.Further (s : ReaderState) (n : Nat) (t : ReaderState) : Prop where
  cursor : t.state.cursor = s.state.cursor.skip n
  inverted : t.inverted = s.inverted

namespace ReaderState.Further

variable {s t u : ReaderState} {m n : Nat} {cs rest : List Char}

theorem refl (s : ReaderState) : s.Further 0 s := ⟨rfl, rfl⟩

theorem trans (h : s.Further m t) (h' : t.Further n u) : s.Further (m + n) u where
  cursor := by rw [h'.cursor, h.cursor, Cursor.skip_skip]
  inverted := h'.inverted.trans h.inverted

theorem ahead (h : s.Further cs.length t) (hs : s.ahead = cs ++ rest) : t.ahead = rest := by
  rw [ReaderState.ahead, h.cursor, Cursor.ahead_skip]
  exact (congrArg _ hs).trans List.drop_left

theorem ahead_zero (h : s.Further 0 t) : t.ahead = s.ahead := by
  rw [ReaderState.ahead, h.cursor, Cursor.skip_zero, ReaderState.ahead]

/-- What was taken stands between the two cursors. -/
theorem textUpTo (h : s.Further cs.length t) (hs : s.ahead = cs ++ rest) :
    s.state.cursor.textUpTo t.state.cursor = cs := by
  rw [h.cursor, Cursor.textUpTo_skip]
  exact (congrArg _ hs).trans List.take_left

end ReaderState.Further

namespace Reader

variable {α β : Type} {p p' : Reader α} {q : α → Reader β} {V V' : α → Prop} {W : β → Prop}
  {cs ds rest : List Char} {s : ReaderState}

/-- In front of `cs` and `rest` the reader takes `cs` and gives a value as `V` has it. -/
def Accepts (p : Reader α) (cs rest : List Char) (V : α → Prop) : Prop :=
  ∀ s : ReaderState, s.ahead = cs ++ rest →
    ∃ a t, p s = (some a, t) ∧ V a ∧ s.Further cs.length t

/-- In front of `cs` the reader fails and does not move. -/
def Rejects (p : Reader α) (cs : List Char) : Prop :=
  ∀ s : ReaderState, s.ahead = cs → ∃ t, p s = (none, t) ∧ s.Further 0 t

/-- In front of `cs` the reader fails. -/
def Fails (p : Reader α) (cs : List Char) : Prop :=
  ∀ s : ReaderState, s.ahead = cs → ∃ n t, p s = (none, t) ∧ s.Further n t

/-- The value does not matter. -/
abbrev anything : α → Prop := fun _ => True

theorem Rejects.fails (h : p.Rejects cs) : p.Fails cs := fun s hs => ⟨0, h s hs⟩

theorem Accepts.mono (h : p.Accepts cs rest V) (hV : ∀ a, V a → V' a) : p.Accepts cs rest V' := by
  intro s hs
  obtain ⟨a, t, hrun, hv, hfar⟩ := h s hs
  exact ⟨a, t, hrun, hV a hv, hfar⟩

/-! ### One behind the other -/

theorem Accepts.pure {a : α} (h : V a) : (pure a : Reader α).Accepts [] rest V :=
  fun s _ => ⟨a, s, rfl, h, .refl s⟩

theorem Accepts.bind (hp : p.Accepts cs (ds ++ rest) V) (hq : ∀ a, V a → (q a).Accepts ds rest W) :
    (p >>= q).Accepts (cs ++ ds) rest W := by
  intro s hs
  rw [List.append_assoc] at hs
  obtain ⟨a, t, hrun, hv, hfar⟩ := hp s hs
  obtain ⟨b, u, hrun', hw, hfar'⟩ := hq a hv t (hfar.ahead hs)
  exact ⟨b, u, (bind_apply_of_some hrun q).trans hrun', hw, List.length_append ▸ hfar.trans hfar'⟩

/-- What comes first takes a single character. -/
theorem Accepts.cons {c : Char} (hp : p.Accepts [c] (ds ++ rest) V)
    (hq : ∀ a, V a → (q a).Accepts ds rest W) : (p >>= q).Accepts (c :: ds) rest W := hp.bind hq

/-- What follows takes nothing. -/
theorem Accepts.finish (hp : p.Accepts cs rest V) (hq : ∀ a, V a → (q a).Accepts [] rest W) :
    (p >>= q).Accepts cs rest W := by
  rw [← List.append_nil cs]
  exact hp.bind hq

/-- What comes first takes nothing. -/
theorem Accepts.lead (hp : p.Accepts [] (cs ++ rest) V) (hq : ∀ a, V a → (q a).Accepts cs rest W) :
    (p >>= q).Accepts cs rest W := hp.bind hq

theorem Accepts.map {f : α → β} (hp : p.Accepts cs rest V) (hW : ∀ a, V a → W (f a)) :
    (p >>= fun a => Pure.pure (f a)).Accepts cs rest W :=
  hp.finish fun a hv => .pure (hW a hv)

theorem Rejects.bind (hp : p.Rejects cs) : (p >>= q).Rejects cs := by
  intro s hs
  obtain ⟨t, hrun, hfar⟩ := hp s hs
  exact ⟨t, bind_apply_of_none hrun q, hfar⟩

theorem Fails.bind (hp : p.Fails cs) : (p >>= q).Fails cs := by
  intro s hs
  obtain ⟨n, t, hrun, hfar⟩ := hp s hs
  exact ⟨n, t, bind_apply_of_none hrun q, hfar⟩

/-- What follows fails. -/
theorem Accepts.fails (hp : p.Accepts cs rest V) (hq : ∀ a, V a → (q a).Fails rest) :
    (p >>= q).Fails (cs ++ rest) := by
  intro s hs
  obtain ⟨a, t, hrun, hv, hfar⟩ := hp s hs
  obtain ⟨n, u, hrun', hfar'⟩ := hq a hv t (hfar.ahead hs)
  exact ⟨_, u, (bind_apply_of_some hrun q).trans hrun', hfar.trans hfar'⟩

/-- What comes first takes nothing, and what follows fails in place. -/
theorem Accepts.rejects (hp : p.Accepts [] cs V) (hq : ∀ a, V a → (q a).Rejects cs) :
    (p >>= q).Rejects cs := by
  intro s hs
  obtain ⟨a, t, hrun, hv, hfar⟩ := hp s hs
  obtain ⟨u, hrun', hfar'⟩ := hq a hv t (hfar.ahead_zero.trans hs)
  exact ⟨u, (bind_apply_of_some hrun q).trans hrun', hfar.trans hfar'⟩

theorem rejects_fail : (fail : Reader α).Rejects cs := fun s _ => ⟨s, rfl, .refl s⟩

/-! ### The cursor -/

theorem accepts_cursor : cursor.Accepts [] rest anything :=
  fun s _ => ⟨_, s, rfl, trivial, .refl s⟩

/-- Where the text begins does not matter. -/
theorem Accepts.still {q : Cursor → Reader β} (hq : ∀ begun, (q begun).Accepts cs rest W) :
    (cursor >>= q).Accepts cs rest W := accepts_cursor.lead fun begun _ => hq begun

theorem Rejects.still {q : Cursor → Reader β} (hq : ∀ begun, (q begun).Rejects cs) :
    (cursor >>= q).Rejects cs := accepts_cursor.rejects fun begun _ => hq begun

theorem Fails.still {q : Cursor → Reader β} (hq : ∀ begun, (q begun).Fails cs) :
    (cursor >>= q).Fails cs := accepts_cursor.fails fun begun _ => hq begun

/-- A reader with a bound of its own finds one beyond what it takes. -/
theorem Accepts.of_bound {r : Nat → Reader α} (h : ∀ n, cs.length < n → (r n).Accepts cs rest V) :
    (cursor >>= fun begun => r (begun.ahead.length + 1)).Accepts cs rest V := by
  intro s hs
  have hlength : cs.length < s.ahead.length + 1 := by
    rw [hs, List.length_append]
    omega
  exact h _ hlength s hs

theorem accepts_spanSince (begun : Cursor) : (spanSince begun).Accepts [] rest anything :=
  .still fun _ => .pure trivial

/-- The text that a reader took is there for what follows. -/
theorem Accepts.textSince {q : List Char → Reader β} (hp : p.Accepts cs (ds ++ rest) V)
    (hq : (q cs).Accepts ds rest W) :
    (do
      let begun ← cursor
      let _ ← p
      let taken ← Reader.textSince begun
      q taken).Accepts (cs ++ ds) rest W := by
  intro s hs
  rw [List.append_assoc] at hs
  obtain ⟨a, t, hrun, -, hfar⟩ := hp s hs
  obtain ⟨b, u, hrun', hw, hfar'⟩ := hq t (hfar.ahead hs)
  refine ⟨b, u, ?_, hw, List.length_append ▸ hfar.trans hfar'⟩
  rw [← hfar.textUpTo hs] at hrun'
  exact (bind_apply_of_some hrun _).trans hrun'

/-! ### One or the other -/

theorem Accepts.orElse (hp : p.Accepts cs rest V) : (p <|> p').Accepts cs rest V := by
  intro s hs
  obtain ⟨a, t, hrun, hv, hfar⟩ := hp s hs
  refine ⟨a, t, ?_, hv, hfar⟩
  change Reader.orElse p (fun _ => p') s = _
  rw [Reader.orElse, hrun]

theorem Rejects.orElse (hp : p.Rejects (cs ++ rest)) (hp' : p'.Accepts cs rest V) :
    (p <|> p').Accepts cs rest V := by
  intro s hs
  obtain ⟨t, hrun, hfar⟩ := hp s hs
  obtain ⟨a, u, hrun', hv, hfar'⟩ := hp' t (hfar.ahead_zero.trans hs)
  refine ⟨a, u, ?_, hv, Nat.zero_add cs.length ▸ hfar.trans hfar'⟩
  change Reader.orElse p (fun _ => p') s = _
  rw [Reader.orElse, hrun]
  exact hrun'

theorem Rejects.or (hp : p.Rejects cs) (hp' : p'.Rejects cs) : (p <|> p').Rejects cs := by
  intro s hs
  obtain ⟨t, hrun, hfar⟩ := hp s hs
  obtain ⟨u, hrun', hfar'⟩ := hp' t (hfar.ahead_zero.trans hs)
  refine ⟨u, ?_, hfar.trans hfar'⟩
  change Reader.orElse p (fun _ => p') s = _
  rw [Reader.orElse, hrun]
  exact hrun'

/-! ### Wrappers -/

theorem Accepts.attempt (hp : p.Accepts cs rest V) : (attempt p).Accepts cs rest V := by
  intro s hs
  obtain ⟨a, t, hrun, hv, hfar⟩ := hp s hs
  exact ⟨a, t, by rw [Reader.attempt, hrun], hv, hfar⟩

theorem Fails.attempt (hp : p.Fails cs) : (attempt p).Rejects cs := by
  intro s hs
  obtain ⟨n, t, hrun, hfar⟩ := hp s hs
  exact ⟨{ t with state := t.state.moveTo s.state.cursor }, by rw [Reader.attempt, hrun],
    rfl, hfar.inverted⟩

theorem Accepts.quietly (hp : p.Accepts cs rest V) : (quietly p).Accepts cs rest V := by
  intro s hs
  obtain ⟨a, t, hrun, hv, hfar⟩ := hp { s with state := s.state.suspend } hs
  exact ⟨a, { t with state := t.state.resume }, by rw [Reader.quietly, hrun], hv, hfar.cursor,
    hfar.inverted⟩

theorem Rejects.quietly (hp : p.Rejects cs) : (quietly p).Rejects cs := by
  intro s hs
  obtain ⟨t, hrun, hfar⟩ := hp { s with state := s.state.suspend } hs
  exact ⟨{ t with state := t.state.resume }, by rw [Reader.quietly, hrun], hfar.cursor,
    hfar.inverted⟩

theorem Fails.quietly (hp : p.Fails cs) : (quietly p).Fails cs := by
  intro s hs
  obtain ⟨n, t, hrun, hfar⟩ := hp { s with state := s.state.suspend } hs
  exact ⟨n, { t with state := t.state.resume }, by rw [Reader.quietly, hrun], hfar.cursor,
    hfar.inverted⟩

theorem Accepts.named (hp : p.Accepts cs rest V) (name : String) :
    (named name p).Accepts cs rest V := by
  intro s hs
  obtain ⟨a, t, hrun, hv, hfar⟩ := hp.attempt.quietly s hs
  exact ⟨a, t, by rw [Reader.named, hrun], hv, hfar⟩

theorem Fails.named (hp : p.Fails cs) (name : String) : (named name p).Rejects cs := by
  intro s hs
  obtain ⟨t, hrun, hfar⟩ := hp.attempt.quietly s hs
  refine ⟨{ t with state := t.state.fail name }, by rw [Reader.named, hrun], ?_, hfar.inverted⟩
  exact (State.cursor_failAt ..).trans hfar.cursor

/-! ### What may be missing -/

theorem Accepts.option (hp : p.Accepts cs rest V) :
    (option p).Accepts cs rest fun a => ∃ b, a = some b ∧ V b := by
  intro s hs
  obtain ⟨a, t, hrun, hv, hfar⟩ := hp s hs
  exact ⟨some a, t, by rw [Reader.option, hrun], ⟨a, rfl, hv⟩, hfar⟩

theorem Rejects.option (hp : p.Rejects rest) : (option p).Accepts [] rest (· = none) := by
  intro s hs
  obtain ⟨t, hrun, hfar⟩ := hp s hs
  exact ⟨none, t, by rw [Reader.option, hrun], rfl, hfar⟩

theorem Accepts.succeeds (hp : p.Accepts cs rest V) : (succeeds p).Accepts cs rest (· = true) := by
  rw [Notation.succeeds_eq]
  refine hp.option.map ?_
  rintro _ ⟨b, rfl, -⟩
  rfl

theorem Rejects.succeeds (hp : p.Rejects rest) : (succeeds p).Accepts [] rest (· = false) := by
  rw [Notation.succeeds_eq]
  refine hp.option.map ?_
  rintro _ rfl
  rfl

/-- A lookahead at what is not there. -/
theorem Fails.peek (hp : p.Fails rest) : (peek p).Accepts [] rest (· = false) := by
  intro s hs
  obtain ⟨n, t, hrun, hfar⟩ := hp.quietly s hs
  exact ⟨false, { t with state := t.state.moveTo s.state.cursor }, by rw [Reader.peek, hrun]; rfl,
    rfl, rfl, hfar.inverted⟩

/-- A lookahead at what is there. -/
theorem Accepts.peek (hp : p.Accepts cs rest V) :
    (peek p).Accepts [] (cs ++ rest) (· = true) := by
  intro s hs
  obtain ⟨a, t, hrun, -, hfar⟩ := hp.quietly s hs
  exact ⟨true, { t with state := t.state.moveTo s.state.cursor }, by rw [Reader.peek, hrun]; rfl,
    rfl, rfl, hfar.inverted⟩

/-! ### Texts and characters -/

theorem accepts_text {value : String} (h : value.toList = cs) :
    (text value).Accepts cs rest anything := by
  subst h
  intro s hs
  have hprefix : value.toList <+: s.ahead := ⟨rest, hs.symm⟩
  exact ⟨(), _, Notation.text_of_isPrefix hprefix, trivial, rfl, rfl⟩

theorem rejects_text {value : String} (h : ¬ value.toList <+: cs) : (text value).Rejects cs := by
  rintro s rfl
  obtain ⟨place, hrun⟩ := Notation.text_of_not_isPrefix h
  exact ⟨_, hrun, State.cursor_failAt .., rfl⟩

/-- A text is not there if the text ahead begins otherwise. -/
theorem rejects_text_of_head {value : String} {c : Char} {cs' : List Char}
    (hvalue : value.toList = c :: cs') (h : ∀ d ∈ cs.head?, d ≠ c) : (text value).Rejects cs := by
  refine rejects_text ?_
  rw [hvalue]
  rintro ⟨rest, rfl⟩
  exact h c rfl rfl

theorem accepts_charWhere {accepts : Char → Bool} {c : Char} (hc : accepts c = true)
    (description : String) : (charWhere accepts description).Accepts [c] rest (· = c) :=
  fun s hs => ⟨c, _, Notation.charWhere_of_accepted hs hc description, rfl,
    s.state.cursor.step_eq_skip, rfl⟩

theorem rejects_charWhere {accepts : Char → Bool} (h : ∀ c ∈ cs.head?, accepts c = false)
    (description : String) : (charWhere accepts description).Rejects cs := by
  rintro s rfl
  refine ⟨_, Notation.charWhere_of_refused (fun c rest hs => h c ?_) description,
    State.cursor_failAt .., rfl⟩
  rw [hs]
  rfl

/-! ### Results, if there are any -/

/-- In front of `cs` every value of the reader is as `V` has it; it may also fail. -/
def Gives (p : Reader α) (cs : List Char) (V : α → Prop) : Prop :=
  ∀ (s : ReaderState) (a : α) (t : ReaderState), s.ahead = cs → p s = (some a, t) → V a

theorem Gives.mono (h : p.Gives cs V) (hV : ∀ a, V a → V' a) : p.Gives cs V' :=
  fun s a t hs hrun => hV a (h s a t hs hrun)

theorem Gives.of_all (h : ∀ a, V a) : p.Gives cs V := fun _ a _ _ _ => h a

theorem Gives.pure {a : α} (h : V a) : (pure a : Reader α).Gives cs V :=
  fun _ _ _ _ hrun => Option.some.inj (Prod.mk.inj hrun).1 ▸ h

theorem Accepts.gives (h : p.Accepts cs rest V) : p.Gives (cs ++ rest) V := by
  intro s a t hs hrun
  obtain ⟨b, u, hrun', hv, -⟩ := h s hs
  obtain ⟨hab, -⟩ := Prod.mk.inj (hrun'.symm.trans hrun)
  exact Option.some.inj hab ▸ hv

theorem Rejects.gives (h : p.Rejects cs) : p.Gives cs V := by
  intro s a t hs hrun
  obtain ⟨u, hrun', -⟩ := h s hs
  nomatch hrun'.symm.trans hrun

/-- What follows gives what it gives in front of any text. -/
theorem Gives.bind (hp : p.Gives cs V) (hq : ∀ a, V a → ∀ ds, (q a).Gives ds W) :
    (p >>= q).Gives cs W := by
  intro s b t hs hrun
  rw [bind_apply] at hrun
  split at hrun
  · next a s' hps => exact hq a (hp s a s' hs hps) _ s' b t rfl hrun
  · cases hrun

/-- The values of what comes first do not matter. -/
theorem Gives.after (hq : ∀ a ds, (q a).Gives ds W) : (p >>= q).Gives cs W :=
  .bind (V := anything) (.of_all fun _ => trivial) fun a _ => hq a

/-- What follows is in front of the rest. -/
theorem Accepts.thenGives (hp : p.Accepts cs rest V) (hq : ∀ a, V a → (q a).Gives rest W) :
    (p >>= q).Gives (cs ++ rest) W := by
  intro s b t hs hrun
  obtain ⟨a, u, hrun', hv, hfar⟩ := hp s hs
  rw [bind_apply_of_some hrun'] at hrun
  exact hq a hv u b t (hfar.ahead hs) hrun

theorem Gives.still {q : Cursor → Reader β} (hq : ∀ begun, (q begun).Gives cs W) :
    (cursor >>= q).Gives cs W := accepts_cursor.thenGives fun begun _ => hq begun

theorem Gives.orElse (hp : p.Gives cs V) (hplace : Notation.FailsInPlace p)
    (hp' : p'.Gives cs V) : (p <|> p').Gives cs V := by
  intro s a t hs hrun
  change Reader.orElse p (fun _ => p') s = _ at hrun
  rw [Reader.orElse] at hrun
  split at hrun
  · next b s' hps =>
    exact Option.some.inj (Prod.mk.inj hrun).1 ▸ hp s b s' hs hps
  · next s' hps => exact hp' s' a t ((hplace s s' hps).trans hs) hrun

/-- The first alternative gives way. -/
theorem Rejects.orGives (hp : p.Rejects cs) (hp' : p'.Gives cs V) : (p <|> p').Gives cs V := by
  intro s a t hs hrun
  obtain ⟨u, hps, hfar⟩ := hp s hs
  change Reader.orElse p (fun _ => p') s = _ at hrun
  rw [Reader.orElse, hps] at hrun
  exact hp' u a t (hfar.ahead_zero.trans hs) hrun

theorem Gives.attempt (hp : p.Gives cs V) : (attempt p).Gives cs V := by
  intro s a t hs hrun
  rw [Reader.attempt] at hrun
  split at hrun
  · next b s' hps => exact Option.some.inj (Prod.mk.inj hrun).1 ▸ hp s b s' hs hps
  · cases hrun

theorem Gives.named (hp : p.Gives cs V) (name : String) : (named name p).Gives cs V := by
  intro s a t hs hrun
  rw [Reader.named] at hrun
  split at hrun
  · next b s' hps =>
    obtain ⟨hb, -⟩ := Prod.mk.inj hps
    refine Option.some.inj (Prod.mk.inj hrun).1 ▸
      hp.attempt { s with state := s.state.suspend } b _ hs (Prod.ext hb rfl)
  · cases hrun

theorem Gives.option (hp : p.Gives cs V) : (option p).Gives cs fun a => ∀ b, a = some b → V b := by
  rintro s a t hs hrun b rfl
  exact hp s b _ hs (Prod.ext (Option.some.inj (Prod.mk.inj hrun).1) rfl)

theorem many_apply (p : Reader α) (s : ReaderState) : many p s =
    (some (collect p (s.ahead.length + 1) s).1, (collect p (s.ahead.length + 1) s).2) := rfl

/-- Of a repetition, the first value is known. -/
theorem Gives.many (hp : p.Gives cs V) : (many p).Gives cs fun as => ∀ a ∈ as.head?, V a := by
  intro s as t hs hrun a ha
  rw [many_apply] at hrun
  rw [← Option.some.inj (Prod.mk.inj hrun).1, collect] at ha
  split at ha
  · cases ha
  · next b s' hps => exact Option.some.inj ha ▸ hp s b s' hs hps

/-! ### Repetition -/

/-- In front of `cs` and `rest` the reader succeeds over and over until it has taken `cs`, and then
fails in place. -/
def Repeats (p : Reader α) (cs rest : List Char) (W : List α → Prop) : Prop :=
  ∀ (bound : Nat) (s : ReaderState), s.ahead = cs ++ rest → cs.length < bound →
    W (collect p bound s).1 ∧ s.Further cs.length (collect p bound s).2

theorem Repeats.nil {W : List α → Prop} (hp : p.Rejects rest) (hW : W []) :
    Repeats p [] rest W := by
  rintro (_ | bound) s hs hbound
  · nomatch hbound
  · obtain ⟨t, hrun, hfar⟩ := hp s hs
    rw [collect, hrun]
    exact ⟨hW, hfar⟩

/-- Each time takes a character at least, so the bound is never met. -/
theorem Repeats.cons {W W' : List α → Prop} (hp : p.Accepts cs (ds ++ rest) V) (hcs : cs ≠ [])
    (hrest : Repeats p ds rest W) (hW : ∀ a as, V a → W as → W' (a :: as)) :
    Repeats p (cs ++ ds) rest W' := by
  rintro (_ | bound) s hs hbound
  · nomatch hbound
  · rw [List.append_assoc] at hs
    obtain ⟨a, t, hrun, hv, hfar⟩ := hp s hs
    have hlength : ds.length < bound := by
      have hpos := List.length_pos_iff.mpr hcs
      rw [List.length_append] at hbound
      omega
    obtain ⟨hw, hfar'⟩ := hrest bound t (hfar.ahead hs) hlength
    rw [collect, hrun]
    exact ⟨hW a _ hv hw, List.length_append ▸ hfar.trans hfar'⟩

theorem Repeats.mono {W W' : List α → Prop} (h : Repeats p cs rest W) (hW : ∀ as, W as → W' as) :
    Repeats p cs rest W' :=
  fun bound s hs hbound => (h bound s hs hbound).imp_left (hW _)

theorem Repeats.many {W : List α → Prop} (h : Repeats p cs rest W) :
    (many p).Accepts cs rest W := by
  intro s hs
  have hbound : cs.length < s.ahead.length + 1 := by
    rw [hs, List.length_append]
    omega
  obtain ⟨hw, hfar⟩ := h _ s hs hbound
  exact ⟨_, _, rfl, hw, hfar⟩

theorem Repeats.one (hp : p.Accepts cs rest V) (hcs : cs ≠ []) (hend : p.Rejects rest) :
    Repeats p cs rest fun as => ∃ a, as = [a] ∧ V a := by
  rw [← List.append_nil cs]
  refine .cons hp hcs (.nil (W := (· = [])) hend rfl) ?_
  rintro a _ hv rfl
  exact ⟨a, rfl, hv⟩

/-- A list that was written item by item is read item by item. -/
theorem Repeats.flatMap {γ : Type} {spell : γ → List Char} {R : γ → α → Prop} {xs : List γ}
    (hend : p.Rejects rest)
    (hitem : ∀ x more, x :: more <:+ xs →
      p.Accepts (spell x) (more.flatMap spell ++ rest) (R x) ∧ spell x ≠ []) :
    Repeats p (xs.flatMap spell) rest (List.Forall₂ R xs) := by
  induction xs with
  | nil => exact .nil hend .nil
  | cons x xs ih =>
    obtain ⟨haccepts, hne⟩ := hitem x xs List.suffix_rfl
    rw [List.flatMap_cons]
    refine .cons haccepts hne (ih fun y more hsuffix => ?_) fun _ _ => .cons
    exact hitem y more (hsuffix.trans (List.suffix_cons x xs))

/-- Characters that are read one by one stand for themselves. -/
theorem Repeats.chars {accepts : Char → Bool} (hcs : cs.all accepts = true)
    (hrest : ∀ c ∈ rest.head?, accepts c = false) (description : String) :
    Repeats (charWhere accepts description) cs rest (· = cs) := by
  induction cs with
  | nil => exact .nil (rejects_charWhere hrest description) rfl
  | cons c cs ih =>
    obtain ⟨hc, hcs⟩ := Bool.and_eq_true_iff.mp hcs
    refine .cons (accepts_charWhere hc description) (List.cons_ne_nil c []) (ih hcs) ?_
    rintro _ _ rfl rfl
    rfl

end Reader

end Packrat
