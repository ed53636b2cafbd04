import Packrat.Proofs.Metagrammar

/-!
# Readers that recognise

A reader recognises a parsing expression if it does on every text what the expression derives: where
it succeeds, it leaves the rest that the expression leaves, and where it fails, so does the
expression. `Reads` says this for texts up to a length, which is what readers with a bounded depth
need, and it says two things more: what the value is, by the text that was read, and what became of
the note that an inverted range leaves behind.

Readers are put together from others much as expressions are, so there is one rule for each way of
doing it. A failing reader may leave the cursor where it got to. A reader that another one takes
over from, or that may be missing, has to fail in place (`FailsInPlace`).

## Notes

A note cannot be taken back, also when the branch is given up that left it. `Report` is what is
promised about the note, by what lay ahead and what was read; lexemes leave it alone (`silent`). The
rules hold for any reports that fit together.

## Main results

* `Reads.bind`, `Reads.orElse`, `Reads.many`: the rules for readers put together
* `Reads.unless`, `Reads.atLeastOne`: the rules for lookaheads, and for a repetition that must match
* `reads_text`, `reads_charWhere`: the rules for texts and characters
-/

namespace Packrat

/-- What lies ahead of a reader. -/
def ReaderState.ahead (s : ReaderState) : List Char := s.state.cursor.ahead

/-- Whether an inverted range is noted. -/
def ReaderState.noted (s : ReaderState) : Bool := s.inverted.isSome

namespace Notation

open ParseTree Reader

variable {α β : Type}

/-! ### What a reader leaves -/

/-- What is promised about the note, by what lay ahead and what was read. -/
structure Report where
  /-- Behind a match: the note before, the text and its trees, the rest, and the note behind. -/
  matched : Bool → List Char → List (ParseTree Symbol) → List Char → Bool → Prop
  /-- Behind a failure: the note before, the text, and the note behind. -/
  failed : Bool → List Char → Bool → Prop

/-- The note stays what it is. -/
def silent : Report where
  matched before _ _ _ after := after = before
  failed before _ after := after = before

/-- With fewer than `n` characters ahead, the reader does what the expression derives, with a value
as `V` has it for the trees of what was read. -/
structure Reads (n : Nat) (p : Reader α) (e : Peg Symbol)
    (V : α → List (ParseTree Symbol) → Prop) (R : Report) : Prop where
  matched {s s' : ReaderState} {a : α} : s.ahead.length < n → p s = (some a, s') →
    ∃ ts, Derives production e s.ahead (some (ts, s'.ahead)) ∧ V a ts ∧
      R.matched s.noted s.ahead ts s'.ahead s'.noted
  failed {s s' : ReaderState} : s.ahead.length < n → p s = (none, s') →
    Derives production e s.ahead none ∧ R.failed s.noted s.ahead s'.noted

/-- Nothing is said about the value. -/
abbrev anyValue : α → List (ParseTree Symbol) → Prop := fun _ _ => True

/-- The value is told by the text that was read. -/
abbrev ofText (P : α → List Char → Prop) (a : α) (ts : List (ParseTree Symbol)) : Prop :=
  P a (textAll ts)

/-- A failure leaves the cursor where it was. -/
def FailsInPlace (p : Reader α) : Prop := ∀ s s', p s = (none, s') → s'.ahead = s.ahead

/-- The reader succeeds and changes nothing. -/
def Still (p : Reader α) : Prop := ∀ s, ∃ a, p s = (some a, s)

section

variable {n : Nat} {p p' : Reader α} {q : α → Reader β} {e f : Peg Symbol}
  {V V' : α → List (ParseTree Symbol) → Prop} {W : β → List (ParseTree Symbol) → Prop}
  {R R' R₁ R₂ : Report}

/-! ### The cursor -/

theorem failsInPlace_attempt (p : Reader α) : FailsInPlace (attempt p) := by
  intro s s' h
  unfold attempt at h
  split at h
  · cases h
  · obtain ⟨-, rfl⟩ := Prod.mk.inj h
    rfl

theorem failsInPlace_named (name : String) (p : Reader α) : FailsInPlace (named name p) := by
  intro s s' h
  unfold named quietly at h
  cases hp : attempt p { s with state := s.state.suspend } with
  | mk a t =>
    cases a with
    | some a =>
      simp only [hp] at h
      nomatch h
    | none =>
      simp only [hp] at h
      obtain ⟨-, rfl⟩ := Prod.mk.inj h
      have hplace := failsInPlace_attempt p _ _ hp
      rw [ReaderState.ahead, State.fail, State.cursor_failAt]
      exact hplace

theorem FailsInPlace.orElse (hp : FailsInPlace p) (hp' : FailsInPlace p') :
    FailsInPlace (p <|> p') := by
  intro s s' h
  change Reader.orElse p (fun _ => p') s = _ at h
  unfold Reader.orElse at h
  split at h
  · cases h
  · next t ht => exact (hp' _ _ h).trans (hp _ _ ht)

/-- What cannot fail does not move the failures of what comes before it. -/
theorem FailsInPlace.bind (hp : FailsInPlace p) (hq : ∀ a s s', q a s ≠ (none, s')) :
    FailsInPlace (p >>= q) := by
  intro s s' h
  rw [bind_apply] at h
  split at h
  · exact absurd h (hq _ _ _)
  · next t ht =>
    obtain ⟨-, rfl⟩ := Prod.mk.inj h
    exact hp _ _ ht

theorem FailsInPlace.still (hp : Still p) (hq : ∀ a, FailsInPlace (q a)) :
    FailsInPlace (p >>= q) := by
  intro s s' h
  obtain ⟨a, ha⟩ := hp s
  rw [bind_apply_of_some ha] at h
  exact hq a _ _ h

theorem Still.ne_none (hp : Still p) (s s' : ReaderState) : p s ≠ (none, s') := by
  intro h
  obtain ⟨a, ha⟩ := hp s
  nomatch ha.symm.trans h

/-- A lookahead does not move the failures of what comes behind it. -/
theorem FailsInPlace.unless {p' : Reader β} (hp' : FailsInPlace p') :
    FailsInPlace (peek p >>= fun answer => if answer then fail else p') := by
  intro s s' h
  rw [bind_apply, peek] at h
  dsimp only at h
  split at h
  · obtain ⟨-, rfl⟩ := Prod.mk.inj h
    rfl
  · have hfailed := hp' _ _ h
    exact hfailed

theorem FailsInPlace.thenStill (hp : FailsInPlace p) (hq : ∀ a, Still (q a)) :
    FailsInPlace (p >>= q) := hp.bind fun a => (hq a).ne_none

theorem Still.bind (hp : Still p) (hq : ∀ a, Still (q a)) : Still (p >>= q) := by
  intro s
  obtain ⟨a, ha⟩ := hp s
  obtain ⟨b, hb⟩ := hq a s
  exact ⟨b, (bind_apply_of_some ha q).trans hb⟩

theorem still_pure (a : α) : Still (pure a) := fun _ => ⟨a, rfl⟩

theorem still_cursor : Still Reader.cursor := fun s => ⟨s.state.cursor, rfl⟩

theorem still_spanSince (begun : Cursor) : Still (spanSince begun) :=
  still_cursor.bind fun _ => still_pure _

theorem bind_ne_none (hp : ∀ s s', p s ≠ (none, s')) (hq : ∀ a, Still (q a)) (s s' : ReaderState) :
    (p >>= q) s ≠ (none, s') := by
  intro h
  rw [bind_apply] at h
  split at h
  · exact (hq _).ne_none _ _ h
  · next t ht => exact hp _ _ ht

theorem option_ne_none (p : Reader α) (s s' : ReaderState) : option p s ≠ (none, s') := nofun

theorem many_ne_none (p : Reader α) (s s' : ReaderState) : many p s ≠ (none, s') := nofun

/-! ### Rules -/

namespace Reads

theorem mono (h : Reads n p e V R) (hV : ∀ a ts, V a ts → V' a ts)
    (hmatched : ∀ {b cs ts rest c}, R.matched b cs ts rest c → R'.matched b cs ts rest c)
    (hfailed : ∀ {b cs c}, R.failed b cs c → R'.failed b cs c) : Reads n p e V' R' where
  matched hn hrun := by
    obtain ⟨ts, hd, hv, hr⟩ := h.matched hn hrun
    exact ⟨ts, hd, hV _ _ hv, hmatched hr⟩
  failed hn hrun := ⟨(h.failed hn hrun).1, hfailed (h.failed hn hrun).2⟩

theorem value (h : Reads n p e V R) (hV : ∀ a ts, V a ts → V' a ts) : Reads n p e V' R :=
  h.mono hV id id

theorem any (h : Reads n p e V R) : Reads n p e anyValue R := h.value fun _ _ _ => trivial

/-- Another expression with the same outcomes is recognised as well. -/
theorem derive (h : Reads n p e V R)
    (hd : ∀ {cs o}, Derives production e cs o → Derives production f cs o) : Reads n p f V R where
  matched hn hrun := by
    obtain ⟨ts, he, hv, hr⟩ := h.matched hn hrun
    exact ⟨ts, hd he, hv, hr⟩
  failed hn hrun := ⟨hd (h.failed hn hrun).1, (h.failed hn hrun).2⟩

/-- No text is shorter than nothing. -/
theorem zero : Reads 0 p e V R := ⟨nofun, nofun⟩

/-- A reader with a bound of its own reads every text if the bound is beyond it. -/
theorem of_bound {r : Nat → Reader α} (h : ∀ n, Reads n (r n) e V R) :
    Reads n (Reader.cursor >>= fun c => r (c.ahead.length + 1)) e V R where
  matched _ hrun := (h _).matched (Nat.lt_succ_self _) hrun
  failed _ hrun := (h _).failed (Nat.lt_succ_self _) hrun

theorem pure {a : α} (hv : V a []) : Reads n (pure a) .empty V silent where
  matched _ hrun := by
    obtain ⟨ha, rfl⟩ := Prod.mk.inj hrun
    obtain rfl := Option.some.inj ha
    exact ⟨[], .empty, hv, rfl⟩
  failed _ hrun := nomatch hrun

theorem still (hp : Still p) (hq : ∀ a, Reads n (q a) e W R) : Reads n (p >>= q) e W R where
  matched {s s' b} hn hrun := by
    obtain ⟨a, ha⟩ := hp s
    rw [bind_apply_of_some ha] at hrun
    exact (hq a).matched hn hrun
  failed {s s'} hn hrun := by
    obtain ⟨a, ha⟩ := hp s
    rw [bind_apply_of_some ha] at hrun
    exact (hq a).failed hn hrun

/-- What reads nothing more may still make another value of the one that was read. -/
theorem finish (hp : Reads n p e V R)
    (hq : ∀ a ts, V a ts → ∀ s, ∃ b, q a s = (some b, s) ∧ W b ts) : Reads n (p >>= q) e W R where
  matched {s s' b} hn hrun := by
    rw [bind_apply] at hrun
    split at hrun
    · next a t ht =>
      obtain ⟨ts, hd, hv, hr⟩ := hp.matched hn ht
      obtain ⟨b', hb, hw⟩ := hq a ts hv t
      obtain ⟨heq, rfl⟩ := Prod.mk.inj (hb.symm.trans hrun)
      obtain rfl := Option.some.inj heq
      exact ⟨ts, hd, hw, hr⟩
    · cases hrun
  failed {s s'} hn hrun := by
    rw [bind_apply] at hrun
    split at hrun
    · next a t ht =>
      obtain ⟨ts, -, hv, -⟩ := hp.matched hn ht
      obtain ⟨b', hb, -⟩ := hq a ts hv t
      cases hb.symm.trans hrun
    · next t ht =>
      obtain ⟨-, rfl⟩ := Prod.mk.inj hrun
      exact hp.failed hn ht

theorem thenStill (hp : Reads n p e V R) (hq : ∀ a, Still (q a)) :
    Reads n (p >>= q) e anyValue R :=
  hp.finish fun a _ _ s => (hq a s).imp fun _ hb => ⟨hb, trivial⟩

theorem map {g : α → β} (hp : Reads n p e V R) (hW : ∀ a ts, V a ts → W (g a) ts) :
    Reads n (p >>= fun a => Pure.pure (g a)) e W R :=
  hp.finish fun a ts hv _ => ⟨g a, rfl, hW a ts hv⟩

end Reads

/-! ### One behind the other -/

/-- What two readers promise, one behind the other, makes up what is promised of both. -/
structure Report.Seq (e f : Peg Symbol) (R₁ R₂ R : Report) : Prop where
  matched {b c d : Bool} {cs mid rest : List Char} {ts us : List (ParseTree Symbol)} :
    Derives production e cs (some (ts, mid)) → R₁.matched b cs ts mid c →
      Derives production f mid (some (us, rest)) → R₂.matched c mid us rest d →
        R.matched b cs (ts ++ us) rest d
  first {b c : Bool} {cs : List Char} : R₁.failed b cs c → R.failed b cs c
  second {b c d : Bool} {cs mid : List Char} {ts : List (ParseTree Symbol)} :
    Derives production e cs (some (ts, mid)) → R₁.matched b cs ts mid c →
      Derives production f mid none → R₂.failed c mid d → R.failed b cs d

theorem Report.Seq.silent : Report.Seq e f silent silent silent where
  matched _ h _ h' := h'.trans h
  first h := h
  second _ h _ h' := h'.trans h

/-- Two values behind one another. -/
def Behind (V : α → List (ParseTree Symbol) → Prop) (W : α → β → List (ParseTree Symbol) → Prop)
    (b : β) (ts : List (ParseTree Symbol)) : Prop :=
  ∃ a us vs, ts = us ++ vs ∧ V a us ∧ W a b vs

theorem Reads.bind {n' : Nat} {W : α → β → List (ParseTree Symbol) → Prop} (hp : Reads n p e V R₁)
    (hq : ∀ a, Reads n' (q a) f (W a) R₂)
    (hlength : ∀ {cs ts mid}, cs.length < n → Derives production e cs (some (ts, mid)) →
      mid.length < n')
    (hR : Report.Seq e f R₁ R₂ R) : Reads n (p >>= q) (.seq e f) (Behind V W) R where
  matched {s s' b} hn hrun := by
    rw [bind_apply] at hrun
    split at hrun
    · next a t ht =>
      obtain ⟨ts, hd, hv, hr⟩ := hp.matched hn ht
      obtain ⟨us, hd', hw, hr'⟩ := (hq a).matched (hlength hn hd) hrun
      refine ⟨ts ++ us, .seq hd hd', ?_, hR.matched hd hr hd' hr'⟩
      exact ⟨a, ts, us, rfl, hv, hw⟩
    · cases hrun
  failed {s s'} hn hrun := by
    rw [bind_apply] at hrun
    split at hrun
    · next a t ht =>
      obtain ⟨ts, hd, hv, hr⟩ := hp.matched hn ht
      obtain ⟨hd', hr'⟩ := (hq a).failed (hlength hn hd) hrun
      exact ⟨.seqSecond hd hd', hR.second hd hr hd' hr'⟩
    · next t ht =>
      obtain ⟨-, rfl⟩ := Prod.mk.inj hrun
      obtain ⟨hd, hr⟩ := hp.failed hn ht
      exact ⟨.seqFirst hd, hR.first hr⟩

/-- What comes behind has no more to read. -/
theorem Reads.behind {W : α → β → List (ParseTree Symbol) → Prop} (hp : Reads n p e V R₁)
    (hq : ∀ a, Reads n (q a) f (W a) R₂) (hR : Report.Seq e f R₁ R₂ R) :
    Reads n (p >>= q) (.seq e f) (Behind V W) R :=
  hp.bind hq (fun hn hd => Nat.lt_of_le_of_lt hd.length_le hn) hR

/-- Lexemes one behind the other. -/
theorem Reads.next (hp : Reads n p e V silent) (hq : ∀ a, Reads n (q a) f anyValue silent) :
    Reads n (p >>= q) (.seq e f) anyValue silent := (hp.behind hq .silent).any

/-! ### One or the other -/

/-- What two readers promise, one of them in place of the other, makes up what is promised of both.
-/
structure Report.Choice (e f : Peg Symbol) (R₁ R₂ R : Report) : Prop where
  first {b c : Bool} {cs rest : List Char} {ts : List (ParseTree Symbol)} :
    R₁.matched b cs ts rest c → R.matched b cs ts rest c
  second {b c d : Bool} {cs rest : List Char} {ts : List (ParseTree Symbol)} :
    Derives production e cs none → R₁.failed b cs c → Derives production f cs (some (ts, rest)) →
      R₂.matched c cs ts rest d → R.matched b cs ts rest d
  failed {b c d : Bool} {cs : List Char} : R₁.failed b cs c → Derives production f cs none →
    R₂.failed c cs d → R.failed b cs d

theorem Report.Choice.silent : Report.Choice e f silent silent silent where
  first h := h
  second _ h _ h' := h'.trans h
  failed h _ h' := h'.trans h

theorem Reads.orElse (hp : Reads n p e V R₁) (hplace : FailsInPlace p) (hp' : Reads n p' f V R₂)
    (hR : Report.Choice e f R₁ R₂ R) : Reads n (p <|> p') (.choice e f) V R where
  matched {s s' a} hn hrun := by
    change Reader.orElse p (fun _ => p') s = _ at hrun
    unfold Reader.orElse at hrun
    split at hrun
    · next b t ht =>
      obtain ⟨ts, hd, hv, hr⟩ := hp.matched hn ht
      obtain ⟨hb, rfl⟩ := Prod.mk.inj hrun
      obtain rfl := Option.some.inj hb
      exact ⟨ts, .choiceFirst hd, hv, hR.first hr⟩
    · next t ht =>
      obtain ⟨hd, hr⟩ := hp.failed hn ht
      have hahead := hplace _ _ ht
      obtain ⟨ts, hd', hv, hr'⟩ := hp'.matched (hahead ▸ hn) hrun
      rw [hahead] at hd' hr'
      exact ⟨ts, .choiceSecond hd hd', hv, hR.second hd hr hd' hr'⟩
  failed {s s'} hn hrun := by
    change Reader.orElse p (fun _ => p') s = _ at hrun
    unfold Reader.orElse at hrun
    split at hrun
    · cases hrun
    · next t ht =>
      obtain ⟨hd, hr⟩ := hp.failed hn ht
      have hahead := hplace _ _ ht
      obtain ⟨hd', hr'⟩ := hp'.failed (hahead ▸ hn) hrun
      rw [hahead] at hd' hr'
      exact ⟨.choiceSecond hd hd', hR.failed hr hd' hr'⟩

/-- One lexeme or the other. -/
theorem Reads.or (hp : Reads n p e V silent) (hplace : FailsInPlace p)
    (hp' : Reads n p' f V silent) : Reads n (p <|> p') (.choice e f) V silent :=
  hp.orElse hplace hp' .silent

/-! ### Wrappers -/

theorem Reads.attempt (hp : Reads n p e V R) : Reads n (attempt p) e V R where
  matched {s s' a} hn hrun := by
    unfold Reader.attempt at hrun
    split at hrun
    · next b t ht =>
      obtain ⟨hb, rfl⟩ := Prod.mk.inj hrun
      obtain rfl := Option.some.inj hb
      exact hp.matched hn ht
    · cases hrun
  failed {s s'} hn hrun := by
    unfold Reader.attempt at hrun
    split at hrun
    · cases hrun
    · next t ht =>
      obtain ⟨-, rfl⟩ := Prod.mk.inj hrun
      have hfailed := hp.failed hn ht
      exact ⟨hfailed.1, hfailed.2⟩

theorem Reads.quietly (hp : Reads n p e V R) : Reads n (quietly p) e V R where
  matched {s s' a} hn hrun := by
    unfold Reader.quietly at hrun
    cases ht : p { s with state := s.state.suspend } with
    | mk b t =>
      rw [ht] at hrun
      obtain ⟨rfl, rfl⟩ := Prod.mk.inj hrun
      obtain ⟨ts, hd, hv, hr⟩ := hp.matched (s := { s with state := s.state.suspend }) hn ht
      exact ⟨ts, hd, hv, hr⟩
  failed {s s'} hn hrun := by
    unfold Reader.quietly at hrun
    cases ht : p { s with state := s.state.suspend } with
    | mk b t =>
      rw [ht] at hrun
      obtain ⟨rfl, rfl⟩ := Prod.mk.inj hrun
      have hfailed := hp.failed (s := { s with state := s.state.suspend }) hn ht
      exact ⟨hfailed.1, hfailed.2⟩

theorem Reads.named {name : String} (hp : Reads n p e V R) : Reads n (named name p) e V R where
  matched {s s' a} hn hrun := by
    unfold Reader.named at hrun
    split at hrun
    · next b t ht =>
      obtain ⟨hb, rfl⟩ := Prod.mk.inj hrun
      obtain rfl := Option.some.inj hb
      exact hp.attempt.quietly.matched hn ht
    · cases hrun
  failed {s s'} hn hrun := by
    unfold Reader.named at hrun
    split at hrun
    · cases hrun
    · next t ht =>
      obtain ⟨-, rfl⟩ := Prod.mk.inj hrun
      have hfailed := hp.attempt.quietly.failed hn ht
      exact ⟨hfailed.1, hfailed.2⟩

/-- A nonterminal is recognised with its production. -/
theorem Reads.call {a : Symbol} (hp : Reads n p (production a) V R)
    (hV : ∀ v ts, V v ts → V' v [.node a ts])
    (hmatched : ∀ {b cs ts rest c}, R.matched b cs ts rest c → R'.matched b cs [.node a ts] rest c)
    (hfailed : ∀ {b cs c}, R.failed b cs c → R'.failed b cs c) : Reads n p (.call a) V' R' where
  matched hn hrun := by
    obtain ⟨ts, hd, hv, hr⟩ := hp.matched hn hrun
    exact ⟨_, .call hd, hV _ _ hv, hmatched hr⟩
  failed hn hrun := ⟨.callFails (hp.failed hn hrun).1, hfailed (hp.failed hn hrun).2⟩

theorem Reads.lexeme {a : Symbol} (hp : Reads n p (production a) V silent) :
    Reads n p (.call a) anyValue silent := hp.call (fun _ _ _ => trivial) id id

theorem Reads.lexemeText {a : Symbol} {P : α → List Char → Prop}
    (hp : Reads n p (production a) (ofText P) silent) : Reads n p (.call a) (ofText P) silent := by
  refine hp.call (fun v ts hv => ?_) id id
  rw [ofText, textAll, textAll, ParseTree.text, List.append_nil]
  exact hv

/-! ### What may be missing -/

theorem Reads.option (hp : Reads n p e V R) (hplace : FailsInPlace p)
    (hR : ∀ {b cs c}, R.failed b cs c → R.matched b cs [] cs c) :
    Reads n (option p) (.opt e) anyValue R where
  matched {s s' a} hn hrun := by
    unfold Reader.option at hrun
    cases ht : p s with
    | mk b t =>
      rw [ht] at hrun
      obtain ⟨-, rfl⟩ := Prod.mk.inj hrun
      cases b with
      | some b =>
        obtain ⟨ts, hd, -, hr⟩ := hp.matched hn ht
        exact ⟨ts, .choiceFirst hd, trivial, hr⟩
      | none =>
        obtain ⟨hd, hr⟩ := hp.failed hn ht
        have hahead := hplace _ _ ht
        refine ⟨[], ?_, trivial, ?_⟩
        · rw [hahead]
          exact .choiceSecond hd .empty
        · rw [hahead]
          exact hR hr
  failed _ hrun := absurd hrun (option_ne_none _ _ _)

/-- Whether a reader succeeds is known where its value may be missing. -/
theorem succeeds_eq (p : Reader α) :
    succeeds p = Reader.option p >>= fun a => Pure.pure a.isSome := rfl

theorem Reads.succeeds (hp : Reads n p e V R) (hplace : FailsInPlace p)
    (hR : ∀ {b cs c}, R.failed b cs c → R.matched b cs [] cs c) :
    Reads n (succeeds p) (.opt e) anyValue R := by
  rw [succeeds_eq]
  exact (hp.option hplace hR).thenStill fun _ => still_pure _

/-! ### Lookahead -/

/-- A lookahead is over when it has come to its answer, and leaves no note. -/
theorem peek_spec (hp : Reads n p e V silent) {s : ReaderState} (hn : s.ahead.length < n) :
    ∃ answer s', peek p s = (some answer, s') ∧ s'.ahead = s.ahead ∧ s'.noted = s.noted ∧
      if answer then ∃ ts rest, Derives production e s.ahead (some (ts, rest))
      else Derives production e s.ahead none := by
  cases ht : Reader.quietly p s with
  | mk a t =>
    have hpeek : peek p s = (some a.isSome, { t with state := t.state.moveTo s.state.cursor }) := by
      rw [peek, ht]
    refine ⟨a.isSome, _, hpeek, rfl, ?_⟩
    cases a with
    | some a =>
      obtain ⟨ts, hd, -, hr⟩ := hp.quietly.matched hn ht
      exact ⟨hr, ts, _, hd⟩
    | none =>
      obtain ⟨hd, hr⟩ := hp.quietly.failed hn ht
      exact ⟨hr, hd⟩

theorem Reads.unless {q : Reader β} (hp : Reads n p e V silent) (hq : Reads n q f W R)
    (hR : ∀ {b cs}, R.failed b cs b) :
    Reads n (peek p >>= fun answer => if answer then fail else q) (.seq (.absent e) f) W R where
  matched {s s' b} hn hrun := by
    obtain ⟨answer, t, ht, hahead, hnoted, hanswer⟩ := peek_spec hp hn
    rw [bind_apply_of_some ht] at hrun
    cases answer with
    | true => nomatch hrun
    | false =>
      obtain ⟨us, hd, hw, hr⟩ := hq.matched (hahead ▸ hn) hrun
      rw [hahead] at hd hr
      rw [hnoted] at hr
      exact ⟨us, .seq (.absent hanswer) hd, hw, hr⟩
  failed {s s'} hn hrun := by
    obtain ⟨answer, t, ht, hahead, hnoted, hanswer⟩ := peek_spec hp hn
    rw [bind_apply_of_some ht] at hrun
    cases answer with
    | true =>
      obtain ⟨-, rfl⟩ := Prod.mk.inj hrun
      obtain ⟨ts, rest, hd⟩ := hanswer
      exact ⟨.seqFirst (.absentFails hd), hnoted ▸ hR⟩
    | false =>
      obtain ⟨hd, hr⟩ := hq.failed (hahead ▸ hn) hrun
      rw [hahead] at hd hr
      rw [hnoted] at hr
      exact ⟨.seqSecond (.absent hanswer) hd, hr⟩

/-- A lookahead with nothing behind it. -/
theorem Reads.absent {b : β} (hp : Reads n p e V silent) (hW : W b []) :
    Reads n (peek p >>= fun answer => if answer then fail else Pure.pure b) (.absent e) W silent :=
  (hp.unless (.pure hW) rfl).derive .seq_empty

/-! ### Repetition -/

/-- What a reader promises makes up what is promised of its repetition. -/
structure Report.Many (e : Peg Symbol) (R R' : Report) : Prop where
  last {b c : Bool} {cs : List Char} : R.failed b cs c → R'.matched b cs [] cs c
  more {b c d : Bool} {cs mid rest : List Char} {ts us : List (ParseTree Symbol)} :
    R.matched b cs ts mid c → Derives production (.many e) mid (some (us, rest)) →
      R'.matched c mid us rest d → R'.matched b cs (ts ++ us) rest d

theorem Report.Many.silent : Report.Many e silent silent := ⟨id, fun h _ h' => h'.trans h⟩

/-- Every match takes a character at least, so a bound beyond the text is never met. -/
theorem collect_spec (hp : Reads n p e V R) (hplace : FailsInPlace p)
    (hconsumes : ∀ {cs ts rest}, Derives production e cs (some (ts, rest)) →
      rest.length < cs.length)
    (hR : Report.Many e R R') {bound : Nat} {s : ReaderState} (hn : s.ahead.length < n)
    (hbound : s.ahead.length < bound) :
    ∃ ts, Derives production (.many e) s.ahead (some (ts, (collect p bound s).2.ahead)) ∧
      R'.matched s.noted s.ahead ts (collect p bound s).2.ahead (collect p bound s).2.noted := by
  induction bound generalizing s with
  | zero => nomatch hbound
  | succ bound ih =>
    rw [collect]
    cases ht : p s with
    | mk a t =>
      cases a with
      | none =>
        obtain ⟨hd, hr⟩ := hp.failed hn ht
        have hahead := hplace _ _ ht
        refine ⟨[], ?_, ?_⟩
        · show Derives production (.many e) s.ahead (some ([], t.ahead))
          rw [hahead]
          exact .manyEnd hd
        · show R'.matched s.noted s.ahead [] t.ahead t.noted
          rw [hahead]
          exact hR.last hr
      | some a =>
        obtain ⟨ts, hd, -, hr⟩ := hp.matched hn ht
        have hlt := hconsumes hd
        obtain ⟨us, hd', hr'⟩ := ih (s := t) (Nat.lt_trans hlt hn)
          (Nat.lt_of_lt_of_le hlt (Nat.le_of_lt_succ hbound))
        exact ⟨ts ++ us, .manyMore hd hd', hR.more hr hd' hr'⟩

theorem Reads.many (hp : Reads n p e V R) (hplace : FailsInPlace p)
    (hconsumes : ∀ {cs ts rest}, Derives production e cs (some (ts, rest)) →
      rest.length < cs.length)
    (hR : Report.Many e R R') : Reads n (many p) (.many e) anyValue R' where
  matched {s s' as} hn hrun := by
    obtain ⟨ts, hd, hr⟩ := collect_spec hp hplace hconsumes hR hn (Nat.lt_succ_self _)
    obtain ⟨-, rfl⟩ := Prod.mk.inj hrun
    exact ⟨ts, hd, trivial, hr⟩
  failed _ hrun := absurd hrun (many_ne_none _ _ _)

theorem many_bind_of_none {k : List α → Reader β} {s t : ReaderState} (h : p s = (none, t)) :
    (Reader.many p >>= k) s = k [] t := by
  change k (collect p (s.ahead.length + 1) s).1 (collect p (s.ahead.length + 1) s).2 = _
  rw [collect, h]

theorem many_bind_of_some {k : List α → Reader β} {s t : ReaderState} {a : α}
    (h : p s = (some a, t)) : (Reader.many p >>= k) s =
      k (a :: (collect p s.ahead.length t).1) (collect p s.ahead.length t).2 := by
  change k (collect p (s.ahead.length + 1) s).1 (collect p (s.ahead.length + 1) s).2 = _
  rw [collect, h]

/-- At least one match, where what follows fails without any. -/
theorem Reads.atLeastOne {k : List α → Reader β} (hp : Reads n p e V R) (hplace : FailsInPlace p)
    (hconsumes : ∀ {cs ts rest}, Derives production e cs (some (ts, rest)) →
      rest.length < cs.length)
    (hR : Report.Many e R R') (hfailed : ∀ {b cs c}, R.failed b cs c → R'.failed b cs c)
    (hnone : k [] = fail) (hsome : ∀ a as, Still (k (a :: as))) :
    Reads n (Reader.many p >>= k) (.atLeastOne e) anyValue R' where
  matched {s s' b} hn hrun := by
    cases ht : p s with
    | mk a t =>
      cases a with
      | none =>
        rw [many_bind_of_none ht, hnone] at hrun
        nomatch hrun
      | some a =>
        rw [many_bind_of_some ht] at hrun
        obtain ⟨ts, hd, -, hr⟩ := hp.matched hn ht
        have hlt := hconsumes hd
        obtain ⟨us, hd', hr'⟩ := collect_spec hp hplace hconsumes hR (Nat.lt_trans hlt hn) hlt
        obtain ⟨b', hb⟩ := hsome a (collect p s.ahead.length t).1 (collect p s.ahead.length t).2
        obtain ⟨-, rfl⟩ := Prod.mk.inj (hb.symm.trans hrun)
        exact ⟨ts ++ us, .seq hd hd', trivial, hR.more hr hd' hr'⟩
  failed {s s'} hn hrun := by
    cases ht : p s with
    | mk a t =>
      cases a with
      | none =>
        rw [many_bind_of_none ht, hnone] at hrun
        obtain ⟨-, rfl⟩ := Prod.mk.inj hrun
        obtain ⟨hd, hr⟩ := hp.failed hn ht
        exact ⟨.seqFirst hd, hfailed hr⟩
      | some a =>
        rw [many_bind_of_some ht] at hrun
        exact absurd hrun ((hsome a (collect p s.ahead.length t).1).ne_none _ _)

/-! ### Texts and characters -/

/-- A text that is there is taken. -/
theorem text_of_isPrefix {value : String} {s : ReaderState} (h : value.toList <+: s.ahead) :
    Reader.text value s =
      (some (), { s with state := s.state.moveTo (s.state.cursor.skip value.toList.length) }) := by
  have hall : State.agreement (State.agree false) s.state.cursor.ahead value.toList = _ :=
    State.agreement_eq_length_iff.mpr h
  rw [Reader.text, bind_apply, ofStep, State.literal]
  dsimp only
  rw [hall, if_pos rfl]
  rfl

/-- A text that is not there is reported. -/
theorem text_of_not_isPrefix {value : String} {s : ReaderState} (h : ¬ value.toList <+: s.ahead) :
    ∃ place, Reader.text value s =
      (none, { s with state := s.state.failAt place (Text.quote value) }) := by
  have hpart : State.agreement (State.agree false) s.state.cursor.ahead value.toList ≠
      value.toList.length := fun heq => h (State.agreement_eq_length_iff.mp heq)
  refine ⟨s.state.cursor.skip
    (State.agreement (State.agree false) s.state.cursor.ahead value.toList), ?_⟩
  rw [Reader.text, bind_apply, ofStep, State.literal]
  dsimp only
  rw [if_neg hpart]

/-- A text is there or not. -/
theorem text_spec (value : String) (s : ReaderState) : ∃ a s', Reader.text value s = (a, s') ∧
    s'.noted = s.noted ∧
      ((a = some () ∧ s.ahead = value.toList ++ s'.ahead) ∨
        (a = none ∧ s'.ahead = s.ahead ∧ ¬ value.toList <+: s.ahead)) := by
  by_cases hprefix : value.toList <+: s.ahead
  · refine ⟨some (), _, text_of_isPrefix hprefix, rfl, .inl ⟨rfl, ?_⟩⟩
    obtain ⟨rest, hrest⟩ := hprefix
    change s.ahead = value.toList ++ s.ahead.drop value.toList.length
    rw [← hrest, List.drop_left]
  · obtain ⟨place, hrun⟩ := text_of_not_isPrefix hprefix
    have hfailed : (s.state.failAt place (Text.quote value)).cursor = s.state.cursor :=
      State.cursor_failAt ..
    exact ⟨none, _, hrun, rfl, .inr ⟨rfl, congrArg Cursor.ahead hfailed, hprefix⟩⟩

theorem failsInPlace_text (value : String) : FailsInPlace (Reader.text value) := by
  intro s s' h
  obtain ⟨a, t, ht, -, ⟨rfl, -⟩ | ⟨-, hahead, -⟩⟩ := text_spec value s
  · nomatch ht.symm.trans h
  · obtain ⟨-, rfl⟩ := Prod.mk.inj (ht.symm.trans h)
    exact hahead

theorem reads_text (value : String) :
    Reads n (Reader.text value) (.text value) (fun _ ts => ts = value.toList.map .leaf) silent where
  matched {s s' _} _ hrun := by
    obtain ⟨a, t, ht, hnoted, ⟨-, hahead⟩ | ⟨rfl, -⟩⟩ := text_spec value s
    · obtain ⟨-, rfl⟩ := Prod.mk.inj (ht.symm.trans hrun)
      exact ⟨_, hahead ▸ .chars _ _, rfl, hnoted⟩
    · nomatch ht.symm.trans hrun
  failed {s s'} _ hrun := by
    obtain ⟨a, t, ht, hnoted, ⟨rfl, -⟩ | ⟨-, -, hno⟩⟩ := text_spec value s
    · nomatch ht.symm.trans hrun
    · obtain ⟨-, rfl⟩ := Prod.mk.inj (ht.symm.trans hrun)
      exact ⟨.chars_fail hno, hnoted⟩

/-- A character that is accepted is taken. -/
theorem charWhere_of_accepted {accepts : Char → Bool} {s : ReaderState} {c : Char}
    {rest : List Char} (h : s.ahead = c :: rest) (hc : accepts c = true) (description : String) :
    Reader.charWhere accepts description s =
      (some c, { s with state := s.state.moveTo s.state.cursor.step }) := by
  have hcursor : s.state.cursor.ahead = c :: rest := h
  rw [Reader.charWhere, ofStep, State.charWhere, hcursor]
  dsimp only
  rw [if_pos hc]

/-- A character that is not accepted is reported, and so is the end of the text. -/
theorem charWhere_of_refused {accepts : Char → Bool} {s : ReaderState}
    (h : ∀ c rest, s.ahead = c :: rest → accepts c = false) (description : String) :
    Reader.charWhere accepts description s =
      (none, { s with state := s.state.fail description }) := by
  rw [Reader.charWhere, ofStep, State.charWhere]
  cases hcursor : s.state.cursor.ahead with
  | nil => rfl
  | cons c rest =>
    dsimp only
    rw [if_neg (Bool.eq_false_iff.mp (h c rest hcursor))]

/-- A character is there or not. -/
theorem charWhere_spec (accepts : Char → Bool) (description : String) (s : ReaderState) :
    ∃ a s', Reader.charWhere accepts description s = (a, s') ∧ s'.noted = s.noted ∧
      ((∃ c, a = some c ∧ accepts c = true ∧ s.ahead = c :: s'.ahead) ∨
        (a = none ∧ s'.ahead = s.ahead ∧ ∀ c rest, s.ahead = c :: rest → accepts c = false)) := by
  by_cases haccepted : ∃ c rest, s.ahead = c :: rest ∧ accepts c = true
  · obtain ⟨c, rest, hahead, hc⟩ := haccepted
    refine ⟨_, _, charWhere_of_accepted hahead hc description, rfl, .inl ⟨c, rfl, hc, ?_⟩⟩
    have hcursor : s.state.cursor.ahead = c :: rest := hahead
    rw [ReaderState.ahead, ReaderState.ahead, State.cursor_moveTo, Cursor.step, hcursor]
  · have hrefused : ∀ c rest, s.ahead = c :: rest → accepts c = false := fun c rest hahead =>
      Bool.eq_false_iff.mpr fun hc => haccepted ⟨c, rest, hahead, hc⟩
    have hfailed : (s.state.fail description).cursor = s.state.cursor := State.cursor_failAt ..
    exact ⟨_, _, charWhere_of_refused hrefused description, rfl,
      .inr ⟨rfl, congrArg Cursor.ahead hfailed, hrefused⟩⟩

theorem failsInPlace_charWhere (accepts : Char → Bool) (description : String) :
    FailsInPlace (Reader.charWhere accepts description) := by
  intro s s' h
  obtain ⟨a, t, ht, -, ⟨c, rfl, -⟩ | ⟨-, hahead, -⟩⟩ := charWhere_spec accepts description s
  · nomatch ht.symm.trans h
  · obtain ⟨-, rfl⟩ := Prod.mk.inj (ht.symm.trans h)
    exact hahead

/-- The expression matches one character that satisfies `accepts`, and fails elsewhere. -/
structure Singles (e : Peg Symbol) (accepts : Char → Bool) : Prop where
  matched {c : Char} (cs : List Char) : accepts c = true →
    Derives production e (c :: cs) (some ([.leaf c], cs))
  other {c : Char} (cs : List Char) : accepts c = false → Derives production e (c :: cs) none
  atEnd : Derives production e [] none

theorem reads_charWhere {accepts : Char → Bool} (he : Singles e accepts) (description : String) :
    Reads n (Reader.charWhere accepts description) e
      (fun c ts => ts = [.leaf c] ∧ accepts c = true) silent where
  matched {s s' _} _ hrun := by
    obtain ⟨a, t, ht, hnoted, ⟨c, rfl, hc, hahead⟩ | ⟨rfl, -⟩⟩ :=
      charWhere_spec accepts description s
    · obtain ⟨hvalue, rfl⟩ := Prod.mk.inj (ht.symm.trans hrun)
      obtain rfl := Option.some.inj hvalue
      exact ⟨_, hahead ▸ he.matched _ hc, ⟨rfl, hc⟩, hnoted⟩
    · nomatch ht.symm.trans hrun
  failed {s s'} _ hrun := by
    obtain ⟨a, t, ht, hnoted, ⟨c, rfl, -⟩ | ⟨-, -, hother⟩⟩ := charWhere_spec accepts description s
    · nomatch ht.symm.trans hrun
    · obtain ⟨-, rfl⟩ := Prod.mk.inj (ht.symm.trans hrun)
      refine ⟨?_, hnoted⟩
      cases hahead : s.ahead with
      | nil => exact he.atEnd
      | cons c rest => exact he.other _ (hother c rest hahead)

namespace Singles

variable {accepts accepts' : Char → Bool}

theorem char (accepts : Char → Bool) : Singles (.char accepts) accepts :=
  ⟨fun _ => .char, fun _ => .charOther, .charEnd⟩

theorem text (c : Char) : Singles (.chars [c]) (· == c) where
  matched _ hc := .seq (.char (p := (· == c)) hc) .empty
  other _ hc := .seqFirst (.charOther (p := (· == c)) hc)
  atEnd := .seqFirst .charEnd

theorem choice (he : Singles e accepts) (hf : Singles f accepts') :
    Singles (.choice e f) fun c => accepts c || accepts' c where
  matched {c} cs hc := by
    cases hfirst : accepts c with
    | true => exact .choiceFirst (he.matched cs hfirst)
    | false =>
      rw [hfirst, Bool.false_or] at hc
      exact .choiceSecond (he.other cs hfirst) (hf.matched cs hc)
  other {c} cs hc := by
    obtain ⟨hfirst, hsecond⟩ := Bool.or_eq_false_iff.mp hc
    exact .choiceSecond (he.other cs hfirst) (hf.other cs hsecond)
  atEnd := .choiceSecond he.atEnd hf.atEnd

/-- Any character that another expression does not match. -/
theorem anyBut (he : Singles e accepts) : Singles (.seq (.absent e) .any) fun c => !accepts c where
  matched {c} cs hc :=
    .seq (.absent (he.other cs (by simpa using hc))) (.char rfl)
  other {c} cs hc := .seqFirst (.absentFails (he.matched cs (by simpa using hc)))
  atEnd := .seqSecond (.absent he.atEnd) .charEnd

theorem any : Singles .any fun _ => true := char _

theorem begins (he : Singles e accepts) : Begins production e (accepts · = true) := by
  intro cs ts rest hd
  cases cs with
  | nil => nomatch he.atEnd.unique hd
  | cons c cs =>
    cases hc : accepts c with
    | true =>
      cases (he.matched cs hc).unique hd
      exact ⟨c, _, rfl, hc, Nat.le_refl _⟩
    | false => nomatch (he.other cs hc).unique hd

theorem congr (he : Singles e accepts) (h : ∀ c, accepts c = accepts' c) : Singles e accepts' :=
  funext h ▸ he

end Singles

end

end Notation

end Packrat
