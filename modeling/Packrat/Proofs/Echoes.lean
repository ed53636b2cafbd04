import Packrat.Proofs.Passage

/-!
# Readers side by side

Two texts that agree for a while are read in the same way for a while. `Echoes` says this of two
readers, one in each text: from places that are related by `A`, the second reader does what the
first one does, with a result that is related to its by `V`, and gets to a place that is related by
`B`. A place is told by what lies ahead of it, so `A` and `B` relate what lies ahead.

Where the first text is at its end, the second one may go on, and then the readers may part. They
may do so where `F` holds of the text in front of a failure of the first reader, or `N` of the rest
behind its match; a stray like this has to be excluded by what comes next. Readers without strays
are put together by `next`, `or`, `option` and `repeated`, the others by `bind`, `orElse` and
`many`.

## Main results

* `Echoes.bind`, `Echoes.orElse`, `Echoes.many`: the rules for readers put together
* `Echoes.still`: the rule for a reader that notes where it begins
-/

namespace Packrat

/-- Readers at places of two texts, with an inverted range noted by both or by neither. -/
structure ReaderState.SideBySide (text text' : List Char) (s s' : ReaderState) : Prop where
  source : s.state.cursor.Within false text
  target : s'.state.cursor.Within false text'
  noted : s'.noted = s.noted

theorem ReaderState.SideBySide.suspend {text text' : List Char} {s s' : ReaderState}
    (h : s.SideBySide text text' s') :
    SideBySide text text' { s with state := s.state.suspend }
      { s' with state := s'.state.suspend } :=
  ⟨h.source, h.target, h.noted⟩

namespace Reader

open Notation (FailsInPlace Still Nowhere)

variable {α β : Type} {text text' : List Char} {A A' B B' M : List Char → List Char → Prop}
  {F F' G N N' K : List Char → Prop} {V : α → α → Prop} {W : β → β → Prop} {p p' q q' : Reader α}

/-- The reader fails and leaves no note. -/
def Declines (p : Reader α) (s : ReaderState) : Prop := ∃ t, p s = (none, t) ∧ t.noted = s.noted

theorem Declines.bind {s : ReaderState} (h : p.Declines s) (f : α → Reader β) :
    (p >>= f).Declines s := by
  obtain ⟨t, hp, hnoted⟩ := h
  exact ⟨t, bind_apply_of_none hp f, hnoted⟩

theorem Declines.attempt {s : ReaderState} (h : p.Declines s) : (Reader.attempt p).Declines s := by
  obtain ⟨t, hp, hnoted⟩ := h
  exact ⟨{ t with state := t.state.moveTo s.state.cursor }, by rw [Reader.attempt, hp], hnoted⟩

/-- An attempt that fails is where it began. -/
theorem cursor_of_attempt {s t : ReaderState} (h : Reader.attempt p s = (none, t)) :
    t.state.cursor = s.state.cursor := by
  rw [Reader.attempt] at h
  split at h
  · cases h
  · obtain ⟨-, rfl⟩ := Prod.mk.inj h
    rfl

/-- From places related by `A` the second reader does what the first one does, but for strays. -/
structure Echoes (text text' : List Char) (A B : List Char → List Char → Prop)
    (F N : List Char → Prop) (V : α → α → Prop) (p p' : Reader α) : Prop where
  matched {s s' t : ReaderState} {a : α} : s.SideBySide text text' s' → A s.ahead s'.ahead →
    p s = (some a, t) → N t.ahead ∨ ∃ a' t', p' s' = (some a', t') ∧ V a a' ∧
      t.SideBySide text text' t' ∧ B t.ahead t'.ahead
  failed {s s' t : ReaderState} : s.SideBySide text text' s' → A s.ahead s'.ahead →
    p s = (none, t) → F s.ahead ∨ ∃ t', p' s' = (none, t') ∧ t.SideBySide text text' t'

namespace Echoes

theorem mono (h : Echoes text text' A B F N V p p') (hA : ∀ {cs cs'}, A' cs cs' → A cs cs')
    (hB : ∀ {cs cs'}, B cs cs' → B' cs cs') : Echoes text text' A' B' F N V p p' where
  matched hs ha hp := by
    rcases h.matched hs (hA ha) hp with hn | ⟨a', t', hp', hv, ht, hb⟩
    · exact .inl hn
    · exact .inr ⟨a', t', hp', hv, ht, hB hb⟩
  failed hs ha hp := h.failed hs (hA ha) hp

/-- There may be more strays than there are. -/
theorem stray (h : Echoes text text' A B F' N' V p p') (hF : ∀ {cs cs'}, A cs cs' → F' cs → F cs)
    (hN : ∀ {cs}, N' cs → N cs) : Echoes text text' A B F N V p p' where
  matched hs ha hp := (h.matched hs ha hp).imp_left hN
  failed hs ha hp := (h.failed hs ha hp).imp_left (hF ha)

/-- Without strays there are none of any kind. -/
theorem clean (h : Echoes text text' A B Nowhere Nowhere V p p') :
    Echoes text text' A B F N V p p' :=
  h.stray (fun _ => False.elim) False.elim

theorem value {V' : α → α → Prop} (h : Echoes text text' A B F N V p p')
    (hV : ∀ {a a'}, V a a' → V' a a') : Echoes text text' A B F N V' p p' where
  matched hs ha hp := by
    rcases h.matched hs ha hp with hn | ⟨a', t', hp', hv, ht, hb⟩
    · exact .inl hn
    · exact .inr ⟨a', t', hp', hV hv, ht, hb⟩
  failed := h.failed

theorem pure {a a' : α} (hV : V a a') (hAB : ∀ {cs cs'}, A cs cs' → B cs cs') :
    Echoes text text' A B F N V (pure a) (pure a') where
  matched {s s' t b} hs ha hp := by
    obtain ⟨hab, rfl⟩ := Prod.mk.inj hp
    obtain rfl := Option.some.inj hab
    exact .inr ⟨a', s', rfl, hV, hs, hAB ha⟩
  failed _ _ hp := nomatch hp

theorem fail : Echoes text text' A B F N V fail Reader.fail where
  matched _ _ hp := nomatch hp
  failed {s s' t} hs _ hp := by
    obtain ⟨-, rfl⟩ := Prod.mk.inj hp
    exact .inr ⟨s', rfl, hs⟩

/-! ### One behind the other -/

/-- A stray of the first reader has to be one of both, wherever the second reader gets to. -/
theorem bind {f f' : α → Reader β} (h : Echoes text text' A M F' N' V p p')
    (hf : ∀ {a a'}, V a a' → Echoes text text' M B G K W (f a) (f' a'))
    (hfirst : ∀ {cs}, F' cs → F cs)
    (hback : ∀ {s t u : ReaderState} {a : α}, p s = (some a, t) → N' t.ahead ∨ G t.ahead →
      f a t = (none, u) → F s.ahead)
    (hmid : ∀ {t u : ReaderState} {a : α} {b : β}, N' t.ahead → f a t = (some b, u) → N u.ahead)
    (hrest : ∀ {cs}, K cs → N cs) : Echoes text text' A B F N W (p >>= f) (p' >>= f') where
  matched {s s' u b} hs ha hrun := by
    rw [bind_apply] at hrun
    split at hrun
    · next a t hp =>
      rcases h.matched hs ha hp with hn | ⟨a', t', hp', hv, ht, hm⟩
      · exact .inl (hmid hn hrun)
      · rw [bind_apply_of_some hp']
        exact ((hf hv).matched ht hm hrun).imp_left hrest
    · cases hrun
  failed {s s' u} hs ha hrun := by
    rw [bind_apply] at hrun
    split at hrun
    · next a t hp =>
      rcases h.matched hs ha hp with hn | ⟨a', t', hp', hv, ht, hm⟩
      · exact .inl (hback hp (.inl hn) hrun)
      · rw [bind_apply_of_some hp']
        exact ((hf hv).failed ht hm hrun).imp_left fun hF => hback hp (.inr hF) hrun
    · next t hp =>
      obtain ⟨-, rfl⟩ := Prod.mk.inj hrun
      rcases h.failed hs ha hp with hF | ⟨t', hp', ht⟩
      · exact .inl (hfirst hF)
      · exact .inr ⟨t', bind_apply_of_none hp' f', ht⟩

/-- The first reader has no strays. -/
theorem lead {f f' : α → Reader β} (h : Echoes text text' A M Nowhere Nowhere V p p')
    (hf : ∀ {a a'}, V a a' → Echoes text text' M B G N W (f a) (f' a'))
    (hback : ∀ {s t : ReaderState} {a : α}, p s = (some a, t) → G t.ahead → F s.ahead) :
    Echoes text text' A B F N W (p >>= f) (p' >>= f') :=
  h.bind hf False.elim (fun hp hF _ => hback hp (hF.resolve_left id)) False.elim id

/-- Neither reader has strays. -/
theorem next {f f' : α → Reader β} (h : Echoes text text' A M Nowhere Nowhere V p p')
    (hf : ∀ {a a'}, V a a' → Echoes text text' M B Nowhere N W (f a) (f' a')) :
    Echoes text text' A B Nowhere N W (p >>= f) (p' >>= f') := h.lead hf fun _ => id

/-- What moves on no further leaves the strays that there are. -/
theorem thenStill {f f' : α → Reader β} (h : Echoes text text' A M F N V p p')
    (hstill : ∀ a, Still (f a))
    (hf : ∀ {a a'}, V a a' → Echoes text text' M B Nowhere Nowhere W (f a) (f' a')) :
    Echoes text text' A B F N W (p >>= f) (p' >>= f') := by
  refine h.bind hf id (fun _ _ hrun => absurd hrun ((hstill _).ne_none _ _)) ?_ False.elim
  intro t u a b hn hrun
  obtain ⟨b', hb⟩ := hstill a t
  obtain ⟨-, rfl⟩ := Prod.mk.inj (hb.symm.trans hrun)
  exact hn

theorem map {g g' : α → β} (h : Echoes text text' A B F N V p p')
    (hW : ∀ {a a'}, V a a' → W (g a) (g' a')) :
    Echoes text text' A B F N W (p >>= fun a => Pure.pure (g a))
      (p' >>= fun a => Pure.pure (g' a)) :=
  h.thenStill (fun _ => Notation.still_pure _) fun hv => .pure (hW hv) id

/-- The second reader may depend on where it begins. -/
theorem still {f f' : Cursor → Reader β}
    (hf : ∀ {c c' : Cursor}, c.Within false text → c'.Within false text' → A c.ahead c'.ahead →
      Echoes text text' (fun cs cs' => cs = c.ahead ∧ cs' = c'.ahead) B F N W (f c) (f' c')) :
    Echoes text text' A B F N W (cursor >>= f) (cursor >>= f') where
  matched hs ha hrun := (hf hs.source hs.target ha).matched hs ⟨rfl, rfl⟩ hrun
  failed hs ha hrun := (hf hs.source hs.target ha).failed hs ⟨rfl, rfl⟩ hrun

/-- Where they begin, the readers may note the place. -/
theorem begun {f f' : Cursor → Reader β}
    (hf : ∀ {c c' : Cursor}, c.Within false text → c'.Within false text' → A c.ahead c'.ahead →
      Echoes text text' A B F N W (f c) (f' c')) :
    Echoes text text' A B F N W (cursor >>= f) (cursor >>= f') :=
  .still fun hc hc' ha => (hf hc hc' ha).mono (fun h => h.1 ▸ h.2 ▸ ha) id

/-! ### One or the other -/

/-- Where the first reader fails as a stray, the second one has to be a stray as well. -/
theorem orElse (hp : Echoes text text' A B F' N' V p p') (hplace : FailsInPlace p)
    (hplace' : FailsInPlace p') (hq : Echoes text text' A B G K V q q')
    (hfirst : ∀ {cs}, N' cs → N cs) (hrest : ∀ {cs}, K cs → N cs)
    (hother : ∀ {t u : ReaderState} {a : α}, F' t.ahead → q t = (some a, u) → N u.ahead)
    (hneither : ∀ {t u : ReaderState}, F' t.ahead → q t = (none, u) → F t.ahead)
    (hsecond : ∀ {cs}, G cs → F cs) : Echoes text text' A B F N V (p <|> q) (p' <|> q') where
  matched {s s' u a} hs ha hrun := by
    change Reader.orElse p (fun _ => q) s = _ at hrun
    change _ ∨ ∃ a' t', Reader.orElse p' (fun _ => q') s' = _ ∧ _
    rw [Reader.orElse] at hrun ⊢
    split at hrun
    · next b t hps =>
      obtain ⟨hab, rfl⟩ := Prod.mk.inj hrun
      obtain rfl := Option.some.inj hab
      rcases hp.matched hs ha hps with hn | ⟨a', t', hps', hv, ht, hb⟩
      · exact .inl (hfirst hn)
      · rw [hps']
        exact .inr ⟨a', t', rfl, hv, ht, hb⟩
    · next t hps =>
      have hahead := hplace _ _ hps
      rcases hp.failed hs ha hps with hF | ⟨t', hps', ht⟩
      · exact .inl (hother (hahead ▸ hF) hrun)
      · have hat : A t.ahead t'.ahead := by rwa [hahead, hplace' _ _ hps']
        rw [hps']
        exact (hq.matched ht hat hrun).imp_left hrest
  failed {s s' u} hs ha hrun := by
    change Reader.orElse p (fun _ => q) s = _ at hrun
    change _ ∨ ∃ t', Reader.orElse p' (fun _ => q') s' = _ ∧ _
    rw [Reader.orElse] at hrun ⊢
    split at hrun
    · cases hrun
    · next t hps =>
      have hahead := hplace _ _ hps
      rcases hp.failed hs ha hps with hF | ⟨t', hps', ht⟩
      · exact .inl (hahead ▸ hneither (hahead ▸ hF) hrun)
      · have hat : A t.ahead t'.ahead := by rwa [hahead, hplace' _ _ hps']
        rw [hps']
        exact (hq.failed ht hat hrun).imp_left fun hF => hahead ▸ hsecond hF

/-- The first reader has no strays. -/
theorem or (hp : Echoes text text' A B Nowhere Nowhere V p p') (hplace : FailsInPlace p)
    (hplace' : FailsInPlace p') (hq : Echoes text text' A B F N V q q') :
    Echoes text text' A B F N V (p <|> q) (p' <|> q') :=
  hp.orElse hplace hplace' hq False.elim id (fun hF _ => hF.elim) (fun hF _ => hF.elim) id

/-! ### Wrappers -/

theorem attempt (h : Echoes text text' A B F N V p p') :
    Echoes text text' A B F N V (attempt p) (Reader.attempt p') where
  matched {s s' t a} hs ha hrun := by
    rw [Reader.attempt] at hrun
    split at hrun
    · next b t hp =>
      obtain ⟨hab, rfl⟩ := Prod.mk.inj hrun
      obtain rfl := Option.some.inj hab
      refine (h.matched hs ha hp).imp_right ?_
      rintro ⟨a', t', hp', hv, ht, hb⟩
      exact ⟨a', t', by rw [Reader.attempt, hp'], hv, ht, hb⟩
    · cases hrun
  failed {s s' t} hs ha hrun := by
    rw [Reader.attempt] at hrun
    split at hrun
    · cases hrun
    · next t hp =>
      obtain ⟨-, rfl⟩ := Prod.mk.inj hrun
      refine (h.failed hs ha hp).imp_right ?_
      rintro ⟨t', hp', ht⟩
      exact ⟨{ t' with state := t'.state.moveTo s'.state.cursor }, by rw [Reader.attempt, hp'],
        hs.source, hs.target, ht.noted⟩

/-- At the end of the first text both attempts fail, whatever the second one has ahead. -/
theorem attemptBeforeEnd (h : Echoes text text' (fun cs cs' => A cs cs' ∧ cs ≠ []) B F N V p p')
    (hend : ∀ {s : ReaderState}, s.ahead = [] → (Reader.attempt p).Declines s)
    (hend' : ∀ {s : ReaderState}, A [] s.ahead → (Reader.attempt p').Declines s) :
    Echoes text text' A B F N V (Reader.attempt p) (Reader.attempt p') where
  matched {s s' t a} hs ha hrun := by
    refine h.attempt.matched hs ⟨ha, fun hnil => ?_⟩ hrun
    obtain ⟨t', ht, -⟩ := hend hnil
    nomatch ht.symm.trans hrun
  failed {s s' t} hs ha hrun := by
    by_cases hnil : s.ahead = []
    · obtain ⟨t₁, ht, hnoted⟩ := hend hnil
      obtain ⟨-, rfl⟩ := Prod.mk.inj (ht.symm.trans hrun)
      obtain ⟨t', ht', hnoted'⟩ := hend' (hnil ▸ ha)
      refine .inr ⟨t', ht', ?_, ?_, hnoted'.trans (hs.noted.trans hnoted.symm)⟩
      · exact (cursor_of_attempt ht).symm ▸ hs.source
      · exact (cursor_of_attempt ht').symm ▸ hs.target
    · exact h.attempt.failed hs ⟨ha, hnil⟩ hrun

theorem quietly (h : Echoes text text' A B F N V p p') :
    Echoes text text' A B F N V (quietly p) (Reader.quietly p') where
  matched {s s' t a} hs ha hrun := by
    rw [Reader.quietly] at hrun
    cases hp : p { s with state := s.state.suspend } with
    | mk o t =>
      rw [hp] at hrun
      obtain ⟨rfl, rfl⟩ := Prod.mk.inj hrun
      rcases h.matched hs.suspend ha hp with hn | ⟨a', t', hp', hv, ht, hb⟩
      · exact .inl hn
      · refine .inr ⟨a', { t' with state := t'.state.resume }, ?_, hv, ?_, hb⟩
        · rw [Reader.quietly, hp']
        · exact ⟨ht.source, ht.target, ht.noted⟩
  failed {s s' t} hs ha hrun := by
    rw [Reader.quietly] at hrun
    cases hp : p { s with state := s.state.suspend } with
    | mk o t =>
      rw [hp] at hrun
      obtain ⟨rfl, rfl⟩ := Prod.mk.inj hrun
      rcases h.failed hs.suspend ha hp with hF | ⟨t', hp', ht⟩
      · exact .inl hF
      · refine .inr ⟨{ t' with state := t'.state.resume }, ?_, ?_⟩
        · rw [Reader.quietly, hp']
        · exact ⟨ht.source, ht.target, ht.noted⟩

theorem named (h : Echoes text text' A B F N V p p') (name : String) :
    Echoes text text' A B F N V (named name p) (Reader.named name p') where
  matched {s s' t a} hs ha hrun := by
    rw [Reader.named] at hrun
    split at hrun
    · next b t hp =>
      obtain ⟨hab, rfl⟩ := Prod.mk.inj hrun
      obtain rfl := Option.some.inj hab
      refine (h.attempt.quietly.matched hs ha hp).imp_right ?_
      rintro ⟨a', t', hp', hv, ht, hb⟩
      exact ⟨a', t', by rw [Reader.named, hp'], hv, ht, hb⟩
    · cases hrun
  failed {s s' t} hs ha hrun := by
    rw [Reader.named] at hrun
    split at hrun
    · cases hrun
    · next t hp =>
      obtain ⟨-, rfl⟩ := Prod.mk.inj hrun
      refine (h.attempt.quietly.failed hs ha hp).imp_right ?_
      rintro ⟨t', hp', ht⟩
      refine ⟨{ t' with state := t'.state.fail name }, by rw [Reader.named, hp'], ?_, ?_, ht.noted⟩
      · exact (State.cursor_failAt t.state _ name).symm ▸ ht.source
      · exact (State.cursor_failAt t'.state _ name).symm ▸ ht.target

/-- A lookahead comes to the same answer in both texts. -/
theorem peek (h : Echoes text text' A B Nowhere Nowhere V p p') :
    Echoes text text' A A F N Eq (peek p) (Reader.peek p') where
  matched {s s' t answer} hs ha hrun := by
    cases hp : Reader.quietly p s with
    | mk o t =>
      rw [Reader.peek, hp] at hrun
      obtain ⟨hanswer, rfl⟩ := Prod.mk.inj hrun
      obtain rfl := Option.some.inj hanswer
      have hback : ∀ {o' t'}, Reader.quietly p' s' = (o', t') → o'.isSome = o.isSome →
          t'.noted = t.noted → ∃ answer' u', Reader.peek p' s' = (some answer', u') ∧
            o.isSome = answer' ∧
            ReaderState.SideBySide text text' { t with state := t.state.moveTo s.state.cursor } u' ∧
            A s.ahead u'.ahead := fun {o' t'} hp' hsome hnoted => by
        refine ⟨o'.isSome, { t' with state := t'.state.moveTo s'.state.cursor }, ?_, hsome.symm,
          ⟨hs.source, hs.target, hnoted⟩, ha⟩
        rw [Reader.peek, hp']
      cases o with
      | some a =>
        rcases h.quietly.matched hs ha hp with hn | ⟨a', t', hp', -, ht, -⟩
        · exact hn.elim
        · exact .inr (hback hp' rfl ht.noted)
      | none =>
        rcases h.quietly.failed hs ha hp with hF | ⟨t', hp', ht⟩
        · exact hF.elim
        · exact .inr (hback hp' rfl ht.noted)
  failed _ _ hrun := nomatch hrun

/-! ### What may be missing -/

theorem option (h : Echoes text text' A B Nowhere Nowhere V p p') (hplace : FailsInPlace p)
    (hplace' : FailsInPlace p') (hAB : ∀ {cs cs'}, A cs cs' → B cs cs') :
    Echoes text text' A B F N (Option.Rel V) (option p) (Reader.option p') where
  matched {s s' t o} hs ha hrun := by
    cases hp : p s with
    | mk o t =>
      rw [Reader.option, hp] at hrun
      obtain ⟨ho, rfl⟩ := Prod.mk.inj hrun
      obtain rfl := Option.some.inj ho
      cases o with
      | some a =>
        rcases h.matched hs ha hp with hn | ⟨a', t', hp', hv, ht, hb⟩
        · exact hn.elim
        · exact .inr ⟨some a', t', by rw [Reader.option, hp'], .some hv, ht, hb⟩
      | none =>
        rcases h.failed hs ha hp with hF | ⟨t', hp', ht⟩
        · exact hF.elim
        · refine .inr ⟨none, t', by rw [Reader.option, hp'], .none, ht, ?_⟩
          rw [hplace _ _ hp, hplace' _ _ hp']
          exact hAB ha
  failed _ _ hrun := nomatch hrun

theorem succeeds (h : Echoes text text' A B Nowhere Nowhere V p p') (hplace : FailsInPlace p)
    (hplace' : FailsInPlace p') (hAB : ∀ {cs cs'}, A cs cs' → B cs cs') :
    Echoes text text' A B Nowhere Nowhere Eq (succeeds p) (Reader.succeeds p') := by
  rw [Notation.succeeds_eq, Notation.succeeds_eq]
  refine (h.option hplace hplace' hAB).next fun ho => .pure ?_ id
  cases ho with
  | some _ => rfl
  | none => rfl

/-! ### Repetition -/

section

variable (h : Echoes text text' A A F' N' V p p') (hplace : FailsInPlace p)
  (hplace' : FailsInPlace p')
  (hshorter : ∀ {s t : ReaderState} {a : α} {cs : List Char}, A s.ahead cs → p s = (some a, t) →
    t.ahead.length < s.ahead.length)
  (hshorter' : ∀ {s t : ReaderState} {a : α} {cs : List Char}, A cs s.ahead → p' s = (some a, t) →
    t.ahead.length < s.ahead.length)
  (hlast : ∀ {cs}, F' cs → N cs)
  (hmore : ∀ {s : ReaderState} {bound : Nat}, N' s.ahead → s.ahead.length < bound →
    N (Reader.collect p bound s).2.ahead)

include h hplace hplace' hshorter hshorter' hlast hmore

/-- Every match takes a character at least, so no bound beyond the text is ever met. -/
theorem collect {bound bound' : Nat} {s s' : ReaderState} (hs : s.SideBySide text text' s')
    (ha : A s.ahead s'.ahead) (hbound : s.ahead.length < bound)
    (hbound' : s'.ahead.length < bound') :
    N (Reader.collect p bound s).2.ahead ∨
      List.Forall₂ V (Reader.collect p bound s).1 (Reader.collect p' bound' s').1 ∧
      (Reader.collect p bound s).2.SideBySide text text' (Reader.collect p' bound' s').2 ∧
      A (Reader.collect p bound s).2.ahead (Reader.collect p' bound' s').2.ahead := by
  induction bound generalizing bound' s s' with
  | zero => nomatch hbound
  | succ bound ih =>
    obtain ⟨bound', rfl⟩ := Nat.exists_eq_succ_of_ne_zero (Nat.ne_zero_of_lt hbound')
    rw [Reader.collect, Reader.collect]
    cases hp : p s with
    | mk o t =>
      cases o with
      | none =>
        rcases h.failed hs ha hp with hF | ⟨t', hp', ht⟩
        · refine .inl ?_
          dsimp only
          rw [hplace _ _ hp]
          exact hlast hF
        · rw [hp']
          refine .inr ⟨.nil, ht, ?_⟩
          dsimp only
          rwa [hplace _ _ hp, hplace' _ _ hp']
      | some a =>
        have hlt := Nat.lt_of_lt_of_le (hshorter ha hp) (Nat.le_of_lt_succ hbound)
        rcases h.matched hs ha hp with hn | ⟨a', t', hp', hv, ht, hat⟩
        · exact .inl (hmore hn hlt)
        · have hlt' := Nat.lt_of_lt_of_le (hshorter' ha hp') (Nat.le_of_lt_succ hbound')
          rw [hp']
          rcases ih ht hat hlt hlt' with hn | ⟨hvs, hu, hau⟩
          · exact .inl hn
          · exact .inr ⟨.cons hv hvs, hu, hau⟩

theorem many : Echoes text text' A A F N (List.Forall₂ V) (Reader.many p) (Reader.many p') where
  matched {s s' t as} hs ha hrun := by
    obtain ⟨has, rfl⟩ := Prod.mk.inj ((many_apply p s).symm.trans hrun)
    obtain rfl := Option.some.inj has
    refine (h.collect hplace hplace' hshorter hshorter' hlast hmore hs ha (Nat.lt_succ_self _)
      (Nat.lt_succ_self _)).imp_right ?_
    rintro ⟨hvs, ht, hat⟩
    exact ⟨_, _, many_apply p' s', hvs, ht, hat⟩
  failed _ _ hrun := nomatch hrun

end

/-- What is repeated has no strays. -/
theorem repeated (h : Echoes text text' A A Nowhere Nowhere V p p') (hplace : FailsInPlace p)
    (hplace' : FailsInPlace p')
    (hshorter : ∀ {s t : ReaderState} {a : α} {cs : List Char}, A s.ahead cs → p s = (some a, t) →
      t.ahead.length < s.ahead.length)
    (hshorter' : ∀ {s t : ReaderState} {a : α} {cs : List Char}, A cs s.ahead → p' s = (some a, t) →
      t.ahead.length < s.ahead.length) :
    Echoes text text' A A F N (List.Forall₂ V) (Reader.many p) (Reader.many p') :=
  h.many hplace hplace' hshorter hshorter' False.elim fun hn _ => hn.elim

end Echoes

end Reader

end Packrat
