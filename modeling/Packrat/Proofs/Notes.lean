import Packrat.Proofs.Lexicon

/-!
# Notes of inverted ranges

An inverted range is noted where it is read, and the note stays when the branch that read it is
given up. It would refuse a text that is valid without that branch, so it matters where a branch
with a class in it can be given up.

`noting F N` says for a reader that a note behind it is one from before, one of a range that was
matched, or a stray one; a stray note is left by a failure only in front of a text with `F`, and by
a match only if the rest has `N`. The readers of the notation keep `F` and `N` to texts that begin
with certain characters (`Ahead`), and in front of those nothing that comes next can match.

## Main results

* `Report.Seq.lexical`, `Report.Seq.notes`, `Report.Choice.notes`, `Report.Many.notes`: how stray
  notes spread through readers put together
* `reads_charClass`: a class that is not closed leaves its stray notes in front of its bracket
-/

namespace Packrat.Notation

open Peg ParseTree Reader

variable {n : Nat} {α β : Type} {p : Reader α} {q : α → Reader β} {e f : Peg Symbol}
  {V : α → List (ParseTree Symbol) → Prop} {F F₁ F₂ N N₁ N₂ : List Char → Prop}

/-! ### Where a note comes from -/

/-- Every note behind is one from before, one of a range that was matched, or a stray one. -/
structure Noted (before : Bool) (range stray : Prop) (after : Bool) : Prop where
  kept : before = true → after = true
  left : range → after = true
  origin : after = true → before = true ∨ range ∨ stray

namespace Noted

variable {b c d : Bool} {range range' stray stray' : Prop}

theorem same (hrange : ¬ range) : Noted b range stray b :=
  ⟨id, fun h => absurd h hrange, .inl⟩

theorem mono (h : Noted b range stray c) (hrange : range ↔ range') (hstray : stray → stray') :
    Noted b range' stray' c where
  kept := h.kept
  left hr := h.left (hrange.mpr hr)
  origin hc := (h.origin hc).imp_right (Or.imp hrange.mp hstray)

/-- Without a range or a stray note, none is added. -/
theorem unchanged (h : Noted b range stray c) (hrange : ¬ range) (hstray : ¬ stray) : c = b := by
  rw [Bool.eq_iff_iff]
  exact ⟨fun hc => (h.origin hc).resolve_right (not_or.mpr ⟨hrange, hstray⟩), h.kept⟩

theorem or {condition : Prop} [Decidable condition] (h : range ↔ condition) :
    Noted b range stray (b || decide condition) where
  kept hb := by rw [hb, Bool.true_or]
  left hr := by rw [decide_eq_true (h.mp hr), Bool.or_true]
  origin hc := by
    rcases (Bool.or_eq_true ..).mp hc with hb | hd
    · exact .inl hb
    · exact .inr (.inl (h.mpr (of_decide_eq_true hd)))

theorem trans (h : Noted b range stray c) (h' : Noted c range' stray' d) :
    Noted b (range ∨ range') (stray ∨ stray') d where
  kept hb := h'.kept (h.kept hb)
  left hr := hr.elim (fun hr => h'.kept (h.left hr)) h'.left
  origin hd := by
    rcases h'.origin hd with hc | hr | hs
    · rcases h.origin hc with hb | hr | hs
      · exact .inl hb
      · exact .inr (.inl (.inl hr))
      · exact .inr (.inr (.inl hs))
    · exact .inr (.inl (.inr hr))
    · exact .inr (.inr (.inr hs))

end Noted

/-- A failure leaves a stray note at most where `F` holds of the text, a match where `N` holds of
the rest. -/
def noting (F N : List Char → Prop) : Report where
  matched before _ ts rest after := Noted before (Inverted ts) (N rest) after
  failed before cs after := Noted before False (F cs) after

/-- No text. -/
abbrev Nowhere : List Char → Prop := fun _ => False

/-- Any text. -/
abbrev Anywhere : List Char → Prop := fun _ => True

/-- Texts that begin with one of the characters. -/
def Ahead (heads : List Char) (cs : List Char) : Prop := ∃ c ∈ heads, ∃ rest, cs = c :: rest

theorem Ahead.mono {heads heads' cs : List Char} (h : Ahead heads cs) (hsub : heads ⊆ heads') :
    Ahead heads' cs :=
  let ⟨c, hc, hcs⟩ := h
  ⟨c, hsub hc, hcs⟩

theorem Ahead.of_begins {c : Char} (h : Begins production e (· = c)) {cs rest : List Char}
    {ts : List (ParseTree Symbol)} (hd : Derives production e cs (some (ts, rest))) :
    Ahead [c] cs := by
  obtain ⟨_, cs', rfl, rfl, -⟩ := h cs ts rest hd
  exact ⟨_, List.mem_singleton.mpr rfl, cs', rfl⟩

section

variable {heads cs rest : List Char} {ts : List (ParseTree Symbol)} {S : Char → Prop}
  [DecidablePred S]

/-- What begins otherwise does not match. -/
theorem Ahead.not_derives (h : Ahead heads cs) (hb : Begins production e S)
    (hheads : heads.all (fun c => !decide (S c)) = true) :
    ¬ Derives production e cs (some (ts, rest)) := by
  obtain ⟨c, hc, cs', rfl⟩ := h
  have hother := List.all_eq_true.mp hheads c hc
  exact hb.not_derives (of_decide_eq_false (Bool.not_eq_true' _ |>.mp hother))

/-- What may be missing leaves a text alone that begins otherwise. -/
theorem Ahead.opt (h : Ahead heads cs) (hb : Begins production e S)
    (hheads : heads.all (fun c => !decide (S c)) = true)
    (hd : Derives production (opt e) cs (some (ts, rest))) : Ahead heads rest := by
  cases hd with
  | choiceFirst hd => exact absurd hd (h.not_derives hb hheads)
  | choiceSecond _ hd =>
    cases hd
    exact h

/-- A repetition does not take up a text that begins otherwise. -/
theorem Ahead.many (h : Ahead heads cs) (hb : Begins production e S)
    (hheads : heads.all (fun c => !decide (S c)) = true)
    (hd : Derives production (many e) cs (some (ts, rest))) : Ahead heads rest := by
  cases hd with
  | manyEnd _ => exact h
  | manyMore hd _ => exact absurd hd (h.not_derives hb hheads)

end

/-! ### How stray notes spread -/

/-- Lexemes leave no notes. -/
theorem Reads.lexical (h : Reads n p e V silent) (he : Lexical e) :
    Reads n p e V (noting Nowhere Nowhere) where
  matched hn hrun := by
    obtain ⟨ts, hd, hv, hr⟩ := h.matched hn hrun
    exact ⟨ts, hd, hv, hr ▸ .same (not_inverted_of_lexical he hd)⟩
  failed hn hrun := by
    obtain ⟨hd, hr⟩ := h.failed hn hrun
    exact ⟨hd, hr ▸ .same id⟩

/-- Behind a lexeme, stray notes are those of what comes next. -/
theorem Report.Seq.lexical (he : Lexical e)
    (hback : ∀ {cs ts mid}, Derives production e cs (some (ts, mid)) → F₂ mid → F cs) :
    Report.Seq e f Notation.silent (noting F₂ N) (noting F N) where
  matched hd hc hd' h' := by
    subst hc
    refine h'.mono ?_ id
    rw [inverted_append]
    exact (or_iff_right (not_inverted_of_lexical he hd)).symm
  first hc := hc ▸ .same id
  second hd hc _ h' := by
    subst hc
    exact h'.mono .rfl (hback hd)

/-- A stray note of the first part has to be one of the whole, wherever the second part gets to. -/
theorem Report.Seq.notes (hfirst : ∀ {cs}, F₁ cs → F cs)
    (hback : ∀ {cs ts mid}, Derives production e cs (some (ts, mid)) →
      Derives production f mid none → F cs)
    (hmid : ∀ {mid us rest}, N₁ mid → Derives production f mid (some (us, rest)) → N rest)
    (hrest : ∀ {rest}, N₂ rest → N rest) :
    Report.Seq e f (noting F₁ N₁) (noting F₂ N₂) (noting F N) where
  matched _ h hd' h' := (h.trans h').mono inverted_append.symm (Or.rec (hmid · hd') hrest)
  first h := h.mono .rfl hfirst
  second hd h hd' h' := by
    have hF := hback hd hd'
    exact ⟨fun hb => h'.kept (h.kept hb), False.elim, fun _ => .inr (.inr hF)⟩

/-- A lexeme, and what comes next. -/
theorem Reads.lead (hp : Reads n p e V silent) (he : Lexical e)
    (hq : ∀ a, Reads n (q a) f anyValue (noting F N))
    (hback : ∀ {cs ts mid}, Derives production e cs (some (ts, mid)) → F mid → F₁ cs) :
    Reads n (p >>= q) (.seq e f) anyValue (noting F₁ N) :=
  (hp.behind hq (.lexical he hback)).any

/-- What has lexemes alone behind it. -/
theorem Reads.close (hp : Reads n p e V (noting F₁ N₁)) (hf : Lexical f)
    (hq : ∀ a, Reads n (q a) f anyValue silent) (hfirst : ∀ {cs}, F₁ cs → F cs)
    (hback : ∀ {cs ts mid}, Derives production e cs (some (ts, mid)) →
      Derives production f mid none → F cs)
    (hmid : ∀ {mid us rest}, N₁ mid → Derives production f mid (some (us, rest)) → N rest) :
    Reads n (p >>= q) (.seq e f) anyValue (noting F N) :=
  (hp.behind (fun a => (hq a).lexical hf) (.notes hfirst hback hmid False.elim)).any

/-- A stray note of a failed alternative has to be one of the whole, whatever the other one does. -/
theorem Report.Choice.notes (hfirst : ∀ {rest}, N₁ rest → N rest)
    (hrest : ∀ {rest}, N₂ rest → N rest)
    (hother : ∀ {cs ts rest}, F₁ cs → Derives production f cs (some (ts, rest)) → N rest)
    (hneither : ∀ {cs}, F₁ cs → Derives production f cs none → F cs)
    (hsecond : ∀ {cs}, F₂ cs → F cs) :
    Report.Choice e f (noting F₁ N₁) (noting F₂ N₂) (noting F N) where
  first h := h.mono .rfl hfirst
  second _ h hd h' := (h.trans h').mono (false_or _).to_iff (Or.rec (hother · hd) hrest)
  failed h hd h' := (h.trans h').mono (false_or _).to_iff (Or.rec (hneither · hd) hsecond)

/-- Another alternative to a lexeme has the stray notes that there are. -/
theorem Reads.besides {p' : Reader α} (hp : Reads n p e V silent) (he : Lexical e)
    (hplace : FailsInPlace p) (hp' : Reads n p' f V (noting F N)) :
    Reads n (p <|> p') (.choice e f) V (noting F N) :=
  (hp.lexical he).orElse hplace hp' (.notes False.elim id False.elim False.elim id)

/-- The failure that ends a repetition leaves its stray notes in front of the rest. -/
theorem Report.Many.notes (hlast : ∀ {cs}, F₁ cs → N cs)
    (hmore : ∀ {mid us rest}, N₁ mid → Derives production (many e) mid (some (us, rest)) → N rest) :
    Report.Many e (noting F₁ N₁) (noting Nowhere N) where
  last h := h.mono (iff_of_false id not_inverted_nil) hlast
  more h hd h' := (h.trans h').mono inverted_append.symm (Or.rec (hmore · hd) id)

/-- A nonterminal other than a range leaves the notes of its production. -/
theorem Reads.nonterminal {a : Symbol} (hp : Reads n p (production a) anyValue (noting F N))
    (ha : a ≠ .classRange) : Reads n p (.call a) anyValue (noting F N) :=
  hp.call (fun _ _ _ => trivial) (fun h => h.mono (inverted_node ha).symm id) id

/-! ### Classes -/

theorem reads_classCharacter : Reads n classMember (.call .classCharacter)
    (fun c ts => ∃ us, ts = [.node .classCharacter us] ∧ c = denoted (textAll us)) silent :=
  reads_classMember.call (fun _ ts hc => ⟨ts, rfl, hc⟩) id id

theorem begins_classCharacter : Begins production (call .classCharacter) fun _ => True :=
  Begins.call (((singles_plain ']').begins.mono fun _ _ => trivial).choice
    (begins_escape.mono fun _ _ => trivial))

/-- Whether the range is inverted is told by its ends. -/
def InvertedBy (ends : Char × Char) (ts : List (ParseTree Symbol)) : Prop :=
  Inverted ts ↔ ends.2 < ends.1

theorem inverted_rangeTree {us vs : List (ParseTree Symbol)}
    (hus : ¬ Inverted [.node .classCharacter us]) (hvs : ¬ Inverted [.node .classCharacter vs]) :
    Inverted [rangeTree us vs] ↔ denoted (textAll vs) < denoted (textAll us) := by
  constructor
  · rintro ⟨_, ht, first, last, hwithin, hlt⟩
    obtain rfl := List.mem_singleton.mp ht
    cases hwithin with
    | self => exact hlt
    | child hu hwithin =>
      rcases List.mem_cons.mp hu with rfl | hu
      · exact absurd ⟨_, List.mem_singleton.mpr rfl, first, last, hwithin, hlt⟩ hus
      rcases List.mem_cons.mp hu with rfl | hu
      · nomatch hwithin
      obtain rfl := List.mem_singleton.mp hu
      exact absurd ⟨_, List.mem_singleton.mpr rfl, first, last, hwithin, hlt⟩ hvs
  · exact fun hlt => ⟨_, List.mem_singleton.mpr rfl, us, vs, .self, hlt⟩

/-- A lexeme with its value, in which there are no ranges. -/
theorem Reads.rangeless (h : Reads n p e V silent) (he : Lexical e) :
    Reads n p e (fun a ts => V a ts ∧ ¬ Inverted ts) silent where
  matched hn hrun := by
    obtain ⟨ts, hd, hv, hr⟩ := h.matched hn hrun
    exact ⟨ts, hd, ⟨hv, not_inverted_of_lexical he hd⟩, hr⟩
  failed := h.failed

/-- The ends of a range. -/
def rangeEnds : Reader (Char × Char) := attempt do
  let first ← classMember
  Reader.text "-"
  return (first, ← classMember)

/-- A range with the note that it leaves if it is inverted. -/
def rangePart (begun : Cursor) (ends : Char × Char) : Reader ClassPart := do
  let part := ClassPart.range ends.1 ends.2
  if ends.2 < ends.1 then noteInverted (String.ofList (rawPart part)) (← spanSince begun)
  return part

theorem reads_rangeEnds : Reads n rangeEnds (.call .classRange) InvertedBy silent := by
  have hmember := (reads_classCharacter (n := n)).rangeless rfl
  have hlast : ∀ first : Char, Reads n (do return (first, ← classMember)) (.call .classCharacter)
      (fun ends ts => ends.1 = first ∧ ¬ Inverted ts ∧
        ∃ vs, ts = [.node .classCharacter vs] ∧ ends.2 = denoted (textAll vs)) silent :=
    fun first => hmember.map fun last ts hv => ⟨rfl, hv.2, hv.1⟩
  have hdash : ∀ first : Char, Reads n (do
      Reader.text "-"
      return (first, ← classMember)) (inOrder [text "-", call .classCharacter])
      (fun ends ts => ends.1 = first ∧ ∃ vs, ts = [.leaf '-', .node .classCharacter vs] ∧
        ¬ Inverted [.node .classCharacter vs] ∧ ends.2 = denoted (textAll vs)) silent := by
    intro first
    refine ((reads_text "-").behind (fun _ => hlast first) .silent).value ?_
    rintro ends _ ⟨-, _, _, rfl, rfl, hfirst, hvs, vs, rfl, hends⟩
    exact ⟨hfirst, vs, rfl, hvs, hends⟩
  refine ((hmember.behind hdash .silent).attempt).call ?_ id id
  rintro ends _ ⟨_, _, _, rfl, ⟨⟨us, rfl, rfl⟩, hus⟩, hfirst, vs, rfl, hvs, hends⟩
  rw [InvertedBy, hfirst, hends]
  exact inverted_rangeTree hus hvs

theorem rangePart_spec (begun : Cursor) (ends : Char × Char) (s : ReaderState) :
    ∃ s', rangePart begun ends s = (some (.range ends.1 ends.2), s') ∧ s'.ahead = s.ahead ∧
      s'.noted = (s.noted || decide (ends.2 < ends.1)) := by
  unfold rangePart
  by_cases hlt : ends.2 < ends.1
  · let note := (String.ofList (rawPart (.range ends.1 ends.2)),
      Span.between begun.offset s.state.cursor.offset)
    refine ⟨{ s with inverted := s.inverted.or (some note) }, ?_, rfl, ?_⟩
    · dsimp only
      rw [if_pos hlt]
      rfl
    · rw [decide_eq_true hlt, Bool.or_true]
      change (s.inverted.or (some note)).isSome = true
      rw [Option.isSome_or, Option.isSome_some, Bool.or_true]
  · refine ⟨s, ?_, rfl, ?_⟩
    · dsimp only
      rw [if_neg hlt]
      rfl
    · rw [decide_eq_false hlt, Bool.or_false]

theorem rangePart_ne_none (begun : Cursor) (ends : Char × Char) (s s' : ReaderState) :
    rangePart begun ends s ≠ (none, s') := by
  intro hnone
  obtain ⟨t, ht, -⟩ := rangePart_spec begun ends s
  nomatch ht.symm.trans hnone

/-- A value that may be missing is used as an alternative to what is done without it. -/
theorem option_bind {k : Option α → Reader β} (hk : ∀ a s s', k (some a) s ≠ (none, s')) :
    (Reader.option p >>= k) = ((p >>= fun a => k (some a)) <|> k none) := by
  funext s
  change (Reader.option p >>= k) s =
    Reader.orElse (p >>= fun a => k (some a)) (fun _ => k none) s
  rw [bind_apply, Reader.option, Reader.orElse, bind_apply]
  cases h : p s with
  | mk a t =>
    cases a with
    | none => rfl
    | some a =>
      dsimp only
      split
      · next h => exact h
      · next h => exact absurd h (hk a t _)

/-- A part of a class is a range, or else a single member. -/
theorem classPart_eq : classPart = Reader.cursor >>= fun begun =>
    (rangeEnds >>= rangePart begun) <|> (do return .single (← classMember)) := by
  unfold classPart
  congr 1
  funext begun
  exact option_bind fun ends => rangePart_ne_none begun ends

/-- A reader that leaves a note where there is an inverted range, and nothing else, leaves no stray
ones. -/
theorem Reads.note (hp : Reads n p e V silent)
    (hq : ∀ a ts, V a ts → ∀ s, ∃ b s', q a s = (some b, s') ∧ s'.ahead = s.ahead ∧
      Noted s.noted (Inverted ts) False s'.noted) :
    Reads n (p >>= q) e anyValue (noting Nowhere Nowhere) where
  matched {s s' b} hn hrun := by
    rw [bind_apply] at hrun
    split at hrun
    · next a t ht =>
      obtain ⟨ts, hd, hv, hr⟩ := hp.matched hn ht
      obtain ⟨b', t', hb, hahead, hnoted⟩ := hq a ts hv t
      obtain ⟨-, rfl⟩ := Prod.mk.inj (hb.symm.trans hrun)
      exact ⟨ts, hahead ▸ hd, trivial, hr ▸ hnoted⟩
    · cases hrun
  failed {s s'} hn hrun := by
    rw [bind_apply] at hrun
    split at hrun
    · next a t ht =>
      obtain ⟨ts, -, hv, -⟩ := hp.matched hn ht
      obtain ⟨b', t', hb, -⟩ := hq a ts hv t
      cases hb.symm.trans hrun
    · next t ht =>
      obtain ⟨-, rfl⟩ := Prod.mk.inj hrun
      obtain ⟨hd, hr⟩ := hp.failed hn ht
      exact ⟨hd, hr ▸ .same id⟩

theorem reads_classPart : Reads n classPart (firstOf [call .classRange, call .classCharacter])
    anyValue (noting Nowhere Nowhere) := by
  have hrange : ∀ begun, Reads n (rangeEnds >>= rangePart begun) (call .classRange) anyValue
      (noting Nowhere Nowhere) := fun begun => reads_rangeEnds.note fun ends ts hends s => by
    obtain ⟨t, ht, hahead, hnoted⟩ := rangePart_spec begun ends s
    exact ⟨_, t, ht, hahead, hnoted ▸ .or hends⟩
  have hsingle : Reads n (do return ClassPart.single (← classMember)) (call .classCharacter)
      anyValue (noting Nowhere Nowhere) :=
    (reads_classCharacter.thenStill fun _ => still_pure _).lexical rfl
  rw [classPart_eq]
  refine .still still_cursor fun begun => (hrange begun).orElse ?_ hsingle
    (.notes id id False.elim False.elim id)
  exact (failsInPlace_attempt _).bind (rangePart_ne_none begun)

theorem failsInPlace_classPart : FailsInPlace classPart := by
  rw [classPart_eq]
  refine .still still_cursor fun begun => FailsInPlace.orElse ?_
    (failsInPlace_classMember.thenStill fun _ => still_pure _)
  exact (failsInPlace_attempt _).bind (rangePart_ne_none begun)

theorem begins_classPart :
    Begins production (firstOf [call .classRange, call .classCharacter]) fun _ => True :=
  begins_classCharacter.seq.call.choice begins_classCharacter

theorem begins_charClass : Begins production (call .charClass) (· = '[') :=
  (Begins.chars _ _).seq.call

theorem failsInPlace_charClass : FailsInPlace charClass := failsInPlace_named _ _

/-- A class that is not closed is the one place where a range by itself can leave a stray note. -/
theorem reads_charClass : Reads n charClass (.call .charClass) anyValue
    (noting (Ahead ['[']) Nowhere) := by
  have hmembers : Reads n (Reader.many classPart)
      (many (firstOf [call .classRange, call .classCharacter])) anyValue
      (noting Nowhere Nowhere) :=
    reads_classPart.many failsInPlace_classPart begins_classPart.length_lt (.notes id fun h _ => h)
  refine .nonterminal (.named ?_) nofun
  refine .lead (F := Anywhere) (reads_text "[") rfl (fun _ => ?_) fun hd _ =>
    .of_begins (Begins.chars _ _) hd
  refine .lead (F := Anywhere) ((reads_text "^").succeeds (failsInPlace_text "^") id) rfl
    (fun inverted => ?_) fun _ _ => trivial
  refine hmembers.close rfl (fun parts => ?_) (fun _ => trivial) (fun _ _ => trivial) fun h _ => h
  refine (reads_text "]").next fun _ => ?_
  refine ((reads_text "i").succeeds (failsInPlace_text "i") id).next fun _ => ?_
  exact reads_skip.thenStill fun _ => still_pure _

end Packrat.Notation
