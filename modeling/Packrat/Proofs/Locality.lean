import Packrat.Proofs.Echoes
import Packrat.Proofs.Tokens

/-!
# Lexemes in front of another text

A lexeme is read without a look at what comes behind it. So it is read in the same way in a longer
text that goes on behind the end with a line end (`Juncture`), unless the text ends within it.

What a reader does in both texts is compared by what lies ahead of it. Within a lexeme, the longer
text has the tail of the juncture behind what the text has ahead (`Juncture.Extends`). Behind a
lexeme come blanks and comments, and where they get to the end of the text, they go on into the
tail, up to its first token (`Juncture.Reaches`). A carriage return at the end may then be half of a
line end, but the blanks end at the same place.

## Lexemes that are cut off

Where the text ends within a lexeme, the longer text may go on with it. The strays in
`Juncture.Keeps` and `Juncture.Ends` are of this kind: an escape or a range that is cut off
(`Remnant`), a comment that is left open (`Open`), and any lexeme that is not read at all. Text of
tokens has none of them: where a lexeme may begin, it is there, with tokens behind it. What remains
is the end of the text itself, where the longer text may have a name ahead, with which no lexeme but
a name begins.

## Main results

* `ends_identifier`, `ends_literal`, `ends_charClass`, `ends_action`: the readers of lexemes, with
  strays
* `derives_skip_append`: blanks and comments go on into the tail
* `meets_lexeme`: among tokens a lexeme is read in the longer text just where it is in the text
-/

namespace Packrat.Notation

open Peg Reader

variable {α β : Type}

/-- A text in a longer one, with a line end behind it or nothing at all. Blanks and comments behind
it end where a rule begins, or at the end of the longer text. -/
structure Juncture where
  /-- What stands in front of the text. -/
  before : List Char
  text : List Char
  /-- What stands behind the text. -/
  tail : List Char
  /-- What is left of the tail where its first token begins. -/
  next : List Char
  newline (c : Char) : c ∈ tail.head? → c = '\n'
  skipped : ∃ ts, Derives production (call .skip) tail (some (ts, next))
  rule : next = [] ∨ ∃ ts rest, Derives production
    (inOrder [call .identifier, opt (call .string), fixed "="]) next (some (ts, rest))

namespace Juncture

variable (J : Juncture)

/-- The longer text. -/
def longer : List Char := J.before ++ (J.text ++ J.tail)

/-- What lies ahead in the longer text where `cs` lies ahead in the text, between two tokens. -/
def beyond : List Char → List Char
  | [] => J.next
  | c :: cs => c :: (cs ++ J.tail)

/-- What lies ahead within a lexeme. -/
def Extends (cs cs' : List Char) : Prop := cs' = cs ++ J.tail

/-- What lies ahead between two tokens, in the text and in the longer one. -/
def Reaches (cs cs' : List Char) : Prop := cs' = J.beyond cs

/-- The reader does the same in the longer text, within a lexeme. -/
abbrev Keeps (F N : List Char → Prop) (p : Reader α) : Prop :=
  Echoes J.text J.longer J.Extends J.Extends F N Eq p p

/-- The reader does the same in the longer text, from within a lexeme up to the next one. -/
abbrev Ends (F N : List Char → Prop) (p : Reader α) : Prop :=
  Echoes J.text J.longer J.Extends J.Reaches F N Eq p p

end Juncture

variable {J : Juncture} {A B : List Char → List Char → Prop} {F N : List Char → Prop}

/-- What begins with a character takes one. -/
theorem Reads.shorter {n : Nat} {p : Reader α} {e : Peg Symbol}
    {V : α → List (ParseTree Symbol) → Prop} {R : Report} {S : Char → Prop} (h : Reads n p e V R)
    (hbegins : Begins production e S) {s t : ReaderState} {a : α} (hn : s.ahead.length < n)
    (hrun : p s = (some a, t)) : t.ahead.length < s.ahead.length := by
  obtain ⟨ts, hd, -⟩ := h.matched hn hrun
  exact hbegins.length_lt hd

theorem shorter_of_reads {p : Reader α} {e : Peg Symbol} {V : α → List (ParseTree Symbol) → Prop}
    {R : Report} {S : Char → Prop} (hreads : ∀ {n}, Reads n p e V R)
    (hbegins : Begins production e S) {s t : ReaderState} {a : α} (hrun : p s = (some a, t)) :
    t.ahead.length < s.ahead.length :=
  hreads.shorter hbegins (Nat.lt_succ_self _) hrun

theorem sideBySide_of_passes {text text' : List Char} {p p' : Reader α}
    {P P' : Cursor → α → Cursor → Prop} (hp : p.Traverses text P) (hp' : p'.Traverses text' P')
    {s s' t t' : ReaderState} {o o' : Option α} (hs : s.SideBySide text text' s')
    (hrun : p s = (o, t)) (hrun' : p' s' = (o', t')) (hnoted : t.noted = s.noted)
    (hnoted' : t'.noted = s'.noted) : t.SideBySide text text' t' where
  source := (hp.onward hs.source hrun).target
  target := (hp'.onward hs.target hrun').target
  noted := by rw [hnoted', hnoted, hs.noted]

/-! ### Texts and characters -/

theorem ahead_of_text {value : String} {s t : ReaderState}
    (h : Reader.text value s = (some (), t)) : s.ahead = value.toList ++ t.ahead := by
  obtain ⟨o, t', ht, -, ⟨-, hahead⟩ | ⟨rfl, -⟩⟩ := text_spec value s
  · obtain ⟨-, rfl⟩ := Prod.mk.inj (ht.symm.trans h)
    exact hahead
  · nomatch ht.symm.trans h

theorem ahead_of_charWhere {accepts : Char → Bool} {description : String} {s t : ReaderState}
    {c : Char} (h : charWhere accepts description s = (some c, t)) :
    accepts c = true ∧ s.ahead = c :: t.ahead := by
  obtain ⟨o, t', ht, -, ⟨d, rfl, hd, hahead⟩ | ⟨rfl, -⟩⟩ := charWhere_spec accepts description s
  · obtain ⟨hcd, rfl⟩ := Prod.mk.inj (ht.symm.trans h)
    obtain rfl := Option.some.inj hcd
    exact ⟨hd, hahead⟩
  · nomatch ht.symm.trans h

/-- A text is not there with the tail behind either, unless it goes on with a line end. -/
theorem keeps_text_until (value : String) :
    J.Keeps (fun cs => ∃ more, value.toList = cs ++ '\n' :: more) Nowhere (Reader.text value) where
  matched {s s' t _} hs ha hrun := by
    obtain ⟨o, t₁, ht, hnoted, ⟨rfl, hahead⟩ | ⟨rfl, -⟩⟩ := text_spec value s
    · obtain ⟨-, rfl⟩ := Prod.mk.inj (ht.symm.trans hrun)
      obtain ⟨o', t', ht', hnoted', ⟨rfl, hahead'⟩ | ⟨-, -, hno⟩⟩ := text_spec value s'
      · refine .inr ⟨(), t', ht', rfl, ?_, ?_⟩
        · exact sideBySide_of_passes (passes_text _) (passes_text _) hs ht ht' hnoted hnoted'
        · rw [ha, hahead, List.append_assoc] at hahead'
          exact (List.append_cancel_left hahead').symm
      · rw [ha, hahead, List.append_assoc] at hno
        exact absurd (List.prefix_append _ _) hno
    · nomatch ht.symm.trans hrun
  failed {s s' t} hs ha hrun := by
    obtain ⟨o, t₁, ht, hnoted, ⟨rfl, -⟩ | ⟨rfl, hahead, hno⟩⟩ := text_spec value s
    · nomatch ht.symm.trans hrun
    obtain ⟨-, rfl⟩ := Prod.mk.inj (ht.symm.trans hrun)
    obtain ⟨o', t', ht', hnoted', ⟨rfl, hahead'⟩ | ⟨rfl, -, -⟩⟩ := text_spec value s'
    · rw [ha] at hahead'
      rcases List.append_eq_append_iff.mp hahead'.symm with ⟨more, hcs, -⟩ | ⟨more, hvalue, htail⟩
      · exact absurd ⟨more, hcs.symm⟩ hno
      · cases more with
        | nil => exact absurd ⟨[], hvalue.symm ▸ by simp⟩ hno
        | cons c more =>
          obtain rfl := J.newline c (by rw [htail]; rfl)
          exact .inl ⟨more, hvalue⟩
    · exact .inr ⟨t', ht',
        sideBySide_of_passes (passes_text _) (passes_text _) hs ht ht' hnoted hnoted'⟩

theorem keeps_text {value : String} (h : '\n' ∉ value.toList) :
    J.Keeps Nowhere Nowhere (Reader.text value) := by
  refine (keeps_text_until value).stray ?_ id
  rintro cs - - ⟨more, hvalue⟩
  exact h (hvalue ▸ List.mem_append_right cs List.mem_cons_self)

/-- At the end of the text, another character may be ahead in the longer one. -/
theorem keeps_charWhere_until (accepts : Char → Bool) (description : String) :
    J.Keeps (fun cs => cs = [] ∧ accepts '\n' = true) Nowhere (charWhere accepts description) where
  matched {s s' t a} hs ha hrun := by
    obtain ⟨o, t₁, ht, hnoted, ⟨c, rfl, hc, hahead⟩ | ⟨rfl, -⟩⟩ :=
      charWhere_spec accepts description s
    · obtain ⟨hca, rfl⟩ := Prod.mk.inj (ht.symm.trans hrun)
      obtain rfl := Option.some.inj hca
      have hahead' : s'.ahead = c :: (t₁.ahead ++ J.tail) := by rw [ha, hahead, List.cons_append]
      obtain ⟨o', t', ht', hnoted', ⟨c', rfl, -, hmore⟩ | ⟨-, -, hno⟩⟩ :=
        charWhere_spec accepts description s'
      · obtain ⟨rfl, hrest⟩ := List.cons.inj (hahead'.symm.trans hmore)
        refine .inr ⟨c, t', ht', rfl, ?_, hrest.symm⟩
        exact sideBySide_of_passes (passes_charWhere _ _) (passes_charWhere _ _) hs ht ht' hnoted
          hnoted'
      · nomatch hc.symm.trans (hno c _ hahead')
    · nomatch ht.symm.trans hrun
  failed {s s' t} hs ha hrun := by
    obtain ⟨o, t₁, ht, hnoted, ⟨c, rfl, -⟩ | ⟨rfl, hahead, hno⟩⟩ :=
      charWhere_spec accepts description s
    · nomatch ht.symm.trans hrun
    obtain ⟨-, rfl⟩ := Prod.mk.inj (ht.symm.trans hrun)
    obtain ⟨o', t', ht', hnoted', ⟨c, rfl, hc, hahead'⟩ | ⟨rfl, -, -⟩⟩ :=
      charWhere_spec accepts description s'
    · cases hcs : s.ahead with
      | nil =>
        rw [ha, hcs] at hahead'
        obtain rfl := J.newline c (by rw [← List.nil_append J.tail, hahead']; rfl)
        exact .inl ⟨rfl, hc⟩
      | cons d cs =>
        rw [ha, hcs] at hahead'
        obtain ⟨rfl, -⟩ := List.cons.inj hahead'
        nomatch hc.symm.trans (hno d cs hcs)
    · exact .inr ⟨t', ht', sideBySide_of_passes (passes_charWhere _ _) (passes_charWhere _ _) hs ht
        ht' hnoted hnoted'⟩

/-- To a reader that takes no line end, there is no more ahead than before. -/
theorem keeps_charWhere {accepts : Char → Bool} (h : accepts '\n' = false) (description : String) :
    J.Keeps Nowhere Nowhere (charWhere accepts description) :=
  (keeps_charWhere_until accepts description).stray (fun _ hF => by simp [h] at hF) id

/-- Characters other than line ends are taken one by one. -/
theorem keeps_chars {accepts : Char → Bool} (h : accepts '\n' = false) (description : String) :
    J.Keeps Nowhere Nowhere (Reader.many (charWhere accepts description)) := by
  have hshorter : ∀ {s t : ReaderState} {c : Char}, charWhere accepts description s = (some c, t) →
      t.ahead.length < s.ahead.length :=
    shorter_of_reads (reads_charWhere (.char accepts) description) (.char accepts)
  refine ((keeps_charWhere h description).repeated (failsInPlace_charWhere _ _)
    (failsInPlace_charWhere _ _) (fun _ => hshorter) fun _ => hshorter).value fun hcs => ?_
  rwa [List.forall₂_eq_eq_eq] at hcs

/-! ### Line ends -/

/-- What is left of a text that ends within an escape, a range or a line end. -/
def Remnant (cs : List Char) : Prop := ∀ c ∈ cs, c = '\\' ∨ c = '-' ∨ isLineEnd c = true

theorem Remnant.of_append {taken rest : List Char} (h : Remnant (taken ++ rest)) : Remnant rest :=
  fun c hc => h c (List.mem_append_right taken hc)

theorem Remnant.cons {c : Char} {cs : List Char} (h : Remnant cs)
    (hc : c = '\\' ∨ c = '-' ∨ isLineEnd c = true) : Remnant (c :: cs) := by
  intro d hd
  rcases List.mem_cons.mp hd with rfl | hd
  · exact hc
  · exact h d hd

theorem remnant_nil : Remnant [] := by
  rintro c ⟨⟩

theorem echoes_oneOf {text text' : List Char} {ts : List String}
    (hts : ∀ t ∈ ts, t.toList ≠ [] ∧ Echoes text text' A B (· = []) Nowhere Eq (Reader.text t)
      (Reader.text t)) : Echoes text text' A B (· = []) Nowhere Eq (oneOf ts) (oneOf ts) := by
  induction ts with
  | nil => exact .fail
  | cons t ts ih =>
    have hplace : FailsInPlace (do Reader.text t; return t) :=
      (failsInPlace_text t).thenStill fun _ => still_pure t
    have hfirst : Echoes text text' A B (· = []) Nowhere Eq (do Reader.text t; return t)
        (do Reader.text t; return t) :=
      (hts t List.mem_cons_self).2.map fun _ => rfl
    refine hfirst.orElse hplace hplace (ih fun t' ht' => hts t' (List.mem_cons_of_mem _ ht')) id id
      (fun {s u a} hend hrun => ?_) (fun hend _ => hend) id
    obtain ⟨us, hd, ⟨ha, htext⟩, -⟩ := (reads_oneOf ts).matched (Nat.lt_succ_self _) hrun
    have hnothing := hd.text
    rw [hend, htext] at hnothing
    exact absurd (List.append_eq_nil_iff.mp hnothing.symm).1
      (hts a (List.mem_cons_of_mem _ ha)).1

/-- A carriage return at the end of the text may be the first half of a line end in the longer
one. -/
theorem echoes_lineEnd : Echoes J.text J.longer
    (fun cs cs' => J.Extends cs cs' ∧ cs ≠ ['\r']) J.Extends (· = []) Nowhere Eq lineEnd
      lineEnd := by
  have hplain : ∀ {value : String}, '\n' ∉ value.toList → Echoes J.text J.longer
      (fun cs cs' => J.Extends cs cs' ∧ cs ≠ ['\r']) J.Extends (· = []) Nowhere Eq
      (Reader.text value) (Reader.text value) := fun h => ((keeps_text h).mono And.left id).clean
  have hnewline : Echoes J.text J.longer
      (fun cs cs' => J.Extends cs cs' ∧ cs ≠ ['\r']) J.Extends (· = []) Nowhere Eq
      (Reader.text "\n") (Reader.text "\n") := by
    refine ((keeps_text_until "\n").mono And.left id).stray ?_ id
    rintro cs - - ⟨more, hvalue⟩
    cases cs with
    | nil => rfl
    | cons c cs => exact absurd (congrArg List.length hvalue) (by simp)
  have hpair : Echoes J.text J.longer
      (fun cs cs' => J.Extends cs cs' ∧ cs ≠ ['\r']) J.Extends (· = []) Nowhere Eq
      (Reader.text "\r\n") (Reader.text "\r\n") := by
    refine ((keeps_text_until "\r\n").mono And.left id).stray ?_ id
    rintro cs - ⟨-, hreturn⟩ ⟨more, hvalue⟩
    rcases cs with _ | ⟨c, _ | ⟨d, cs⟩⟩
    · rfl
    · exact absurd (congrArg (· :: []) (List.cons.inj hvalue).1.symm) hreturn
    · exact absurd (congrArg List.length hvalue) (by simp)
  refine Echoes.named (echoes_oneOf fun t ht => ?_) _
  simp only [lineEnds, List.mem_cons, List.not_mem_nil, or_false] at ht
  rcases ht with rfl | rfl | rfl | rfl | rfl
  · exact ⟨by decide, hnewline⟩
  · exact ⟨by decide, hpair⟩
  all_goals exact ⟨by decide, hplain (by decide)⟩

theorem keeps_lineEnd : J.Keeps Remnant Remnant lineEnd where
  matched {s s' t _} hs ha hrun := by
    by_cases hreturn : s.ahead = ['\r']
    · obtain ⟨ts, hd, -⟩ := reads_lineEnd.matched (Nat.lt_succ_self _) hrun
      have hremnant : Remnant ['\r'] := remnant_nil.cons (.inr (.inr rfl))
      rw [← hreturn, hd.text] at hremnant
      exact .inl hremnant.of_append
    · exact (echoes_lineEnd.matched hs ⟨ha, hreturn⟩ hrun).imp_left False.elim
  failed {s s' t} hs ha hrun := by
    by_cases hreturn : s.ahead = ['\r']
    · exact .inl (hreturn ▸ remnant_nil.cons (.inr (.inr rfl)))
    · refine (echoes_lineEnd.failed hs ⟨ha, hreturn⟩ hrun).imp_left fun hend => ?_
      rw [hend]
      exact remnant_nil

/-! ### Escapes -/

theorem keeps_simpleEscape : J.Keeps Nowhere Nowhere simpleEscape := by
  refine Echoes.attempt ((keeps_text (by decide)).next fun _ => ?_)
  refine (keeps_charWhere rfl _).map ?_
  rintro c _ rfl
  rfl

theorem keeps_zeroEscape : J.Keeps Nowhere Nowhere zeroEscape := by
  refine Echoes.attempt ((keeps_text (by decide)).next fun _ => ?_)
  have hdigit : Char.isDigit '\n' = false := rfl
  refine (keeps_charWhere hdigit _).peek.next ?_
  rintro answer _ rfl
  cases answer with
  | true => exact .fail
  | false => exact .pure rfl id

theorem keeps_hexDigitRun (count : Nat) : J.Keeps Nowhere Nowhere (hexDigitRun count) := by
  induction count with
  | zero => exact .pure rfl id
  | succ count ih =>
    refine (keeps_charWhere rfl _).next ?_
    rintro d _ rfl
    refine ih.map ?_
    rintro ds _ rfl
    rfl

theorem keeps_hexEscape {introduction : String} (h : '\n' ∉ introduction.toList) (count : Nat) :
    J.Keeps Nowhere Nowhere (hexEscape introduction count) := by
  refine Echoes.attempt ((keeps_text h).next fun _ => ?_)
  refine (keeps_hexDigitRun count).map ?_
  rintro ds _ rfl
  rfl

theorem keeps_lineEndEscape : J.Keeps Remnant Remnant lineEndEscape := by
  refine Echoes.attempt ((keeps_text (by decide)).lead (fun _ => keeps_lineEnd) ?_)
  intro s t _ hrun hremnant
  rw [ahead_of_text hrun]
  exact hremnant.cons (.inl rfl)

/-- Of the escapes only a line end can be cut off. -/
theorem keeps_escape : J.Keeps Remnant Remnant escape := by
  have hcoded : J.Keeps Nowhere Nowhere
      (simpleEscape <|> zeroEscape <|> hexEscape "\\x" 2 <|> hexEscape "\\u" 4) :=
    keeps_simpleEscape.or (failsInPlace_attempt _) (failsInPlace_attempt _)
      (keeps_zeroEscape.or (failsInPlace_attempt _) (failsInPlace_attempt _)
        ((keeps_hexEscape (by decide) 2).or (failsInPlace_attempt _) (failsInPlace_attempt _)
          (keeps_hexEscape (by decide) 4)))
  have hplace := failsInPlace_characterEscape.thenStill fun c => still_pure [c]
  exact (hcoded.map fun h => congrArg (fun c => [c]) h).or hplace hplace
    (keeps_lineEndEscape.map fun h => congrArg String.toList h)

/-! ### Strings -/

section

variable {a : Symbol} {delimiter : Char}
  (ha : production a = firstOf [
    inOrder [absent (firstOf [.chars [delimiter], text "\\", lineEndChar]), .any],
    call .escapeSequence])
  (hdelimiter : ¬ (delimiter = '\\' ∨ delimiter = '-' ∨ isLineEnd delimiter = true))

theorem keeps_stringCharacter : J.Keeps Remnant Remnant (stringCharacter delimiter) := by
  have hplace : FailsInPlace (do
      let c ← charWhere (fun c => c != delimiter && c != '\\' && !isLineEnd c) State.anyCharacter
      return [c]) := (failsInPlace_charWhere _ _).thenStill fun _ => still_pure _
  have hplain : (fun c => c != delimiter && c != '\\' && !isLineEnd c) '\n' = false := by
    simp [isLineEnd]
  exact ((keeps_charWhere hplain _).map fun h => congrArg (fun c => [c]) h).or hplace hplace
    keeps_escape

include ha hdelimiter

/-- A string that is cut off is not read, so there is no stray behind one. -/
theorem keeps_delimited : J.Keeps (Ahead [delimiter]) Nowhere (delimited delimiter) := by
  have hsign : (fun c => c == delimiter) '\n' = false := by
    refine beq_false_of_ne ?_
    rintro rfl
    exact hdelimiter (.inr (.inr rfl))
  have hreads := fun n => reads_stringCharacter (n := n) ha
  have hshorter : ∀ {s t : ReaderState} {cs : List Char},
      stringCharacter delimiter s = (some cs, t) → t.ahead.length < s.ahead.length :=
    shorter_of_reads (hreads _) (begins_stringCharacter ha)
  have hcontent : J.Keeps Nowhere Remnant (Reader.many (stringCharacter delimiter)) := by
    refine (keeps_stringCharacter.many (failsInPlace_stringCharacter _)
      (failsInPlace_stringCharacter _) (fun _ => hshorter) (fun _ => hshorter) id ?_).value
        fun h => ?_
    · intro s bound hremnant hbound
      obtain ⟨ts, hd, -⟩ := collect_spec (hreads _) (failsInPlace_stringCharacter _)
        (begins_stringCharacter ha).length_lt .silent (Nat.lt_succ_self _) hbound
      rw [hd.text] at hremnant
      exact hremnant.of_append
    · rwa [List.forall₂_eq_eq_eq] at h
  refine Echoes.attempt ((keeps_charWhere hsign _).lead (G := Anywhere) ?_ ?_)
  · rintro c _ -
    refine hcontent.bind (G := Nowhere) (K := Nowhere) ?_ False.elim (fun _ _ _ => trivial) ?_ id
    · rintro content _ rfl
      exact (keeps_charWhere hsign _).map fun _ => rfl
    · intro t u content value hremnant hrun
      rw [bind_apply] at hrun
      split at hrun
      · next c t' hclosing =>
        obtain ⟨hc, hahead⟩ := ahead_of_charWhere hclosing
        rw [hahead, eq_of_beq hc] at hremnant
        exact hdelimiter (hremnant delimiter List.mem_cons_self)
      · cases hrun
  · intro s t c hrun _
    obtain ⟨hc, hahead⟩ := ahead_of_charWhere hrun
    exact ⟨delimiter, List.mem_singleton.mpr rfl, t.ahead, eq_of_beq hc ▸ hahead⟩

end

theorem keeps_quotedString : J.Keeps Anywhere Nowhere quotedString := by
  have hdouble : J.Keeps (Ahead ['"']) Nowhere (delimited '"') :=
    keeps_delimited (a := .doubleQuotedCharacter) rfl (by decide)
  have hsingle : J.Keeps (Ahead ['\'']) Nowhere (delimited '\'') :=
    keeps_delimited (a := .singleQuotedCharacter) rfl (by decide)
  refine hdouble.orElse (failsInPlace_attempt _) (failsInPlace_attempt _) hsingle id id
    (fun {t u value} hahead hrun => ?_) (fun _ _ => trivial) fun _ => trivial
  obtain ⟨ts, hd, -⟩ := (reads_delimited (a := .singleQuotedCharacter) rfl).matched
    (Nat.lt_succ_self _) hrun
  exact hahead.not_derives (Begins.chars '\'' []).seq rfl hd

/-! ### Between tokens -/

/-- A comment is open. -/
abbrev Open (cs : List Char) : Prop := "/*".toList <+: cs

theorem keeps_comment : J.Keeps Open Nowhere comment := by
  have hline : J.Keeps Nowhere Nowhere (do
      Reader.text "//"
      let _ ← Reader.many (charWhere (!isLineEnd ·) State.anyCharacter)) :=
    (keeps_text (by decide)).next fun _ => (keeps_chars rfl _).map fun _ => rfl
  have hinside : J.Keeps (· = []) Nowhere (do
      if ← peek (Reader.text "*/") then fail else anyChar) := by
    refine (keeps_text (by decide)).peek.lead (G := (· = [])) ?_ fun hrun hend => ?_
    · rintro answer _ rfl
      cases answer with
      | true => exact .fail
      | false => exact (keeps_charWhere_until _ _).stray (fun _ => And.left) id
    · obtain ⟨-, rfl⟩ := Prod.mk.inj hrun
      exact hend
  have hplaceInside := (failsInPlace_charWhere (fun _ => true) State.anyCharacter).unless
    (p := Reader.text "*/")
  have hshorter : ∀ {s t : ReaderState} {c : Char}, (do
      if ← peek (Reader.text "*/") then fail else anyChar : Reader Char) s = (some c, t) →
        t.ahead.length < s.ahead.length :=
    shorter_of_reads ((reads_text "*/").unless (reads_charWhere .any _) rfl)
      (Begins.char _).seq_absent
  have hblock : J.Keeps Open Nowhere (do
      Reader.text "/*"
      let _ ← Reader.many do
        if ← peek (Reader.text "*/") then fail else anyChar
      Reader.text "*/") := by
    refine (keeps_text (by decide)).lead (G := Anywhere) (fun _ => ?_) fun hrun _ => ?_
    · have hmany : J.Keeps Nowhere (· = []) (Reader.many do
          if ← peek (Reader.text "*/") then fail else anyChar) :=
        (hinside.many hplaceInside hplaceInside (fun _ => hshorter) (fun _ => hshorter) id
          fun hn _ => hn.elim).value fun h => by rwa [List.forall₂_eq_eq_eq] at h
      refine hmany.bind (G := Nowhere) (K := Nowhere) (fun _ => keeps_text (by decide)) False.elim
        (fun _ _ _ => trivial) ?_ id
      intro t u _ _ hend hrun
      have hahead := ahead_of_text hrun
      rw [hend] at hahead
      nomatch hahead
    · exact ⟨_, (ahead_of_text hrun).symm⟩
  exact (hline.or failsInPlace_lineComment failsInPlace_lineComment hblock).named _

/-- A text with the tail of the juncture behind it. -/
def Juncture.at (J : Juncture) (cs : List Char) : Juncture := { J with before := [], text := cs }

/-- Blanks, line ends and comments are the same with the tail behind them, except for a carriage
return at the end. -/
theorem derives_between_append {cs : List Char} (hreturn : cs ≠ ['\r']) (hne : cs ≠ []) :
    (∀ {ts rest}, Derives production (firstOf [blank, call .lineEnd, call .comment]) cs
      (some (ts, rest)) → ∃ us, Derives production (firstOf [blank, call .lineEnd, call .comment])
        (cs ++ J.tail) (some (us, rest ++ J.tail))) ∧
    (Derives production (firstOf [blank, call .lineEnd, call .comment]) cs none → ¬ Open cs →
      Derives production (firstOf [blank, call .lineEnd, call .comment]) (cs ++ J.tail) none) := by
  let between : Reader Unit :=
    (do let _ ← charWhere isSpace "whitespace") <|> (do let _ ← lineEnd) <|> comment
  have hkeeps : Echoes (J.at cs).text (J.at cs).longer
      (fun ds ds' => (J.at cs).Extends ds ds' ∧ ds ≠ ['\r'] ∧ ds ≠ []) (J.at cs).Extends Open
      Nowhere Eq between between := by
    refine Echoes.or ?_ failsInPlace_blank failsInPlace_blank
      (Echoes.or ?_ failsInPlace_break failsInPlace_break ?_)
    · exact ((keeps_charWhere rfl _).mono And.left id).map fun _ => rfl
    · have hend : Echoes (J.at cs).text (J.at cs).longer
          (fun ds ds' => (J.at cs).Extends ds ds' ∧ ds ≠ ['\r'] ∧ ds ≠ []) (J.at cs).Extends Nowhere
          Nowhere Eq lineEnd lineEnd :=
        (echoes_lineEnd.mono (fun h => ⟨h.1, h.2.1⟩) id).stray (fun h hnil => h.2.2 hnil) id
      exact hend.map fun _ => rfl
    · exact keeps_comment.mono And.left id
  have hstart : ReaderState.SideBySide (J.at cs).text (J.at cs).longer
      ⟨State.start false false cs, none⟩ ⟨State.start false false (cs ++ J.tail), none⟩ :=
    ⟨Cursor.within_start _ _, Cursor.within_start _ _, rfl⟩
  have hreads := fun n => reads_between (n := n)
  cases hrun : between ⟨State.start false false cs, none⟩ with
  | mk o t =>
    cases o with
    | some a =>
      obtain ⟨us, hd, -⟩ := (hreads _).matched (Nat.lt_succ_self _) hrun
      rcases hkeeps.matched hstart ⟨rfl, hreturn, hne⟩ hrun with hn | ⟨a', t', hrun', -, -, hahead⟩
      · exact hn.elim
      obtain ⟨us', hd', -⟩ := (hreads _).matched (Nat.lt_succ_self _) hrun'
      refine ⟨fun hd₁ => ?_, fun hd₁ => absurd (hd₁.unique hd) (by simp)⟩
      obtain ⟨-, rfl⟩ := Prod.mk.inj (Option.some.inj (hd₁.unique hd))
      exact ⟨us', hahead ▸ hd'⟩
    | none =>
      obtain ⟨hd, -⟩ := (hreads _).failed (Nat.lt_succ_self _) hrun
      refine ⟨fun hd₁ => absurd (hd₁.unique hd) (by simp), fun _ hopen => ?_⟩
      rcases hkeeps.failed hstart ⟨rfl, hreturn, hne⟩ hrun with hF | ⟨t', hrun', -⟩
      · exact absurd hF hopen
      · exact ((hreads _).failed (Nat.lt_succ_self _) hrun').1

/-- Where a line ends, the rest is behind the line end. -/
theorem derives_between_lineEnd (cs : List Char) :
    ∃ ts, Derives production (firstOf [blank, call .lineEnd, call .comment]) ('\n' :: cs)
      (some (ts, cs)) :=
  ⟨_, .choiceSecond (singles_blank.other cs rfl) (.choiceFirst (.call (.choiceFirst
    (Derives.chars ['\n'] cs))))⟩

theorem derives_between_return (cs : List Char) (h : ∀ c ∈ cs.head?, c ≠ '\n') :
    ∃ ts, Derives production (firstOf [blank, call .lineEnd, call .comment]) ('\r' :: cs)
      (some (ts, cs)) := by
  have hpair : ¬ "\r\n".toList <+: '\r' :: cs := by
    rintro ⟨more, hcs⟩
    obtain ⟨-, rfl⟩ := List.cons.inj hcs
    exact h '\n' rfl rfl
  exact ⟨_, .choiceSecond (singles_blank.other cs rfl) (.choiceFirst (.call (.choiceSecond
    (Derives.chars_other (by decide)) (.choiceSecond (Derives.chars_fail hpair) (.choiceFirst
      (Derives.chars ['\r'] cs))))))⟩

theorem derives_between_pair (cs : List Char) :
    ∃ ts, Derives production (firstOf [blank, call .lineEnd, call .comment]) ('\r' :: '\n' :: cs)
      (some (ts, cs)) :=
  ⟨_, .choiceSecond (singles_blank.other _ rfl) (.choiceFirst (.call (.choiceSecond
    (Derives.chars_other (by decide)) (.choiceFirst (Derives.chars ['\r', '\n'] cs)))))⟩

/-- Behind a carriage return at the end, the tail may begin with the other half of the line end. -/
theorem derives_return_append {tail next : List Char} {ts : List (ParseTree Symbol)}
    (h : Derives production (many (firstOf [blank, call .lineEnd, call .comment])) tail
      (some (ts, next))) :
    ∃ us, Derives production (many (firstOf [blank, call .lineEnd, call .comment]))
      ('\r' :: tail) (some (us, next)) := by
  by_cases hpair : ∃ more, tail = '\n' :: more
  · obtain ⟨more, rfl⟩ := hpair
    obtain ⟨us, hd⟩ := derives_between_lineEnd more
    obtain ⟨vs, hd'⟩ := derives_between_pair more
    cases h with
    | manyEnd hno => nomatch hno.unique hd
    | manyMore hfirst hmore =>
      obtain ⟨-, rfl⟩ := Prod.mk.inj (Option.some.inj (hfirst.unique hd))
      exact ⟨_, .manyMore hd' hmore⟩
  · obtain ⟨us, hd⟩ := derives_between_return tail (by
      rintro c hc rfl
      obtain ⟨more, rfl⟩ := List.head?_eq_some_iff.mp hc
      exact hpair ⟨more, rfl⟩)
    exact ⟨_, .manyMore hd h⟩

/-- Blanks go on into the tail where they reach the end of the text. -/
theorem derives_skip_append {cs rest : List Char} {ts : List (ParseTree Symbol)}
    (h : Derives production (call .skip) cs (some (ts, rest))) (hopen : ¬ Open rest) :
    ∃ us, Derives production (call .skip) (cs ++ J.tail) (some (us, J.beyond rest)) := by
  obtain ⟨us, hskipped⟩ := J.skipped
  cases hskipped with
  | call hskipped =>
  cases h with
  | @call _ _ _ ts h =>
  suffices hmany : ∃ us, Derives production (many (firstOf [blank, call .lineEnd, call .comment]))
      (cs ++ J.tail) (some (us, J.beyond rest)) by
    obtain ⟨us, hd⟩ := hmany
    exact ⟨_, .call hd⟩
  generalize hg : production .skip = g at h
  generalize ho : some (ts, rest) = o at h
  induction h generalizing ts rest with
  | @manyEnd e cs hno =>
    obtain rfl := Peg.many.inj hg
    obtain ⟨-, rfl⟩ := Prod.mk.inj (Option.some.inj ho)
    cases rest with
    | nil => exact ⟨_, hskipped⟩
    | cons c cs =>
      refine ⟨_, .manyEnd ((derives_between_append ?_ (List.cons_ne_nil c cs)).2 hno hopen)⟩
      intro hreturn
      obtain ⟨ts, hd⟩ := derives_between_return [] (by rintro c ⟨⟩)
      rw [hreturn] at hno
      nomatch hno.unique hd
  | @manyMore e cs mid _ _ _ hfirst hmore _ ih =>
    obtain rfl := Peg.many.inj hg
    obtain ⟨-, rfl⟩ := Prod.mk.inj (Option.some.inj ho)
    obtain ⟨us, hd⟩ := ih hopen rfl rfl
    by_cases hreturn : cs = ['\r']
    · subst hreturn
      obtain ⟨ts, hd'⟩ := derives_between_return [] (by rintro c ⟨⟩)
      obtain ⟨-, rfl⟩ := Prod.mk.inj (Option.some.inj (hfirst.unique hd'))
      exact derives_return_append hd
    · have hne : cs ≠ [] := by
        rintro rfl
        exact begins_between.ne_nil hfirst rfl
      obtain ⟨vs, hd'⟩ := (derives_between_append hreturn hne).1 hfirst
      exact ⟨_, .manyMore hd' hd⟩
  | _ => nomatch hg

theorem ends_skip : J.Ends Nowhere Open skip where
  matched {s s' t _} hs ha hrun := by
    obtain ⟨ts, hd, -, hnoted⟩ := reads_skip.matched (Nat.lt_succ_self _) hrun
    by_cases hopen : Open t.ahead
    · exact .inl hopen
    obtain ⟨us, hd'⟩ := derives_skip_append (J := J) hd hopen
    cases hrun' : skip s' with
    | mk o t' =>
      cases o with
      | none => exact absurd hrun' (skip_ne_none _ _)
      | some u =>
        obtain ⟨vs, hd₁, -, hnoted'⟩ := reads_skip.matched (Nat.lt_succ_self _) hrun'
        rw [ha] at hd₁
        obtain ⟨-, hahead⟩ := Prod.mk.inj (Option.some.inj (hd₁.unique hd'))
        exact .inr ⟨u, t', rfl, rfl,
          sideBySide_of_passes passes_skip passes_skip hs hrun hrun' hnoted hnoted', hahead⟩
  failed _ _ hrun := absurd hrun (skip_ne_none _ _)

theorem ends_token {value : String} (h : '\n' ∉ value.toList) : J.Ends Nowhere Open (token value) :=
  (keeps_text h).next fun _ => ends_skip

/-! ### Code and names -/

/-- A block ends where it does, whatever comes behind it. -/
theorem echoes_braced {c c' : Cursor} (ha : J.Extends c.ahead c'.ahead) :
    Echoes J.text J.longer (fun cs cs' => cs = c.ahead ∧ cs' = c'.ahead)
      (fun cs cs' => J.Extends cs cs' ∧ ∃ taken, c.ahead = taken ++ cs ∧ c'.ahead = taken ++ cs')
      Anywhere Nowhere Eq braced braced where
  matched {s s' t _} hs hat hrun := by
    obtain ⟨inside, hbalanced, hbetween⟩ := passes_braced.result hs.source hrun
    change s.ahead = '{' :: (inside ++ '}' :: t.ahead) at hbetween
    have hcode : isBalanced (String.ofList inside) = true :=
      Balanced.isBalanced (by rwa [String.toList_ofList])
    have htaken : block (String.ofList inside) = '{' :: (inside ++ ['}']) := by
      rw [block, String.toList_ofList]
    have hahead : s.ahead = block (String.ofList inside) ++ t.ahead := by
      rw [hbetween, htaken, List.cons_append, List.append_assoc]
      rfl
    have hahead' : s'.ahead = block (String.ofList inside) ++ (t.ahead ++ J.tail) := by
      rw [hat.2, ha, ← hat.1, hahead, List.append_assoc]
    obtain ⟨_, t', hrun', -, hfar⟩ := accepts_braced hcode s' hahead'
    obtain ⟨_, -, -, hnoted⟩ := reads_braced.matched (Nat.lt_succ_self _) hrun
    obtain ⟨_, -, -, hnoted'⟩ := reads_braced.matched (Nat.lt_succ_self _) hrun'
    refine .inr ⟨(), t', hrun', rfl,
      sideBySide_of_passes passes_braced passes_braced hs hrun hrun' hnoted hnoted',
      hfar.ahead hahead', _, hat.1 ▸ hahead, ?_⟩
    rw [← hat.2, hahead', hfar.ahead hahead']
  failed _ _ _ := .inl trivial

/-- The same text is taken since two places. -/
theorem echoes_textSince {c c' : Cursor} (hc : c.Within false J.text)
    (hc' : c'.Within false J.longer) :
    Echoes J.text J.longer
      (fun cs cs' => J.Extends cs cs' ∧ ∃ taken, c.ahead = taken ++ cs ∧ c'.ahead = taken ++ cs')
      J.Extends Nowhere Nowhere Eq (textSince c) (textSince c') where
  matched {s s' t _} hs hat hrun := by
    obtain ⟨hextends, taken, htaken, htaken'⟩ := hat
    obtain ⟨hvalue, rfl⟩ := Prod.mk.inj hrun
    refine .inr ⟨_, s', rfl, ?_, hs, hextends⟩
    rw [← Option.some.inj hvalue, hc.textUpTo_eq hs.source htaken,
      hc'.textUpTo_eq hs.target htaken']
  failed _ _ hrun := nomatch hrun

theorem ends_action : J.Ends Anywhere Open action := by
  refine Echoes.named (.still fun {c c'} hc hc' ha => ?_) _
  refine (echoes_braced ha).bind (G := Nowhere) (fun _ => ?_) id (fun _ _ _ => trivial)
    False.elim id
  refine (echoes_textSince hc hc').next ?_
  rintro taken _ rfl
  exact ends_skip.map fun _ => rfl

theorem ends_identifier : J.Ends Nowhere Open identifier := by
  refine Echoes.named ((keeps_charWhere rfl _).next ?_) _
  rintro first _ rfl
  refine (keeps_chars rfl _).next ?_
  rintro rest _ rfl
  exact ends_skip.map fun _ => rfl

theorem ends_literal : J.Ends Anywhere Open literal := by
  refine Echoes.named (keeps_quotedString.bind (G := Nowhere) ?_ id (fun _ _ _ => trivial)
    False.elim id) _
  rintro value _ rfl
  refine ((keeps_text (by decide)).succeeds (failsInPlace_text _) (failsInPlace_text _) id).next ?_
  rintro ignoreCase _ rfl
  exact ends_skip.map fun _ => rfl

theorem ends_string : J.Ends Anywhere Open string := by
  refine Echoes.named (keeps_quotedString.bind (G := Nowhere) ?_ id (fun _ _ _ => trivial)
    False.elim id) _
  rintro value _ rfl
  exact ends_skip.map fun _ => rfl

/-! ### Classes -/

theorem keeps_classMember : J.Keeps Remnant Remnant classMember := by
  have hplain : (fun c => c != ']' && c != '\\' && !isLineEnd c) '\n' = false := rfl
  refine (keeps_charWhere hplain _).or (failsInPlace_charWhere _ _) (failsInPlace_charWhere _ _) ?_
  refine keeps_escape.bind (G := Nowhere) (K := Nowhere) ?_ id ?_ ?_ False.elim
  · rintro cs _ rfl
    cases cs with
    | nil => exact .fail
    | cons c cs => exact .pure rfl id
  · intro s t u cs hrun _ hnone
    obtain ⟨ts, -, hcs, -⟩ := reads_escape.matched (Nat.lt_succ_self _) hrun
    obtain ⟨rest, rfl⟩ := List.head?_eq_some_iff.mp hcs
    nomatch hnone
  · intro t u cs c hremnant hsome
    cases cs with
    | nil => nomatch hsome
    | cons c cs =>
      obtain ⟨-, rfl⟩ := Prod.mk.inj hsome
      exact hremnant

/-- The end of the text comes with a range or behind the first member. -/
def CutRange (cs : List Char) : Prop :=
  Remnant cs ∨ ∃ ts rest, Derives production (call .classCharacter) cs (some (ts, rest)) ∧
    Remnant rest

theorem keeps_rangeEnds : J.Keeps CutRange Remnant rangeEnds := by
  have hlast : ∀ first : Char, J.Keeps Remnant Remnant (do
      Reader.text "-"
      return (first, ← classMember)) := fun first => by
    refine (keeps_text (by decide)).lead (G := Remnant) (fun _ => ?_) fun hrun hremnant => ?_
    · exact keeps_classMember.map fun h => congrArg _ h
    · rw [ahead_of_text hrun]
      exact hremnant.cons (.inr (.inl rfl))
  refine Echoes.attempt (keeps_classMember.bind (G := Remnant) (K := Remnant) ?_ .inl ?_ ?_ id)
  · rintro first _ rfl
    exact hlast first
  · intro s t u first hrun hremnant _
    obtain ⟨ts, hd, -⟩ := reads_classCharacter.matched (Nat.lt_succ_self _) hrun
    exact .inr ⟨ts, t.ahead, hd, hremnant.elim id id⟩
  · intro t u first ends hremnant hrun
    obtain ⟨ts, hd, -⟩ := ((reads_text "-").next fun _ => reads_classCharacter.thenStill
      fun last => still_pure (first, last)).matched (Nat.lt_succ_self _) hrun
    rw [hd.text] at hremnant
    exact hremnant.of_append

theorem keeps_rangePart (begun begun' : Cursor) (ends : Char × Char) :
    Echoes J.text J.longer J.Extends J.Extends Nowhere Nowhere Eq (rangePart begun ends)
      (rangePart begun' ends) where
  matched {s s' t part} hs ha hrun := by
    obtain ⟨t₁, ht, hahead, hnoted⟩ := rangePart_spec begun ends s
    obtain ⟨hpart, rfl⟩ := Prod.mk.inj (ht.symm.trans hrun)
    obtain ⟨t', ht', hahead', hnoted'⟩ := rangePart_spec begun' ends s'
    refine .inr ⟨_, t', ht', (Option.some.inj hpart).symm, ⟨?_, ?_, ?_⟩, ?_⟩
    · exact ((passes_rangePart begun ends).onward hs.source ht).target
    · exact ((passes_rangePart begun' ends).onward hs.target ht').target
    · rw [hnoted, hnoted', hs.noted]
    · rw [hahead, hahead']
      exact ha
  failed _ _ hrun := absurd hrun (rangePart_ne_none _ _ _ _)

theorem keeps_classPart : J.Keeps Remnant Remnant classPart := by
  have hplace : ∀ begun : Cursor, FailsInPlace (rangeEnds >>= rangePart begun) := fun begun =>
    (failsInPlace_attempt _).bind (rangePart_ne_none begun)
  rw [classPart_eq]
  refine .still fun {c c'} _ _ ha => Echoes.mono ?_ (fun {cs cs'} h => h.1 ▸ h.2 ▸ ha) id
  have hrange : Echoes J.text J.longer J.Extends J.Extends CutRange Remnant Eq
      (rangeEnds >>= rangePart c) (rangeEnds >>= rangePart c') := by
    refine keeps_rangeEnds.bind (G := Nowhere) (K := Nowhere) ?_ id
      (fun _ _ hrun => absurd hrun (rangePart_ne_none _ _ _ _)) ?_ False.elim
    · rintro ends _ rfl
      exact keeps_rangePart c c' ends
    · intro t u ends part hremnant hrun
      obtain ⟨u', hu, hahead, -⟩ := rangePart_spec c ends t
      obtain ⟨-, rfl⟩ := Prod.mk.inj (hu.symm.trans hrun)
      rwa [hahead]
  refine hrange.orElse (hplace c) (hplace c')
    (keeps_classMember.map fun h => congrArg ClassPart.single h) id id ?_ ?_ id
  · intro t u part hcut hrun
    obtain ⟨ts, hd, -⟩ := (reads_classCharacter.thenStill
      fun c => still_pure (ClassPart.single c)).matched (Nat.lt_succ_self _) hrun
    rcases hcut with hremnant | ⟨us, rest, hd', hremnant⟩
    · rw [hd.text] at hremnant
      exact hremnant.of_append
    · obtain ⟨-, rfl⟩ := Prod.mk.inj (Option.some.inj (hd.unique hd'))
      exact hremnant
  · intro t u hcut hrun
    obtain ⟨hd, -⟩ := (reads_classCharacter.thenStill
      fun c => still_pure (ClassPart.single c)).failed (Nat.lt_succ_self _) hrun
    rcases hcut with hremnant | ⟨us, rest, hd', -⟩
    · exact hremnant
    · nomatch hd.unique hd'

theorem ends_charClass : J.Ends Anywhere Open charClass := by
  have hreads := fun n => reads_classPart (n := n)
  have hshorter : ∀ {s t : ReaderState} {part : ClassPart}, classPart s = (some part, t) →
      t.ahead.length < s.ahead.length := shorter_of_reads (hreads _) begins_classPart
  have hparts : J.Keeps Nowhere Remnant (Reader.many classPart) := by
    refine (keeps_classPart.many failsInPlace_classPart failsInPlace_classPart (fun _ => hshorter)
      (fun _ => hshorter) id ?_).value fun h => ?_
    · intro s bound hremnant hbound
      obtain ⟨ts, hd, -⟩ := collect_spec (hreads _) failsInPlace_classPart
        begins_classPart.length_lt (.notes id fun h _ => h) (Nat.lt_succ_self _) hbound
      rw [hd.text] at hremnant
      exact hremnant.of_append
    · rwa [List.forall₂_eq_eq_eq] at h
  refine Echoes.named ((keeps_text (by decide)).lead (G := Anywhere) (fun _ => ?_)
    fun _ _ => trivial) _
  refine ((keeps_text (by decide)).succeeds (failsInPlace_text _) (failsInPlace_text _) id).lead
    (G := Anywhere) ?_ fun _ _ => trivial
  rintro inverted _ rfl
  refine hparts.bind (G := Nowhere) ?_ False.elim (fun _ _ _ => trivial) ?_ id
  · rintro parts _ rfl
    refine (keeps_text (by decide)).next fun _ => ?_
    refine .next
      ((keeps_text (by decide)).succeeds (failsInPlace_text _) (failsInPlace_text _) id) ?_
    rintro ignoreCase _ rfl
    exact ends_skip.map fun _ => rfl
  · -- The bracket that closes the class would be left of a text that ends within it.
    intro t u parts members hremnant hrun
    rw [bind_apply] at hrun
    split at hrun
    · next hclosing =>
      rw [ahead_of_text hclosing] at hremnant
      exact absurd (hremnant ']' List.mem_cons_self) (by decide)
    · cases hrun

/-! ### From token to token -/

/-- Less than `n` characters of tokens are ahead, and less than `n'` in the longer text. -/
structure Juncture.Meets (J : Juncture) (n n' : Nat) (cs cs' : List Char) : Prop where
  place : cs' = J.beyond cs
  tokens : Tokenized cs
  shorter : cs.length < n
  shorter' : cs'.length < n'

theorem Juncture.Meets.mono {m m' n n' : Nat} {cs cs' : List Char} (h : J.Meets n n' cs cs')
    (hle : n ≤ m) (hle' : n' ≤ m') : J.Meets m m' cs cs' :=
  ⟨h.place, h.tokens, Nat.lt_of_lt_of_le h.shorter hle, Nat.lt_of_lt_of_le h.shorter' hle'⟩

theorem Juncture.Meets.succ {n n' : Nat} {cs cs' : List Char} (h : J.Meets n n' cs cs') :
    J.Meets (n + 1) (n' + 1) cs cs' := h.mono (Nat.le_succ n) (Nat.le_succ n')

/-- From token to token, the second reader does in the longer text what the first one does. -/
abbrev Juncture.Agrees (J : Juncture) (n n' : Nat) (V : α → α → Prop) (p p' : Reader α) : Prop :=
  Echoes J.text J.longer (J.Meets n n') (J.Meets n n') Nowhere Nowhere V p p'

/-- The reader takes a token, the same one in the longer text. -/
abbrev Juncture.Takes (J : Juncture) (n n' : Nat) (p : Reader α) : Prop :=
  Echoes J.text J.longer (J.Meets (n + 1) (n' + 1)) (J.Meets n n') Nowhere Nowhere Eq p p

theorem Juncture.Takes.agrees {n n' : Nat} {p : Reader α} (h : J.Takes n n' p) :
    J.Agrees n n' Eq p p := h.mono Juncture.Meets.succ id

/-- What comes next, if anything, begins with a name. -/
theorem Juncture.head_next {c : Char} {cs : List Char} (h : J.next = c :: cs) :
    isIdentifierHead c = true := by
  rcases J.rule with hnil | ⟨ts, rest, hd⟩
  · nomatch hnil.symm.trans h
  · obtain ⟨_, _, heq, hc, -⟩ := begins_identifier.seq _ _ _ hd
    obtain ⟨rfl, -⟩ := List.cons.inj (h.symm.trans heq)
    exact hc

/-- Among tokens the expression matches wherever it may begin, with tokens behind it. -/
def There (e : Peg Symbol) (S : Char → Prop) : Prop := ∀ c cs, Tokenized (c :: cs) → S c →
  ∃ ts rest, Derives production e (c :: cs) (some (ts, rest)) ∧ Tokenized rest

theorem there_of_lexemeAt {e : Peg Symbol} {S : Char → Prop} (hkind : ∀ c, S c → lexemeAt c = e) :
    There e S := fun c _ h hc => hkind c hc ▸ h.lexeme

section

variable {n n' : Nat} {p : Reader α} {e : Peg Symbol} {V : α → List (ParseTree Symbol) → Prop}
  {R : Report} {Q : Cursor → α → Cursor → Prop} {S : Char → Prop}
  (hends : J.Ends Anywhere Open p) (hreads : ∀ {n}, Reads n p e V R)
  (hpasses : ∀ {text}, p.Traverses text Q) (hbegins : Begins production e S) (hthere : There e S)
  (hquiet : ∀ {b c cs}, R.failed b cs c → (∀ d ∈ cs.head?, ¬ S d) → c = b)

include hends hreads hpasses hbegins hthere hquiet

/-- A lexeme whose first character tells it is read in the longer text just where it is read in the
text. At the end of the text it is not read, but a name might be in the longer one. -/
theorem meets_lexeme {P : List Char → Prop}
    (hnext : P [] → ∀ c, isIdentifierHead c = true → ¬ S c) :
    Echoes J.text J.longer (fun cs cs' => J.Meets (n + 1) (n' + 1) cs cs' ∧ P cs) (J.Meets n n')
      Nowhere Nowhere Eq p p where
  matched {s s' t a} hs ha hrun := by
    obtain ⟨ts, hd, -⟩ := hreads.matched (Nat.lt_succ_self _) hrun
    obtain ⟨c, cs, hcs, hc, -⟩ := hbegins _ _ _ hd
    have hextends : J.Extends s.ahead s'.ahead := by rw [ha.1.place, hcs]; rfl
    obtain ⟨us, rest, hd', hrest⟩ := hthere _ _ (hcs ▸ ha.1.tokens) hc
    obtain ⟨-, rfl⟩ := Prod.mk.inj (Option.some.inj (hd.unique (hcs ▸ hd')))
    rcases hends.matched hs hextends hrun with hopen | ⟨a', t', hrun', rfl, ht, hplace⟩
    · exact absurd hopen hrest.noComment
    · obtain ⟨us', hd'', -⟩ := hreads.matched (Nat.lt_succ_self _) hrun'
      refine .inr ⟨_, t', hrun', rfl, ht, hplace, hrest, ?_, ?_⟩
      · exact Nat.lt_of_lt_of_le (hbegins.length_lt hd) (Nat.le_of_lt_succ ha.1.shorter)
      · exact Nat.lt_of_lt_of_le (hbegins.length_lt hd'') (Nat.le_of_lt_succ ha.1.shorter')
  failed {s s' t} hs ha hrun := by
    obtain ⟨hd, hr⟩ := hreads.failed (Nat.lt_succ_self _) hrun
    have hhead : ∀ c ∈ s.ahead.head?, ¬ S c := by
      intro c hc hS
      obtain ⟨cs, hcs⟩ := List.head?_eq_some_iff.mp hc
      obtain ⟨us, rest, hd', -⟩ := hthere _ _ (hcs ▸ ha.1.tokens) hS
      rw [← hcs] at hd'
      nomatch hd.unique hd'
    have hhead' : ∀ c ∈ s'.ahead.head?, ¬ S c := by
      intro c hc
      rw [ha.1.place] at hc
      cases hcs : s.ahead with
      | nil =>
        rw [hcs] at hc
        obtain ⟨cs, hnext'⟩ := List.head?_eq_some_iff.mp hc
        exact hnext (hcs ▸ ha.2) c (J.head_next hnext')
      | cons d cs =>
        rw [hcs] at hc hhead
        exact hhead c hc
    cases hrun' : p s' with
    | mk o t' =>
      cases o with
      | some a =>
        obtain ⟨us, hd', -⟩ := hreads.matched (Nat.lt_succ_self _) hrun'
        obtain ⟨c, cs, hcs, hc, -⟩ := hbegins _ _ _ hd'
        exact absurd hc (hhead' c (by rw [hcs]; rfl))
      | none =>
        obtain ⟨-, hr'⟩ := hreads.failed (Nat.lt_succ_self _) hrun'
        exact .inr ⟨t', rfl, sideBySide_of_passes hpasses hpasses hs hrun hrun' (hquiet hr hhead)
          (hquiet hr' hhead')⟩

/-- A lexeme other than a name. -/
theorem meets_of_ends (hname : ∀ c, isIdentifierHead c = true → ¬ S c) : J.Takes n n' p :=
  (meets_lexeme (P := fun _ => True) hends hreads hpasses hbegins hthere hquiet fun _ => hname).mono
    (fun h => ⟨h, trivial⟩) id

end

section

variable {n n' : Nat}

theorem meets_identifier : Echoes J.text J.longer
    (fun cs cs' => J.Meets (n + 1) (n' + 1) cs cs' ∧ cs ≠ []) (J.Meets n n') Nowhere Nowhere Eq
    identifier identifier :=
  meets_lexeme (ends_identifier.stray (fun _ => False.elim) id) reads_identifier passes_identifier
    begins_identifier (there_of_lexemeAt fun _ hc => if_pos hc) (fun h _ => h) fun h => absurd rfl h

theorem not_quote_of_head {c : Char} (hc : isIdentifierHead c = true) : ¬ (c = '"' ∨ c = '\'') := by
  rintro (rfl | rfl) <;> nomatch hc

theorem meets_literal : J.Takes n n' literal := by
  refine meets_of_ends ends_literal reads_literal passes_literal begins_literal
    (there_of_lexemeAt ?_) (fun h _ => h) fun _ => not_quote_of_head
  rintro c (rfl | rfl) <;> rfl

theorem meets_string : J.Takes n n' string :=
  meets_of_ends ends_string reads_string passes_string begins_quotedString.seq.call
    (fun _ _ => Tokenized.string) (fun h _ => h) fun _ => not_quote_of_head

theorem meets_action : J.Takes n n' action := by
  refine meets_of_ends ends_action reads_action passes_action begins_action
    (there_of_lexemeAt ?_) (fun h _ => h) ?_
  · rintro c rfl
    rfl
  · rintro c hc rfl
    nomatch hc

theorem meets_charClass : J.Takes n n' charClass := by
  refine meets_of_ends ends_charClass reads_charClass passes_charClass begins_charClass
    (there_of_lexemeAt ?_) (fun {b c cs} h hhead => ?_) ?_
  · rintro c rfl
    rfl
  · -- Only in front of a bracket might a note be left.
    have hahead : ¬ Ahead ['['] cs := by
      rintro ⟨d, hd, rest, rfl⟩
      exact hhead d rfl (List.mem_singleton.mp hd)
    exact h.unchanged id hahead
  · rintro c hc rfl
    nomatch hc

/-- The text is one character, which is a token of its own. -/
structure IsMark (value : String) (c : Char) : Prop where
  text : value.toList = [c]
  lexeme : lexemeAt c = .seq (.chars [c]) (call .skip)
  inLine : c ≠ '\n'

/-- No name begins with a mark. -/
theorem IsMark.head {value : String} {c : Char} (h : IsMark value c) :
    ¬ isIdentifierHead c = true := by
  intro hhead
  have hlexeme := h.lexeme
  rw [lexemeAt, if_pos hhead] at hlexeme
  cases hlexeme

theorem meets_token {value : String} {c : Char} (h : IsMark value c) :
    J.Takes n n' (token value) := by
  have hline : '\n' ∉ value.toList := by
    rw [h.text, List.mem_singleton]
    exact h.inLine.symm
  refine meets_of_ends ((ends_token hline).stray (fun _ => False.elim) id) (reads_token value)
    (passes_token value) (begins_fixed h.text) (there_of_lexemeAt ?_) (fun h _ => h) ?_
  · rintro _ rfl
    exact lexemeAt_fixed h.text h.lexeme
  · rintro _ hd rfl
    exact h.head hd

end

end Packrat.Notation
