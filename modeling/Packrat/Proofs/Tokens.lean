import Packrat.Proofs.Conformance
import Packrat.Proofs.Spelling

/-!
# Accepted texts are made of tokens

The first character of a lexeme tells its kind (`lexemeAt`). In a text that is accepted as a
grammar, what lies behind any token is itself made of tokens, one behind the other, up to the end
(`Tokenized`): no string, class or code block is cut off, and no comment is left open. This does not
follow from the tokens that were read alone, since readers try more than they keep. It is found from
the end of the text backwards: `Infers` says of an expression what a match of it tells about the
text in front of it from what is known of the rest, and each production takes tokens in front of
tokens.

A slash is a token, and a slash with an asterisk behind it may be the beginning of a comment without
an end. No such place is reached from the end, since what comes behind a slash begins with none of
the suffix operators; `Settled` keeps that in mind.

A display name is a string where a literal could be read as well, and a literal takes a letter `i`
that a string leaves. Then the letter begins a name, so the rest is made of tokens in both cases.

## Main results

* `exists_tokenized`: behind the first blanks an accepted text is made of tokens
* `Tokenized.lexeme`, `Tokenized.string`: the lexeme that may be ahead is there
-/

namespace Packrat.Notation

open Peg

/-! ### Tokens -/

/-- The lexeme that a character begins: a name, a literal, a class, a code block, or the character
as a token of its own. A digit begins none. -/
def lexemeAt (c : Char) : Peg Symbol :=
  if isIdentifierHead c then call .identifier
  else if c = '"' ∨ c = '\'' then call .literal
  else if c = '[' then call .charClass
  else if c = '{' then call .action
  else if c.isDigit then absent empty
  else .seq (.chars [c]) (call .skip)

/-- A text of lexemes one behind the other, without an open comment between them. -/
inductive Tokenized : List Char → Prop
  | nil : Tokenized []
  | cons {c : Char} {cs rest : List Char} {ts : List (ParseTree Symbol)} :
      Derives production (lexemeAt c) (c :: cs) (some (ts, rest)) → ¬ "/*".toList <+: c :: cs →
        Tokenized rest → Tokenized (c :: cs)

/-- Suffix operators. -/
def suffixes : List Char := ['?', '*', '+']

/-- A text of tokens that does not begin with a suffix operator. -/
def Settled (cs : List Char) : Prop := Tokenized cs ∧ ¬ Ahead suffixes cs

theorem settled_nil : Settled [] := ⟨.nil, by rintro ⟨_, -, _, ⟨⟩⟩⟩

/-- Where a token begins, nothing is skipped. -/
theorem derives_skip {cs : List Char} (h : AtToken cs) :
    ∃ ts, Derives production (call .skip) cs (some (ts, cs)) := by
  obtain ⟨a, s, hrun, -, hfar⟩ := accepts_skip rfl h
    ⟨State.start false false cs, none⟩ (List.nil_append cs).symm
  obtain ⟨ts, hd, -⟩ := reads_skip.matched (Nat.lt_succ_self _) hrun
  rw [hfar.ahead_zero] at hd
  exact ⟨ts, hd⟩

theorem lexemeAt_fixed {value : String} {c : Char} (hvalue : value.toList = [c])
    (hc : lexemeAt c = .seq (.chars [c]) (call .skip)) : lexemeAt c = fixed value := by
  rw [hc, fixed, Peg.text, hvalue]

/-! ### From what is behind to what is in front -/

/-- In a text shorter than `n`, where the expression matches and `B` holds of the rest, `A` holds.
-/
structure Infers (n : Nat) (e : Peg Symbol) (B A : List Char → Prop) : Prop where
  back {cs rest : List Char} {ts : List (ParseTree Symbol)} : cs.length < n →
    Derives production e cs (some (ts, rest)) → B rest → A cs

namespace Infers

variable {n : Nat} {e f : Peg Symbol} {A B B' M : List Char → Prop}

theorem zero : Infers 0 e B A := ⟨fun hn => absurd hn (Nat.not_lt_zero _)⟩

theorem weaken (h : Infers n e B A) (hB : ∀ {cs}, B' cs → B cs) : Infers n e B' A :=
  ⟨fun hn hd hb => h.back hn hd (hB hb)⟩

theorem seq (he : Infers n e M A) (hf : Infers n f B M) : Infers n (.seq e f) B A where
  back hn hd hb := by
    cases hd with
    | seq hd hd' => exact he.back hn hd (hf.back (Nat.lt_of_le_of_lt hd.length_le hn) hd' hb)

/-- What comes first takes a character, so what comes behind is shorter. -/
theorem seq_begins {S : Char → Prop} (he : Infers (n + 1) e M A) (hbegins : Begins production e S)
    (hf : Infers n f B M) : Infers (n + 1) (.seq e f) B A where
  back hn hd hb := by
    cases hd with
    | seq hd hd' =>
      have hshorter := Nat.lt_of_lt_of_le (hbegins.length_lt hd) (Nat.le_of_lt_succ hn)
      exact he.back hn hd (hf.back hshorter hd' hb)

theorem choice (he : Infers n e B A) (hf : Infers n f B A) : Infers n (.choice e f) B A where
  back hn hd hb := by
    cases hd with
    | choiceFirst hd => exact he.back hn hd hb
    | choiceSecond _ hd => exact hf.back hn hd hb

theorem opt (he : Infers n e B A) (hBA : ∀ {cs}, B cs → A cs) : Infers n (.opt e) B A where
  back hn hd hb := by
    cases hd with
    | choiceFirst hd => exact he.back hn hd hb
    | choiceSecond _ hd =>
      cases hd
      exact hBA hb

theorem absent : Infers n (.absent e) A A where
  back _ hd ha := by
    cases hd
    exact ha

theorem many (he : Infers n e A A) : Infers n (.many e) A A where
  back {cs rest ts} hn hd ha := by
    generalize hg : Peg.many e = g at hd
    generalize ho : some (ts, rest) = o at hd
    induction hd generalizing ts rest with
    | manyEnd _ =>
      obtain ⟨-, rfl⟩ := Prod.mk.inj (Option.some.inj ho)
      exact ha
    | manyMore hd _ _ ih =>
      cases hg
      obtain ⟨-, rfl⟩ := Prod.mk.inj (Option.some.inj ho)
      exact he.back hn hd (ih (Nat.lt_of_le_of_lt hd.length_le hn) ha rfl rfl)
    | _ => nomatch hg

theorem call {a : Symbol} (h : Infers n (production a) B A) : Infers n (.call a) B A where
  back hn hd hb := by
    cases hd with
    | call hd => exact h.back hn hd hb

/-- A lexeme is the one that its first character tells. -/
theorem lexeme {S : Char → Prop} (hbegins : Begins production e S)
    (hkind : ∀ c, S c → lexemeAt c = e ∧ c ≠ '/') : Infers n e Tokenized Tokenized where
  back _ hd hrest := by
    obtain ⟨c, cs, rfl, hc, -⟩ := hbegins _ _ _ hd
    obtain ⟨hlexeme, hslash⟩ := hkind c hc
    refine .cons (hlexeme ▸ hd) ?_ hrest
    rintro ⟨_, hopen⟩
    exact hslash (List.cons.inj hopen).1.symm

/-- What begins with other characters than suffix operators is settled. -/
theorem settled {S : Char → Prop} [DecidablePred S] (h : Infers n e B Tokenized)
    (hbegins : Begins production e S)
    (hsuffixes : suffixes.all (fun c => !decide (S c)) = true) : Infers n e B Settled :=
  ⟨fun hn hd hb => ⟨h.back hn hd hb, fun hahead => hahead.not_derives hbegins hsuffixes hd⟩⟩

end Infers

variable {n : Nat}

/-! ### Lexemes -/

theorem infers_identifier : Infers n (call .identifier) Tokenized Settled := by
  refine (Infers.lexeme begins_identifier fun c hc => ⟨if_pos hc, ?_⟩).settled begins_identifier rfl
  rintro rfl
  exact absurd hc (by decide)

theorem infers_literal : Infers n (call .literal) Tokenized Settled := by
  refine (Infers.lexeme begins_literal ?_).settled begins_literal rfl
  rintro c (rfl | rfl) <;> exact ⟨rfl, by decide⟩

theorem infers_charClass : Infers n (call .charClass) Tokenized Settled := by
  refine (Infers.lexeme begins_charClass ?_).settled begins_charClass rfl
  rintro c rfl
  exact ⟨rfl, by decide⟩

theorem infers_action : Infers n (call .action) Tokenized Settled := by
  refine (Infers.lexeme begins_action ?_).settled begins_action rfl
  rintro c rfl
  exact ⟨rfl, by decide⟩

/-- A token other than a slash. -/
theorem infers_fixed {value : String} {c : Char} (hvalue : value.toList = [c])
    (hc : lexemeAt c = .seq (.chars [c]) (call .skip)) (hslash : c ≠ '/') :
    Infers n (fixed value) Tokenized Tokenized := by
  refine .lexeme (begins_fixed hvalue) ?_
  rintro _ rfl
  exact ⟨lexemeAt_fixed hvalue hc, hslash⟩

/-- A token other than a slash or a suffix operator. -/
theorem infers_mark {value : String} {c : Char} (hvalue : value.toList = [c])
    (hc : lexemeAt c = .seq (.chars [c]) (call .skip)) (hother : c ∉ '/' :: suffixes) :
    Infers n (fixed value) Tokenized Settled := by
  refine (infers_fixed hvalue hc (List.ne_of_not_mem_cons hother)).settled (begins_fixed hvalue) ?_
  refine List.all_eq_true.mpr fun d hd => ?_
  rw [Bool.not_eq_true', decide_eq_false_iff_not]
  rintro rfl
  exact hother (List.mem_cons_of_mem _ hd)

/-- If an asterisk came behind the slash, it would still be ahead behind the token. -/
theorem infers_slash : Infers n (fixed "/") Settled Settled := by
  have hbegins : Begins production (fixed "/") (· = '/') := begins_fixed rfl
  have hkind : lexemeAt '/' = fixed "/" := lexemeAt_fixed rfl rfl
  refine Infers.settled ⟨fun {cs rest ts} _ hd hrest => ?_⟩ hbegins rfl
  obtain ⟨_, cs, rfl, rfl, -⟩ := hbegins _ _ _ hd
  refine .cons (hkind ▸ hd) ?_ hrest.1
  rintro ⟨cs, hopen⟩
  obtain ⟨-, rfl⟩ := List.cons.inj hopen
  cases hd with
  | seq hslash hskip =>
    obtain ⟨-, rfl⟩ := Prod.mk.inj (Option.some.inj
      (hslash.unique (Derives.chars ['/'] ('*' :: cs))))
    have htoken : AtToken ('*' :: cs) := atToken_cons rfl rfl (by decide)
    obtain ⟨ts, hd⟩ := derives_skip htoken
    obtain ⟨-, rfl⟩ := Prod.mk.inj (Option.some.inj (hskip.unique hd))
    exact hrest.2 ⟨'*', by decide, cs, rfl⟩

/-- A letter is no blank. -/
theorem atToken_letter (cs : List Char) : AtToken ('i' :: cs) :=
  atToken_cons rfl rfl (by decide)

/-- With the sign of a rule behind it, a display name is where a literal might be as well. -/
theorem infers_string :
    Infers n (call .string) (fun cs => Tokenized cs ∧ Ahead ['='] cs) Tokenized := by
  have hbegins : Begins production (call .string) fun c => c = '"' ∨ c = '\'' :=
    begins_quotedString.seq.call
  constructor
  intro cs rest ts _ hd hrest
  obtain ⟨c, cs, rfl, hc, -⟩ := hbegins _ _ _ hd
  obtain ⟨hrest, d, hd', more, rfl⟩ := hrest
  obtain rfl := List.mem_singleton.mp hd'
  cases hd with
  | call hd =>
    cases hd with
    | @seq _ _ _ mid _ _ _ hquoted hskip =>
      have hplain : Derives production (text "i") mid none := by
        refine Derives.chars_fail ?_
        rintro ⟨behind, rfl⟩
        obtain ⟨ts, hd⟩ := derives_skip (atToken_letter behind)
        nomatch hskip.unique hd
      have hliteral : Derives production (call .literal) (c :: cs) (some (_, '=' :: more)) :=
        .call (.seq hquoted (.seq (.choiceSecond hplain .empty) hskip))
      have hkind : lexemeAt c = call .literal := by rcases hc with rfl | rfl <;> rfl
      refine .cons (hkind ▸ hliteral) ?_ hrest
      rintro ⟨_, hopen⟩
      obtain ⟨rfl, -⟩ := List.cons.inj hopen
      exact absurd hc (by decide)

/-! ### Productions -/

section

variable (hchoice : Infers n (call .choice) Settled Settled)

include hchoice in
theorem infers_primary : Infers (n + 1) (call .primary) Tokenized Settled := by
  have hopening : Infers (n + 1) (fixed "(") Tokenized Settled := infers_mark rfl rfl (by decide)
  have hclosing : Infers n (fixed ")") Tokenized Settled := infers_mark rfl rfl (by decide)
  refine .call (.choice (.seq infers_identifier .absent) (.choice infers_literal
    (.choice infers_charClass (.choice (infers_mark rfl rfl (by decide)) ?_))))
  exact .seq_begins (hopening.weaken And.left) (begins_fixed rfl) (.seq hchoice hclosing)

include hchoice in
theorem infers_suffixed : Infers (n + 1) (call .suffixed) Tokenized Settled := by
  have hprimary := infers_primary hchoice
  have hoperator : ∀ {value : String} {c : Char}, value.toList = [c] →
      lexemeAt c = .seq (.chars [c]) (call .skip) → c ≠ '/' →
        Infers (n + 1) (inOrder [call .primary, fixed value]) Tokenized Settled :=
    fun hvalue hc hslash => .seq hprimary (infers_fixed hvalue hc hslash)
  exact .call (.choice (hoperator rfl rfl (by decide)) (.choice (hoperator rfl rfl (by decide))
    (.choice (hoperator rfl rfl (by decide)) hprimary)))

include hchoice in
theorem infers_prefixed : Infers (n + 1) (call .prefixed) Tokenized Settled := by
  have hsuffixed := infers_suffixed hchoice
  have hand : Infers (n + 1) (fixed "&") Settled Settled :=
    (infers_mark rfl rfl (by decide)).weaken And.left
  have hnot : Infers (n + 1) (fixed "!") Settled Settled :=
    (infers_mark rfl rfl (by decide)).weaken And.left
  exact .call (.choice (.seq hand infers_action) (.choice (.seq hand hsuffixed)
    (.choice (.seq hnot infers_action) (.choice (.seq hnot hsuffixed) hsuffixed))))

include hchoice in
theorem infers_labeled : Infers (n + 1) (call .labeled) Tokenized Settled := by
  have hprefixed := infers_prefixed hchoice
  have hcolon : Infers (n + 1) (fixed ":") Settled Tokenized :=
    (infers_fixed rfl rfl (by decide)).weaken And.left
  exact .call (.choice (.seq infers_identifier (.seq hcolon hprefixed)) hprefixed)

include hchoice in
theorem infers_sequence : Infers (n + 1) (call .sequence) Settled Settled := by
  have helements : Infers (n + 1) (many (call .labeled)) Settled Settled :=
    .many ((infers_labeled hchoice).weaken And.left)
  exact .call (.choice (.seq helements (infers_action.weaken And.left)) helements)

end

theorem infers_choice : Infers n (call .choice) Settled Settled := by
  induction n with
  | zero => exact .zero
  | succ n ih =>
    have hsequence := infers_sequence ih
    exact .call (.seq hsequence (.many (.seq infers_slash hsequence)))

theorem infers_semicolon : Infers n (opt (fixed ";")) Settled Settled :=
  .opt ((infers_mark rfl rfl (by decide)).weaken And.left) id

theorem infers_rule : Infers n (call .rule) Settled Settled := by
  have hsign : Infers n (fixed "=") Settled fun cs => Tokenized cs ∧ Ahead ['='] cs :=
    ⟨fun hn hd hrest => ⟨(infers_fixed rfl rfl (by decide)).back hn hd hrest.1,
      .of_begins (begins_fixed rfl) hd⟩⟩
  exact .call (.seq infers_identifier (.seq (infers_string.opt And.left)
    (.seq hsign (.seq infers_choice infers_semicolon))))

theorem infers_initializer : Infers n (call .initializer) Settled Settled :=
  .call (.seq (infers_action.weaken And.left) infers_semicolon)

/-- Behind the first blanks an accepted text is made of tokens. -/
theorem exists_tokenized {cs : List Char} {ts : List (ParseTree Symbol)}
    (h : Derives production (call .grammar) cs (some (ts, []))) :
    ∃ us rest, Derives production (call .skip) cs (some (us, rest)) ∧ Tokenized rest := by
  have hrules : Infers (cs.length + 1) (atLeastOne (call .rule)) Settled Settled :=
    .seq infers_rule (.many infers_rule)
  cases h with
  | call h =>
    cases h with
    | seq hskip hbody =>
      have hbody := (Infers.seq (infers_initializer.opt id) hrules).back
        (Nat.lt_succ_of_le hskip.length_le) hbody settled_nil
      exact ⟨_, _, hskip, hbody.1⟩

/-! ### What is ahead -/

namespace Tokenized

variable {c : Char} {cs : List Char}

theorem noComment {cs : List Char} (h : Tokenized cs) : ¬ "/*".toList <+: cs := by
  cases h with
  | nil => decide
  | cons _ hopen _ => exact hopen

/-- The lexeme that may be ahead is there, with tokens behind it. -/
theorem lexeme (h : Tokenized (c :: cs)) : ∃ ts rest,
    Derives production (lexemeAt c) (c :: cs) (some (ts, rest)) ∧ Tokenized rest := by
  cases h with
  | cons hd _ hrest => exact ⟨_, _, hd, hrest⟩

theorem head_of_tail (h : Tokenized (c :: cs)) (hc : isIdentifierTail c = true) :
    isIdentifierHead c = true := by
  by_contra hhead
  have hdigit : c.isDigit = true := by
    rw [isIdentifierTail, Bool.eq_false_iff.mpr hhead, Bool.false_or] at hc
    exact hc
  obtain ⟨hquote, hbracket, hbrace⟩ := of_ascii
    (P := fun c => c.isDigit = true → ¬ (c = '"' ∨ c = '\'') ∧ c ≠ '[' ∧ c ≠ '{') (by decide) c
    (ascii_of_isIdentifierTail hc) hdigit
  obtain ⟨ts, rest, hd, -⟩ := h.lexeme
  rw [lexemeAt, if_neg hhead, if_neg hquote, if_neg hbracket, if_neg hbrace, if_pos hdigit] at hd
  cases hd with
  | absent hempty => cases hempty

/-- In front of what comes behind a letter, the letter begins a name. -/
theorem letter {rest : List Char} {ts : List (ParseTree Symbol)}
    (hskip : Derives production (call .skip) cs (some (ts, rest))) (hrest : Tokenized rest) :
    Tokenized ('i' :: cs) := by
  have hhead := singles_identifierHead.matched cs (show isIdentifierHead 'i' = true by decide)
  have hopen : ¬ "/*".toList <+: 'i' :: cs := by
    rintro ⟨_, hopen⟩
    nomatch (List.cons.inj hopen).1
  by_cases htail : ∃ d ds, cs = d :: ds ∧ isIdentifierTail d = true
  · obtain ⟨d, ds, rfl, hd⟩ := htail
    -- The name goes on with a name, as a digit begins no token.
    obtain ⟨hmark, hspace, hend⟩ := notMem_marks_of_isIdentifierTail hd
    have htoken : AtToken (d :: ds) := atToken_cons hspace hend fun hslash =>
      hmark (hslash ▸ by decide)
    obtain ⟨_, hskip'⟩ := derives_skip htoken
    obtain ⟨-, rfl⟩ := Prod.mk.inj (Option.some.inj (hskip.unique hskip'))
    obtain ⟨us, behind, hname, hbehind⟩ := hrest.lexeme
    rw [lexemeAt, if_pos (hrest.head_of_tail hd)] at hname
    cases hname with
    | call hname =>
      cases hname with
      | seq hfirst htail =>
        obtain ⟨-, hds⟩ := Prod.mk.inj (Option.some.inj
          (hfirst.unique (singles_identifierHead.matched ds (hrest.head_of_tail hd))))
        cases htail with
        | seq htail hgap =>
          have hmore := Derives.manyMore (singles_identifierTail.matched ds hd) (hds ▸ htail)
          exact .cons (.call (.seq hhead (.seq hmore hgap))) hopen hbehind
  · have hend : Derives production
        (Peg.set [('a', 'z'), ('A', 'Z'), ('0', '9'), ('_', '_'), ('$', '$')]) cs none := by
      cases cs with
      | nil => exact singles_identifierTail.atEnd
      | cons d ds =>
        have hother : ¬ isIdentifierTail d = true := fun hd => htail ⟨d, ds, rfl, hd⟩
        exact singles_identifierTail.other ds (Bool.eq_false_iff.mpr hother)
    exact .cons (.call (.seq hhead (.seq (.manyEnd hend) hskip))) hopen hrest

/-- A string is there where it may be ahead, with tokens behind it. -/
theorem string (h : Tokenized (c :: cs)) (hc : c = '"' ∨ c = '\'') : ∃ ts rest,
    Derives production (call .string) (c :: cs) (some (ts, rest)) ∧ Tokenized rest := by
  obtain ⟨ts, rest, hd, hrest⟩ := h.lexeme
  have hliteral : Derives production (call .literal) (c :: cs) (some (ts, rest)) := by
    rcases hc with rfl | rfl <;> exact hd
  cases hliteral with
  | call hd =>
    cases hd with
    | seq hquoted hd =>
      cases hd with
      | seq hletter hskip =>
        cases hletter with
        | choiceFirst hletter =>
          obtain ⟨_, mid, rfl, rfl, -⟩ := Begins.chars _ _ _ _ _ hletter
          obtain ⟨-, hmid⟩ := Prod.mk.inj (Option.some.inj
            (hletter.unique (Derives.chars ['i'] mid)))
          obtain ⟨us, hstay⟩ := derives_skip (atToken_letter mid)
          exact ⟨_, _, .call (.seq hquoted hstay), letter (hmid ▸ hskip) hrest⟩
        | choiceSecond _ hempty =>
          cases hempty
          exact ⟨_, _, .call (.seq hquoted hskip), hrest⟩

end Tokenized

end Packrat.Notation
