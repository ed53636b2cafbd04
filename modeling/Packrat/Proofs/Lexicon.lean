import Mathlib
import Packrat.Proofs.Recognition

/-!
# Lexemes are recognised

The readers of lexemes recognise the productions of their names, whatever lies ahead: blanks and
comments, code blocks, names, strings with their escapes and the members of classes. None of them
leaves a note. Values matter where ranges will be compared: what is read as the member of a class is
the character that its spelling denotes.

Code blocks nest, so their reader goes no deeper than there are characters. Each brace takes one,
which is why `braced` recognises blocks of any depth.

## Main results

* `reads_skip`, `reads_action`, `reads_identifier`, `reads_literal`, `reads_string`: lexemes are
  recognised
* `reads_classMember`: a member of a class is the character that it denotes
-/

namespace Packrat.Notation

open Peg ParseTree Reader

variable {n : Nat}

/-! ### Characters by their ranges -/

theorem range_self (a c : Char) : (decide (a ≤ c) && decide (c ≤ a)) = (c == a) := by
  rw [Bool.eq_iff_iff]
  simp only [Bool.and_eq_true, decide_eq_true_eq, beq_iff_eq]
  constructor
  · rintro ⟨h, h'⟩
    exact Char.le_antisymm h' h
  · rintro rfl
    exact ⟨Char.le_refl _, Char.le_refl _⟩

/-- Two neighbours make a range. -/
theorem range_pair {a b : Char} (h : b.toNat = a.toNat + 1) (c : Char) :
    (decide (a ≤ c) && decide (c ≤ b)) = (c == a || c == b) := by
  have hle : ∀ x y : Char, x ≤ y ↔ x.toNat ≤ y.toNat := fun _ _ => UInt32.le_iff_toNat_le
  have heq : ∀ x y : Char, x = y ↔ x.toNat = y.toNat := fun x y => Char.toNat_inj.symm
  rw [Bool.eq_iff_iff]
  simp only [Bool.and_eq_true, Bool.or_eq_true, decide_eq_true_eq, beq_iff_eq, hle, heq]
  omega

theorem isUpper_eq (c : Char) : c.isUpper = (decide ('A' ≤ c) && decide (c ≤ 'Z')) := by
  rw [Char.isUpper, Bool.decide_and]
  rfl

theorem isLower_eq (c : Char) : c.isLower = (decide ('a' ≤ c) && decide (c ≤ 'z')) := rfl

theorem isDigit_eq (c : Char) : c.isDigit = (decide ('0' ≤ c) && decide (c ≤ '9')) := rfl

theorem singles_lineEndChar : Singles lineEndChar isLineEnd := by
  refine (Singles.char _).congr fun c => ?_
  simp only [List.any_cons, List.any_nil, Bool.or_false, range_self, isLineEnd, Bool.or_assoc,
    range_pair (a := '\u2028') (b := '\u2029') rfl]

theorem singles_digit : Singles digit Char.isDigit := by
  refine (Singles.char _).congr fun c => ?_
  simp only [List.any_cons, List.any_nil, Bool.or_false, isDigit_eq]

theorem singles_hexDigit : Singles hexDigit isHexDigit := by
  refine (Singles.char _).congr fun c => ?_
  simp only [List.any_cons, List.any_nil, Bool.or_false, isHexDigit, isDigit_eq, Bool.or_assoc]

theorem singles_blank : Singles blank isSpace := by
  refine (Singles.char _).congr fun c => ?_
  simp only [List.any_cons, List.any_nil, Bool.or_false, range_self, isSpace,
    range_pair (a := '\x0b') (b := '\x0c') rfl]
  generalize (decide ('\u2000' ≤ c) && decide (c ≤ '\u200a')) = spaces
  ac_rfl

theorem singles_identifierHead :
    Singles (set [('a', 'z'), ('A', 'Z'), ('_', '_'), ('$', '$')]) isIdentifierHead := by
  refine (Singles.char _).congr fun c => ?_
  simp only [List.any_cons, List.any_nil, Bool.or_false, range_self, isIdentifierHead, Char.isAlpha,
    isUpper_eq, isLower_eq]
  ac_rfl

theorem singles_identifierTail :
    Singles (set [('a', 'z'), ('A', 'Z'), ('0', '9'), ('_', '_'), ('$', '$')])
      isIdentifierTail := by
  refine (Singles.char _).congr fun c => ?_
  simp only [List.any_cons, List.any_nil, Bool.or_false, range_self, isIdentifierTail,
    isIdentifierHead, Char.isAlpha, isUpper_eq, isLower_eq, isDigit_eq]
  ac_rfl

/-- A character other than `c`, a backslash or the end of a line. -/
theorem singles_plain (c : Char) :
    Singles (inOrder [absent (firstOf [.chars [c], text "\\", lineEndChar]), .any])
      fun d => d != c && d != '\\' && !isLineEnd d := by
  have hstops := (Singles.text c).choice ((Singles.text '\\').choice singles_lineEndChar)
  refine hstops.anyBut.congr fun d => ?_
  simp only [Bool.not_or, bne, Bool.and_assoc]

/-! ### Between tokens -/

theorem orElse_fail {α : Type} (p : Reader α) : (p <|> fail) = p := by
  funext s
  change Reader.orElse p (fun _ => fail) s = _
  unfold Reader.orElse
  split
  · next h => exact h.symm
  · next h => exact h.symm

theorem reads_oneOf (ts : List String) : Reads n (oneOf ts) (firstOf (ts.map text))
    (ofText fun t cs => t ∈ ts ∧ cs = t.toList) silent := by
  induction ts with
  | nil => exact ⟨nofun, fun _ hrun => by
      obtain ⟨-, rfl⟩ := Prod.mk.inj hrun
      exact ⟨.absentFails .empty, rfl⟩⟩
  | cons t ts ih =>
    have hfirst : Reads n (do Reader.text t; return t) (text t)
        (ofText fun t' cs => t' ∈ t :: ts ∧ cs = t'.toList) silent := by
      refine (reads_text t).map ?_
      rintro _ _ rfl
      exact ⟨List.mem_cons_self, textAll_leaf _⟩
    cases ts with
    | nil =>
      rw [oneOf, oneOf, orElse_fail]
      exact hfirst
    | cons t' ts =>
      refine hfirst.or ((failsInPlace_text t).thenStill fun _ => still_pure t) (ih.value ?_)
      exact fun _ _ h => ⟨List.mem_cons_of_mem t h.1, h.2⟩

/-- A line end is one of its spellings. -/
theorem reads_lineEnd : Reads n lineEnd (.call .lineEnd)
    (ofText fun t cs => t ∈ lineEnds ∧ cs = t.toList) silent :=
  (reads_oneOf lineEnds).named.lexemeText

theorem failsInPlace_lineEnd : FailsInPlace lineEnd := failsInPlace_named _ _

theorem failsInPlace_lineComment : FailsInPlace (do
    Reader.text "//"
    let _ ← Reader.many (charWhere (!isLineEnd ·) State.anyCharacter)) :=
  (failsInPlace_text "//").bind fun _ => bind_ne_none (many_ne_none _) fun _ => still_pure _

theorem reads_comment : Reads n comment (.call .comment) anyValue silent := by
  have hline : Reads n (do
      Reader.text "//"
      let _ ← Reader.many (charWhere (!isLineEnd ·) State.anyCharacter))
      (inOrder [text "//", many (inOrder [absent lineEndChar, .any])]) anyValue silent := by
    refine (reads_text "//").next fun _ => Reads.thenStill (V := anyValue) ?_ fun _ => still_pure _
    refine (reads_charWhere singles_lineEndChar.anyBut _).many (failsInPlace_charWhere _ _) ?_
      .silent
    exact (Begins.char _).seq_absent.length_lt
  have hblock : Reads n (do
      Reader.text "/*"
      let _ ← Reader.many do
        if ← peek (Reader.text "*/") then fail else anyChar
      Reader.text "*/")
      (inOrder [text "/*", many (inOrder [absent (text "*/"), .any]), text "*/"])
      anyValue silent := by
    refine (reads_text "/*").next fun _ => Reads.next (V := anyValue) ?_ fun _ => ?_
    · refine ((reads_text "*/").unless (reads_charWhere .any _) rfl).many
        (failsInPlace_charWhere _ _).unless ?_ .silent
      exact (Begins.char _).seq_absent.length_lt
    · exact (reads_text "*/").any
  exact (hline.or failsInPlace_lineComment hblock).named.lexeme

/-- Whatever may stand between tokens takes a character at least. -/
theorem begins_between : Begins production (firstOf [blank, call .lineEnd, call .comment])
    fun _ => True := by
  have htext : ∀ (c : Char) (cs : List Char), Begins production (.chars (c :: cs)) fun _ => True :=
    fun c cs => (Begins.chars c cs).mono fun _ _ => trivial
  have hblank : Begins production blank fun _ => True := (Begins.char _).mono fun _ _ => trivial
  have hlineEnd : Begins production (production .lineEnd) fun _ => True :=
    (htext _ _).choice ((htext _ _).choice ((htext _ _).choice ((htext _ _).choice (htext _ _))))
  have hcomment : Begins production (production .comment) fun _ => True :=
    (htext _ _).seq.choice (htext _ _).seq
  exact hblank.choice (hlineEnd.call.choice hcomment.call)

theorem failsInPlace_blank : FailsInPlace (do let _ ← charWhere isSpace "whitespace") :=
  (failsInPlace_charWhere _ _).thenStill fun _ => still_pure _

theorem failsInPlace_break : FailsInPlace (do let _ ← lineEnd) :=
  failsInPlace_lineEnd.thenStill fun _ => still_pure _

theorem failsInPlace_between : FailsInPlace
    ((do let _ ← charWhere isSpace "whitespace") <|> (do let _ ← lineEnd) <|> comment) :=
  failsInPlace_blank.orElse (failsInPlace_break.orElse (failsInPlace_named _ _))

theorem reads_between : Reads n
    ((do let _ ← charWhere isSpace "whitespace") <|> (do let _ ← lineEnd) <|> comment)
    (firstOf [blank, call .lineEnd, call .comment]) anyValue silent := by
  have hblank : Reads n (do let _ ← charWhere isSpace "whitespace") blank anyValue silent :=
    (reads_charWhere singles_blank _).thenStill fun _ => still_pure _
  have hlineEnd : Reads n (do let _ ← lineEnd) (call .lineEnd) anyValue silent :=
    reads_lineEnd.thenStill fun _ => still_pure _
  exact hblank.or failsInPlace_blank (hlineEnd.or failsInPlace_break reads_comment)

theorem reads_skip : Reads n skip (.call .skip) anyValue silent := by
  refine Reads.lexeme (Reads.thenStill (V := anyValue) ?_ fun _ => still_pure _)
  exact reads_between.many failsInPlace_between begins_between.length_lt .silent

theorem skip_ne_none : ∀ s s', skip s ≠ (none, s') :=
  bind_ne_none (many_ne_none _) fun _ => still_pure _

theorem reads_token (value : String) : Reads n (token value) (fixed value) anyValue silent :=
  (reads_text value).next fun _ => reads_skip

theorem failsInPlace_token (value : String) : FailsInPlace (token value) :=
  (failsInPlace_text value).bind fun _ => skip_ne_none

/-! ### Code and names -/

theorem failsInPlace_bracedWithin (depth : Nat) : FailsInPlace (bracedWithin depth) := by
  cases depth with
  | zero =>
    intro s s' h
    obtain ⟨-, rfl⟩ := Prod.mk.inj h
    rfl
  | succ depth => exact failsInPlace_attempt _

theorem begins_braced : Begins production (call .braced) (· = '{') := (Begins.chars _ _).seq.call

/-- The opening brace takes a character, so a text shorter than the bound on the depth leaves one
shorter than the next bound. -/
theorem reads_bracedWithin (depth : Nat) :
    Reads depth (bracedWithin depth) (.call .braced) anyValue silent := by
  induction depth with
  | zero => exact .zero
  | succ depth ih =>
    have hother : Reads depth (do let _ ← charWhere (fun c => c != '{' && c != '}') "[^\x7b\x7d]")
        (.char fun c => !(c == '{' || c == '}')) anyValue silent :=
      (reads_charWhere ((Singles.char _).congr fun c => Bool.not_or ..) _).thenStill
        fun _ => still_pure _
    have hplace : FailsInPlace (do
        let _ ← charWhere (fun c => c != '{' && c != '}') "[^\x7b\x7d]") :=
      (failsInPlace_charWhere _ _).thenStill fun _ => still_pure _
    have hbegins : Begins production
        (firstOf [call .braced, char fun c => !(c == '{' || c == '}')]) fun _ => True :=
      (begins_braced.mono fun _ _ => trivial).choice ((Begins.char _).mono fun _ _ => trivial)
    have hcode : Reads depth (Reader.many <|
        bracedWithin depth <|>
          (do let _ ← charWhere (fun c => c != '{' && c != '}') "[^\x7b\x7d]"))
        (many (firstOf [call .braced, atLeastOne (char fun c => !(c == '{' || c == '}'))]))
        anyValue silent := by
      -- The reader takes other characters one by one, the production as many as there are.
      refine ((ih.or (failsInPlace_bracedWithin _) hother).many
        ((failsInPlace_bracedWithin _).orElse hplace) hbegins.length_lt .silent).derive
        fun h => h.many_runs begins_braced (Begins.char _) fun hd => ?_
      obtain ⟨_, _, rfl, rfl, -⟩ := begins_braced _ _ _ hd
      exact .charOther rfl
    have hinside : ∀ _ : Unit, Reads depth (do
        let _ ← Reader.many <|
          bracedWithin depth <|>
            (do let _ ← charWhere (fun c => c != '{' && c != '}') "[^\x7b\x7d]")
        Reader.text "\x7d")
        (inOrder [many (firstOf [call .braced,
          atLeastOne (char fun c => !(c == '{' || c == '}'))]), text "\x7d"]) anyValue silent :=
      fun _ => hcode.next fun _ => (reads_text "\x7d").any
    refine Reads.lexeme ((reads_text "\x7b").bind hinside (fun hn hd => ?_) .silent).attempt
    exact Nat.lt_of_lt_of_le ((Begins.chars _ _).length_lt hd) (Nat.le_of_lt_succ hn)

theorem reads_braced : Reads n braced (.call .braced) anyValue silent :=
  .of_bound fun n => reads_bracedWithin n

theorem failsInPlace_action : FailsInPlace action := failsInPlace_named _ _

theorem reads_action : Reads n action (.call .action) anyValue silent := by
  refine Reads.lexeme (V := anyValue) (Reads.named (.still still_cursor fun begun => ?_))
  refine reads_braced.next fun _ => .still (still_cursor.bind fun _ => still_pure _) fun _ => ?_
  exact reads_skip.thenStill fun _ => still_pure _

theorem begins_action : Begins production (call .action) (· = '{') := begins_braced.seq.call

theorem reads_identifier : Reads n identifier (.call .identifier) anyValue silent := by
  refine Reads.lexeme (Reads.named ((reads_charWhere singles_identifierHead _).next fun _ => ?_))
  refine ((reads_charWhere singles_identifierTail _).many (failsInPlace_charWhere _ _)
    (Begins.char _).length_lt .silent).next fun _ => ?_
  exact reads_skip.thenStill fun _ => still_pure _

theorem begins_identifier : Begins production (call .identifier) (isIdentifierHead · = true) := by
  exact singles_identifierHead.begins.seq.call

/-! ### Escapes -/

/-- An escaped character other than a digit, an `x` or a `u` denotes what it is the escape of. -/
theorem denoted_escaped {c : Char} {cs : List Char} (hx : c ≠ 'x') (hu : c ≠ 'u')
    (hdigit : c ≠ '0') : denoted ('\\' :: c :: cs) = escapedChar c := by
  rw [denoted] <;> simp_all

/-- The value is what the text denotes. -/
def Denoted (c : Char) (cs : List Char) : Prop := c = denoted cs

theorem reads_simpleEscape :
    Reads n simpleEscape (.call .simpleEscape) (ofText Denoted) silent := by
  have hstops : Singles (inOrder [absent (firstOf [digit, text "x", text "u", lineEndChar]), .any])
      fun c => !(c.isDigit || c == 'x' || c == 'u' || isLineEnd c) := by
    refine (singles_digit.choice ((Singles.text 'x').choice ((Singles.text 'u').choice
      singles_lineEndChar))).anyBut.congr fun c => ?_
    simp only [Bool.or_assoc]
  have hescaped : ∀ _ : Unit, Reads n (do
      let c ← charWhere (fun c => !(c.isDigit || c == 'x' || c == 'u' || isLineEnd c))
        State.anyCharacter
      return escapedChar c)
      (inOrder [absent (firstOf [digit, text "x", text "u", lineEndChar]), .any])
      (fun c ts => c = denoted ('\\' :: textAll ts)) silent := by
    refine fun _ => (reads_charWhere hstops _).map ?_
    rintro c _ ⟨rfl, hc⟩
    simp only [Bool.not_eq_true', Bool.or_eq_false_iff, beq_eq_false_iff_ne] at hc
    refine (denoted_escaped hc.1.1.2 hc.1.2 ?_).symm
    rintro rfl
    nomatch hc.1.1.1
  refine Reads.lexemeText (((reads_text "\\").behind hescaped .silent).attempt.value ?_)
  rintro c _ ⟨-, _, ts, rfl, rfl, hc⟩
  exact hc

theorem reads_zeroEscape : Reads n zeroEscape (.call .zeroEscape) (ofText Denoted) silent := by
  have hzero : ∀ _ : Unit, Reads n
      (peek (charWhere Char.isDigit "[0-9]") >>= fun answer =>
        if answer then fail else Pure.pure '\x00')
      (.absent digit) (fun c ts => c = '\x00' ∧ ts = []) silent := fun _ =>
    (reads_charWhere singles_digit _).absent ⟨rfl, rfl⟩
  refine Reads.lexemeText (((reads_text "\\0").behind hzero .silent).attempt.value ?_)
  rintro c _ ⟨-, _, _, rfl, rfl, rfl, rfl⟩
  rfl

theorem reads_hexDigitRun (count : Nat) : Reads n (hexDigitRun count) (times count hexDigit)
    (fun digits ts => ts = digits.map .leaf) silent := by
  induction count with
  | zero => exact .pure rfl
  | succ count ih =>
    have hrest : ∀ d, Reads n (do return d :: (← hexDigitRun count)) (times count hexDigit)
        (fun digits ts => .leaf d :: ts = digits.map .leaf) silent := fun d =>
      ih.map fun digits ts hts => congrArg _ hts
    refine ((reads_charWhere singles_hexDigit _).behind hrest .silent).value ?_
    rintro digits _ ⟨d, _, ts, rfl, ⟨rfl, -⟩, hts⟩
    exact hts

/-- A hexadecimal escape denotes the character with its code. -/
theorem reads_hexEscape {a : Symbol} {introduction : String} {count : Nat}
    (ha : production a = .seq (text introduction) (times count hexDigit))
    (hdenoted : ∀ digits,
      denoted (introduction.toList ++ digits) = charOfCode (hexNumber digits)) :
    Reads n (hexEscape introduction count) (.call a) (ofText Denoted) silent := by
  have hdigits : ∀ _ : Unit, Reads n (do return charOfCode (hexNumber (← hexDigitRun count)))
      (times count hexDigit) (ofText fun c digits => c = charOfCode (hexNumber digits)) silent := by
    refine fun _ => (reads_hexDigitRun count).map ?_
    rintro digits _ rfl
    rw [ofText, textAll_leaf]
  have hescape := ((reads_text (n := n) introduction).behind hdigits .silent).attempt
  rw [← ha] at hescape
  refine Reads.lexemeText (hescape.value ?_)
  rintro c _ ⟨-, _, ts, rfl, rfl, hc⟩
  rw [ofText, textAll_append, textAll_leaf, Denoted, hdenoted]
  exact hc

/-- An escaped line end denotes its first character. -/
theorem reads_lineEndEscape : Reads n lineEndEscape (.call .lineEndEscape)
    (ofText fun t cs => t.toList.head? = some (denoted cs)) silent := by
  refine Reads.lexemeText
    (((reads_text "\\").behind (fun _ => reads_lineEnd) .silent).attempt.value ?_)
  rintro t _ ⟨-, _, ts, rfl, rfl, ht, htext⟩
  change t.toList.head? = some (denoted ('\\' :: textAll ts))
  rw [htext]
  have hheads : ∀ t ∈ lineEnds, t.toList.head? = some (denoted ('\\' :: t.toList)) := by decide
  exact hheads t ht

theorem begins_escape : Begins production (call .escapeSequence) (· = '\\') := by
  have hescape : ∀ c cs f, Begins production (.seq (.chars (c :: cs)) f) (· = c) :=
    fun c cs f => (Begins.chars c cs).seq
  exact Begins.call ((hescape _ _ _).call.choice ((hescape _ _ _).call.choice
    ((hescape _ _ _).call.choice ((hescape _ _ _).call.choice (hescape _ _ _).call))))

theorem failsInPlace_characterEscape : FailsInPlace
    (simpleEscape <|> zeroEscape <|> hexEscape "\\x" 2 <|> hexEscape "\\u" 4) :=
  (failsInPlace_attempt _).orElse ((failsInPlace_attempt _).orElse
    ((failsInPlace_attempt _).orElse (failsInPlace_attempt _)))

theorem failsInPlace_escape : FailsInPlace escape :=
  (failsInPlace_characterEscape.thenStill fun _ => still_pure _).orElse
    ((failsInPlace_attempt _).thenStill fun _ => still_pure _)

/-- The first character of an escape is what it denotes. -/
theorem reads_escape : Reads n escape (.call .escapeSequence)
    (ofText fun cs spelled => cs.head? = some (denoted spelled)) silent := by
  have hcharacter : Reads n
      (do return [← simpleEscape <|> zeroEscape <|> hexEscape "\\x" 2 <|> hexEscape "\\u" 4])
      (firstOf [call .simpleEscape, call .zeroEscape, call .hexEscape, call .unicodeEscape])
      (ofText fun cs spelled => cs.head? = some (denoted spelled)) silent := by
    refine Reads.map (V := ofText Denoted) ?_ fun _ _ => congrArg some
    exact reads_simpleEscape.or (failsInPlace_attempt _)
      (reads_zeroEscape.or (failsInPlace_attempt _)
        ((reads_hexEscape rfl fun _ => rfl).or (failsInPlace_attempt _)
          (reads_hexEscape rfl fun _ => rfl)))
  have hplace := failsInPlace_characterEscape.thenStill fun c => still_pure [c]
  have hlineEnd : Reads n (do return (← lineEndEscape).toList) (.call .lineEndEscape)
      (ofText fun cs spelled => cs.head? = some (denoted spelled)) silent :=
    reads_lineEndEscape.map fun _ _ ht => ht
  refine Reads.lexemeText ((hcharacter.or hplace hlineEnd).derive fun h => ?_)
  -- The reader takes the escapes that make one character together; the production lists them all.
  exact h.choice_assoc.choice_mono id fun h => h.choice_assoc.choice_mono id fun h => h.choice_assoc

/-! ### Strings -/

theorem failsInPlace_stringCharacter (delimiter : Char) :
    FailsInPlace (stringCharacter delimiter) :=
  ((failsInPlace_charWhere _ _).thenStill fun _ => still_pure _).orElse failsInPlace_escape

section

variable {a : Symbol} {delimiter : Char}
  (ha : production a = firstOf [
    inOrder [absent (firstOf [.chars [delimiter], text "\\", lineEndChar]), .any],
    call .escapeSequence])

include ha

theorem reads_stringCharacter :
    Reads n (stringCharacter delimiter) (.call a) anyValue silent := by
  refine Reads.lexeme (V := anyValue) ?_
  rw [ha]
  have hplain : Reads n (do
      let c ← charWhere (fun c => c != delimiter && c != '\\' && !isLineEnd c) State.anyCharacter
      return [c])
      (inOrder [absent (firstOf [.chars [delimiter], text "\\", lineEndChar]), .any])
      anyValue silent :=
    (reads_charWhere (singles_plain delimiter) _).thenStill fun _ => still_pure _
  exact hplain.or ((failsInPlace_charWhere _ _).thenStill fun _ => still_pure _) reads_escape.any

theorem begins_stringCharacter : Begins production (.call a) fun _ => True := by
  refine Begins.call ?_
  rw [ha]
  exact ((singles_plain delimiter).begins.mono fun _ _ => trivial).choice
    (begins_escape.mono fun _ _ => trivial)

theorem reads_delimited : Reads n (delimited delimiter)
    (inOrder [.chars [delimiter], many (call a), .chars [delimiter]]) anyValue silent := by
  refine ((reads_charWhere (Singles.text delimiter) _).next fun _ => ?_).attempt
  refine ((reads_stringCharacter ha).many (failsInPlace_stringCharacter _)
    (begins_stringCharacter ha).length_lt .silent).next fun _ => ?_
  exact (reads_charWhere (Singles.text delimiter) _).thenStill fun _ => still_pure _

end

theorem reads_quotedString : Reads n quotedString (.call .quotedString) anyValue silent := by
  have hdouble := reads_delimited (n := n) (a := .doubleQuotedCharacter) rfl
  have hsingle := reads_delimited (n := n) (a := .singleQuotedCharacter) rfl
  exact (hdouble.or (failsInPlace_attempt _) hsingle).lexeme

theorem begins_quotedString :
    Begins production (call .quotedString) fun c => c = '"' ∨ c = '\'' :=
  Begins.call (((Begins.chars _ _).seq.mono fun _ => .inl).choice
    ((Begins.chars _ _).seq.mono fun _ => .inr))

theorem failsInPlace_literal : FailsInPlace literal := failsInPlace_named _ _

theorem reads_literal : Reads n literal (.call .literal) anyValue silent := by
  refine Reads.lexeme (Reads.named (reads_quotedString.next fun _ => ?_))
  refine ((reads_text "i").succeeds (failsInPlace_text "i") id).next fun _ => ?_
  exact reads_skip.thenStill fun _ => still_pure _

theorem begins_literal : Begins production (call .literal) fun c => c = '"' ∨ c = '\'' :=
  begins_quotedString.seq.call

theorem failsInPlace_string : FailsInPlace string := failsInPlace_named _ _

theorem reads_string : Reads n string (.call .string) anyValue silent := by
  refine Reads.lexeme (Reads.named (reads_quotedString.next fun _ => ?_))
  exact reads_skip.thenStill fun _ => still_pure _

/-! ### Members of classes -/

theorem failsInPlace_classMember : FailsInPlace classMember := by
  refine (failsInPlace_charWhere _ _).orElse fun s s' h => ?_
  rw [bind_apply] at h
  split at h
  · next cs t ht =>
    obtain ⟨ts, -, hcs, -⟩ := reads_escape.matched (Nat.lt_succ_self _) ht
    obtain ⟨rest, rfl⟩ := List.head?_eq_some_iff.mp hcs
    cases h
  · next t ht =>
    obtain ⟨-, rfl⟩ := Prod.mk.inj h
    exact failsInPlace_escape _ _ ht

/-- A member of a class is the character that its spelling denotes. -/
theorem reads_classMember : Reads n classMember (firstOf [
      inOrder [absent (firstOf [text "]", text "\\", lineEndChar]), .any], call .escapeSequence])
    (ofText Denoted) silent := by
  have hplain : Reads n (charWhere (fun c => c != ']' && c != '\\' && !isLineEnd c)
      State.anyCharacter) (inOrder [absent (firstOf [text "]", text "\\", lineEndChar]), .any])
      (ofText Denoted) silent := by
    refine (reads_charWhere (singles_plain ']') _).value ?_
    rintro c _ ⟨rfl, hc⟩
    have hescape : c ≠ '\\' := by
      rintro rfl
      nomatch hc
    change c = denoted [c]
    rw [denoted] <;> simp_all
  refine hplain.or (failsInPlace_charWhere _ _) (reads_escape.finish ?_)
  rintro cs ts hcs s
  obtain ⟨rest, rfl⟩ := List.head?_eq_some_iff.mp hcs
  exact ⟨_, rfl, rfl⟩

end Packrat.Notation
