import Mathlib.Algebra.Group.Nat.Defs
import Packrat.Proofs.Acceptance
import Packrat.Proofs.Notes
import Packrat.Proofs.Rendering

/-!
# Lexemes that were written

The readers of lexemes in front of text that was written for them: names, code blocks, strings and
classes give back what they were written from, and in front of anything else they give way to the
next reader without having moved.

## Code

A block ends at the brace that closes it, so its text is read back whole exactly because its own
braces match. Counting braces is how that is checked; `Balanced` is the shape that the reader
follows, and `balanced_of_isBalanced` gets the one from the other.

## Characters

How a member of a class is spelled is left open (`accepts_charClass`): what a reader of classes
needs is that no spelling is cut short or taken further by what comes behind it.

## Main results

* `accepts_identifier`, `accepts_action`, `accepts_literal`, `accepts_string`, `accepts_charClass`:
  lexemes are read back
* `accepts_unitEscape`: a character up to `U+FFFF` is read back from four hexadecimal digits
-/

namespace Packrat.Notation

open Reader

variable {cs rest gap : List Char}

/-! ### Characters -/

/-- That all characters of a list have a property is decided on the list, also where an instance for
all characters there are is in scope. -/
instance (priority := 1100) decidableForallMem {ds : List Char} {P : Char → Prop}
    [DecidablePred P] : Decidable (∀ c ∈ ds, P c) :=
  List.decidableBAll P ds

/-- What holds of a character holds of the first one where it is ahead. -/
theorem forall_head {P : Char → Prop} {c : Char} (h : P c) : ∀ d ∈ (c :: cs).head?, P d :=
  fun _ hd => Option.some.inj hd ▸ h

/-- What holds of every ASCII character. -/
theorem of_ascii {P : Char → Prop} (h : ∀ n < 128, P (Char.ofNat n)) (c : Char)
    (hc : c.toNat < 128) : P c := c.ofNat_toNat ▸ h c.toNat hc

theorem ne_of_head_notMem {ds : List Char} (h : ∀ c ∈ cs.head?, c ∉ ds) {d : Char} (hd : d ∈ ds) :
    ∀ c ∈ cs.head?, c ≠ d := by
  rintro c hc rfl
  exact h c hc hd

theorem ne_of_head_mem {ds : List Char} (h : ∀ c ∈ cs.head?, c ∈ ds) {d : Char} (hd : d ∉ ds) :
    ∀ c ∈ cs.head?, c ≠ d := by
  rintro c hc rfl
  exact hd (h c hc)

theorem notMem_of_head_mem {ds ds' : List Char} (h : ∀ c ∈ cs.head?, c ∈ ds)
    (hds : ∀ d ∈ ds, d ∉ ds') : ∀ c ∈ cs.head?, c ∉ ds' := fun c hc => hds c (h c hc)

theorem ascii_of_isIdentifierTail {c : Char} (h : isIdentifierTail c = true) : c.toNat < 128 := by
  simp only [isIdentifierTail, isIdentifierHead, Char.isAlpha, Char.isUpper, Char.isLower,
    Char.isDigit, Bool.or_eq_true, decide_eq_true_eq, Bool.and_eq_true, beq_iff_eq, ge_iff_le,
    UInt32.le_iff_toNat_le] at h
  rcases h with (((h | h) | rfl) | rfl) | h
  · simp at h
    omega
  · simp at h
    omega
  · decide
  · decide
  · simp at h
    omega

theorem isIdentifierTail_of_head {c : Char} (h : isIdentifierHead c = true) :
    isIdentifierTail c = true := by
  rw [isIdentifierTail, h, Bool.true_or]

/-- What no name contains. -/
def marks : List Char :=
  ['"', '\'', '[', ']', '.', '(', ')', '&', '!', '?', '*', '+', '/', ':', '=', ';', '{', '}', '\\',
    '^', '-']

theorem notMem_marks_of_isIdentifierTail {c : Char} (h : isIdentifierTail c = true) :
    c ∉ marks ∧ isSpace c = false ∧ isLineEnd c = false :=
  of_ascii (P := fun c => isIdentifierTail c = true →
    c ∉ marks ∧ isSpace c = false ∧ isLineEnd c = false) (by decide) c
    (ascii_of_isIdentifierTail h) h

/-! ### Between tokens -/

/-- No blank, line end or comment is ahead. -/
structure AtToken (cs : List Char) : Prop where
  head (c : Char) : c ∈ cs.head? → isSpace c = false ∧ isLineEnd c = false
  line : ¬ "//".toList <+: cs
  block : ¬ "/*".toList <+: cs

theorem atToken_nil : AtToken [] := ⟨nofun, nofun, nofun⟩

theorem atToken_cons {c : Char} (h : isSpace c = false) (h' : isLineEnd c = false) (hc : c ≠ '/') :
    AtToken (c :: cs) where
  head d hd := by
    obtain rfl := Option.some.inj hd
    exact ⟨h, h'⟩
  line := fun ⟨_, hprefix⟩ => hc (List.cons.inj hprefix).1.symm
  block := fun ⟨_, hprefix⟩ => hc (List.cons.inj hprefix).1.symm

/-- A slash that a blank follows begins no comment. -/
theorem atToken_slash : AtToken ('/' :: ' ' :: cs) where
  head d hd := by
    obtain rfl := Option.some.inj hd
    decide
  line := by
    rintro ⟨_, hprefix⟩
    nomatch hprefix
  block := by
    rintro ⟨_, hprefix⟩
    nomatch hprefix

theorem rejects_oneOf {ts : List String} (h : ∀ t ∈ ts, ¬ t.toList <+: cs) :
    (oneOf ts).Rejects cs := by
  induction ts with
  | nil => exact rejects_fail
  | cons t ts ih =>
    exact (rejects_text (h t List.mem_cons_self)).bind.or
      (ih fun t' ht' => h t' (List.mem_cons_of_mem t ht'))

theorem rejects_lineEnd (h : ∀ c ∈ cs.head?, isLineEnd c = false) : lineEnd.Rejects cs := by
  have hheads : ∀ t ∈ lineEnds, t.toList.head?.any isLineEnd = true := by decide
  refine (rejects_oneOf fun t ht => ?_).fails.named _
  rintro ⟨behind, rfl⟩
  have hhead := hheads t ht
  rw [Option.any_eq_true] at hhead
  obtain ⟨c, hc, hend⟩ := hhead
  rw [h c (by rw [List.head?_append, hc]; rfl)] at hend
  nomatch hend

theorem rejects_comment (h : AtToken cs) : comment.Rejects cs :=
  ((rejects_text h.line).bind.or (rejects_text h.block).bind).fails.named _

/-- Blanks are skipped up to the next token. -/
theorem accepts_skip (hblanks : cs.all isSpace = true) (h : AtToken rest) :
    skip.Accepts cs rest anything := by
  refine Repeats.many (W := anything) ?_ |>.finish fun _ _ => .pure trivial
  induction cs with
  | nil =>
    refine .nil (.or ?_ (.or ?_ (rejects_comment h))) trivial
    · exact (rejects_charWhere (fun c hc => (h.head c hc).1) _).bind
    · exact (rejects_lineEnd fun c hc => (h.head c hc).2).bind
  | cons c cs ih =>
    obtain ⟨hc, hcs⟩ := Bool.and_eq_true_iff.mp hblanks
    have hblank : (do let _ ← charWhere isSpace "whitespace").Accepts [c] (cs ++ rest) anything :=
      (accepts_charWhere hc _).map fun _ _ => trivial
    exact .cons hblank.orElse (List.cons_ne_nil c []) (ih hcs) fun _ _ _ _ => trivial

/-- The blank behind a token is skipped. -/
theorem accepts_blank (h : AtToken rest) : skip.Accepts [' '] rest anything := accepts_skip rfl h

theorem accepts_token {value : String} {token : List Char} (hvalue : value.toList = token)
    (h : AtToken rest) : (Notation.token value).Accepts (spaced token) rest anything :=
  (accepts_text hvalue).bind fun _ _ => accepts_blank h

theorem rejects_token {value : String} {c : Char} {cs' : List Char}
    (hvalue : value.toList = c :: cs') (h : ∀ d ∈ cs.head?, d ≠ c) : (token value).Rejects cs :=
  (rejects_text_of_head hvalue h).bind

/-! ### Code -/

/-- Text in which the braces match. -/
inductive Balanced : List Char → Prop
  | nil : Balanced []
  | other {c : Char} {cs : List Char} : c ≠ '{' → c ≠ '}' → Balanced cs → Balanced (c :: cs)
  | block {inside behind : List Char} : Balanced inside → Balanced behind →
      Balanced ('{' :: (inside ++ '}' :: behind))

/-- Up to the brace that closes the innermost open one, or up to the end, the braces match. -/
theorem exists_of_balancedFrom {cs : List Char} {opened : Nat}
    (h : balancedFrom opened cs = true) : ∃ inside behind, cs = inside ++ behind ∧
      Balanced inside ∧ ((opened = 0 ∧ behind = []) ∨
        ∃ outer later, opened = outer + 1 ∧ behind = '}' :: later ∧
          balancedFrom outer later = true) := by
  induction hlength : cs.length using Nat.strongRecOn generalizing cs opened with
  | ind n ih =>
    subst hlength
    cases cs with
    | nil => exact ⟨[], [], rfl, .nil, .inl ⟨beq_iff_eq.mp h, rfl⟩⟩
    | cons c cs =>
      rw [balancedFrom] at h
      split at h
      · next hopens =>
        -- What the brace encloses is matched, and so is what comes behind its counterpart.
        subst hopens
        obtain ⟨inside, _, rfl, hinside, ⟨h0, -⟩ | ⟨outer, later, houter, rfl, hlater⟩⟩ :=
          ih _ (Nat.lt_succ_self _) h rfl
        · nomatch h0
        obtain rfl := Nat.succ.inj houter
        have hshorter : later.length < ('{' :: (inside ++ '}' :: later)).length := by
          simp only [List.length_cons, List.length_append]
          omega
        obtain ⟨inside', behind, rfl, hinside', hend⟩ := ih _ hshorter hlater rfl
        exact ⟨'{' :: (inside ++ '}' :: inside'), behind, by simp, hinside.block hinside', hend⟩
      · next hopens =>
        split at h
        · next hcloses =>
          subst hcloses
          obtain ⟨hopened, hlater⟩ := Bool.and_eq_true_iff.mp h
          obtain ⟨outer, rfl⟩ := Nat.exists_eq_succ_of_ne_zero (bne_iff_ne.mp hopened)
          exact ⟨[], _, rfl, .nil, .inr ⟨outer, cs, rfl, rfl, hlater⟩⟩
        · next hcloses =>
          obtain ⟨inside, behind, rfl, hinside, hend⟩ := ih _ (Nat.lt_succ_self _) h rfl
          exact ⟨c :: inside, behind, rfl, hinside.other hopens hcloses, hend⟩

theorem balanced_of_isBalanced {code : String} (h : isBalanced code = true) :
    Balanced code.toList := by
  obtain ⟨inside, _, hcode, hinside, ⟨-, rfl⟩ | ⟨outer, _, houter, -⟩⟩ := exists_of_balancedFrom h
  · rw [List.append_nil] at hcode
    exact hcode ▸ hinside
  · nomatch houter

/-- Braces are taken with what they enclose, other characters one by one. -/
theorem repeats_balanced (h : Balanced cs) {depth : Nat} (hdepth : cs.length < depth)
    (rest : List Char) : Repeats (bracedWithin depth <|>
      (do let _ ← charWhere (fun c => c != '{' && c != '}') "[^\x7b\x7d]")) cs ('}' :: rest)
      anything := by
  induction h generalizing depth rest with
  | nil =>
    obtain ⟨depth, rfl⟩ := Nat.exists_eq_succ_of_ne_zero (Nat.ne_zero_of_lt hdepth)
    have hbraced : (bracedWithin (depth + 1)).Rejects ('}' :: rest) :=
      (rejects_text_of_head (c := '{') rfl (forall_head (by decide))).bind.fails.attempt
    exact .nil (hbraced.or (rejects_charWhere (forall_head rfl) _).bind) trivial
  | @other c cs hopens hcloses _ ih =>
    obtain ⟨depth, rfl⟩ := Nat.exists_eq_succ_of_ne_zero (Nat.ne_zero_of_lt hdepth)
    have hbraced : (bracedWithin (depth + 1)).Rejects (c :: (cs ++ '}' :: rest)) :=
      (rejects_text_of_head (c := '{') rfl (forall_head hopens)).bind.fails.attempt
    have hother : (do let _ ← charWhere (fun c => c != '{' && c != '}') "[^\x7b\x7d]").Accepts [c]
        (cs ++ '}' :: rest) anything :=
      (accepts_charWhere (by simp [hopens, hcloses]) _).map fun _ _ => trivial
    exact .cons (hbraced.orElse hother) (List.cons_ne_nil c [])
      (ih (Nat.lt_of_succ_lt hdepth) rest) fun _ _ _ _ => trivial
  | @block inside behind _ _ ih ih' =>
    obtain ⟨depth, rfl⟩ := Nat.exists_eq_succ_of_ne_zero (Nat.ne_zero_of_lt hdepth)
    simp only [List.length_cons, List.length_append] at hdepth
    -- The two braces are not inside, which pays for the level that the block takes.
    have hbraced : (bracedWithin (depth + 1)).Accepts ('{' :: (inside ++ ['}']))
        (behind ++ '}' :: rest) anything := by
      refine .attempt (.cons (accepts_text rfl) fun _ _ => .bind (V := anything) ?_
        fun _ _ => accepts_text rfl)
      exact (ih (by omega) _).many
    have hrepeats : Repeats _ ('{' :: (inside ++ ['}']) ++ behind) ('}' :: rest) anything :=
      .cons hbraced.orElse (List.cons_ne_nil _ _) (ih' (by omega) rest) fun _ _ _ _ => trivial
    simpa using hrepeats

theorem accepts_braced {code : String} (h : isBalanced code = true) :
    braced.Accepts (block code) rest anything := by
  refine .of_bound fun depth hdepth => ?_
  obtain ⟨depth, rfl⟩ := Nat.exists_eq_succ_of_ne_zero (Nat.ne_zero_of_lt hdepth)
  have hlength : code.toList.length < depth := by
    simp only [block, List.length_cons, List.length_append] at hdepth
    omega
  refine .attempt (.cons (accepts_text rfl) fun _ _ => .bind (V := anything) ?_
    fun _ _ => accepts_text rfl)
  exact (repeats_balanced (balanced_of_isBalanced h) hlength rest).many

/-- A code block is read back as the text between its outer braces. -/
theorem accepts_action {code : String} (h : isBalanced code = true)
    (hgap : skip.Accepts gap rest anything) :
    action.Accepts (block code ++ gap) rest (· = code) := by
  refine .named (.textSince (accepts_braced h) (hgap.map fun _ _ => ?_)) _
  rw [block, List.drop_succ_cons, List.drop_zero, List.dropLast_concat, String.ofList_toList]

theorem rejects_action (h : ∀ c ∈ cs.head?, c ≠ '{') : action.Rejects cs := by
  have hbraced : braced.Rejects cs :=
    .still fun begun => (rejects_text_of_head rfl h).bind.fails.attempt
  exact Fails.named (.still fun begun => hbraced.bind.fails) _

/-! ### Names -/

theorem exists_of_isIdentifier {name : String} (h : isIdentifier name = true) :
    ∃ c cs, name.toList = c :: cs ∧ isIdentifierHead c = true ∧ cs.all isIdentifierTail = true := by
  rw [isIdentifier] at h
  split at h
  · nomatch h
  · next c cs hname => exact ⟨c, cs, hname, Bool.and_eq_true_iff.mp h⟩

/-- A name is read back, up to the blank behind it. -/
theorem accepts_identifier {name : String} (h : isIdentifier name = true) (hrest : AtToken rest) :
    identifier.Accepts (spaced name.toList) rest (· = name) := by
  obtain ⟨c, cs, hname, hc, hcs⟩ := exists_of_isIdentifier h
  have htail : Repeats (charWhere isIdentifierTail "[a-zA-Z0-9_$]") cs (' ' :: rest) (· = cs) :=
    .chars hcs (forall_head rfl) _
  rw [spaced, hname]
  refine .named (.cons (accepts_charWhere hc _) fun first hfirst => ?_) _
  refine htail.many.bind fun more hmore => (accepts_blank hrest).map fun _ _ => ?_
  rw [hfirst, hmore, ← hname, String.ofList_toList]

theorem rejects_identifier (h : ∀ c ∈ cs.head?, isIdentifierHead c = false) :
    identifier.Rejects cs := (rejects_charWhere h _).bind.fails.named _

/-! ### Hexadecimal digits -/

theorem hexNumber_append (ds : List Char) (d : Char) :
    hexNumber (ds ++ [d]) = 16 * hexNumber ds + hexValue d := by
  rw [hexNumber, List.foldl_append]
  rfl

/-- The digits of a number stand for it. -/
theorem hexNumber_hexDigits {width n : Nat} (h : n < 16 ^ width) :
    hexNumber (Text.hexDigits width n) = n := by
  induction width generalizing n with
  | zero =>
    obtain rfl := Nat.lt_one_iff.mp h
    rfl
  | succ width ih =>
    have hvalue : ∀ d < 16, hexValue (Text.hexDigit d) = d := by decide
    have hdiv : n / 16 < 16 ^ width := by
      rw [Nat.div_lt_iff_lt_mul (by decide)]
      rwa [Nat.pow_succ] at h
    rw [Text.hexDigits, hexNumber_append, ih hdiv, hvalue _ (Nat.mod_lt n (by decide))]
    omega

theorem all_isHexDigit_hexDigits (width n : Nat) :
    (Text.hexDigits width n).all isHexDigit = true := by
  have hdigit : ∀ d < 16, isHexDigit (Text.hexDigit d) = true := by decide
  induction width generalizing n with
  | zero => rfl
  | succ width ih =>
    rw [Text.hexDigits, List.all_append, ih, Bool.true_and, List.all_cons, List.all_nil,
      Bool.and_true]
    exact hdigit _ (Nat.mod_lt n (by decide))

theorem charOfCode_toNat (c : Char) : charOfCode c.toNat = c := by
  rw [charOfCode, if_pos (show c.toNat.isValidChar from c.valid), Char.ofNat_toNat]

theorem accepts_hexDigitRun {ds : List Char} (h : ds.all isHexDigit = true) :
    (hexDigitRun ds.length).Accepts ds rest (· = ds) := by
  induction ds with
  | nil => exact .pure rfl
  | cons d ds ih =>
    obtain ⟨hd, hds⟩ := Bool.and_eq_true_iff.mp h
    refine .cons (accepts_charWhere hd _) fun first hfirst => (ih hds).map ?_
    rintro _ rfl
    rw [hfirst]

/-- Digits are read as the character with their number as its code. -/
theorem accepts_hexEscape {introduction : String} {front : List Char} {width n : Nat}
    (hfront : introduction.toList = front) (hn : n < 16 ^ width) :
    (hexEscape introduction width).Accepts (front ++ Text.hexDigits width n) rest
      (· = charOfCode n) := by
  have hdigits : (hexDigitRun _).Accepts _ rest _ :=
    accepts_hexDigitRun (all_isHexDigit_hexDigits width n)
  rw [Text.length_hexDigits] at hdigits
  refine .attempt ((accepts_text hfront).bind fun _ _ => hdigits.map ?_)
  rintro _ rfl
  rw [hexNumber_hexDigits hn]

/-! ### Escapes -/

theorem accepts_simpleEscape {c : Char}
    (hc : (!(c.isDigit || c == 'x' || c == 'u' || isLineEnd c)) = true) :
    simpleEscape.Accepts ['\\', c] rest (· = escapedChar c) := by
  refine .attempt (.cons (accepts_text rfl) fun _ _ =>
    (accepts_charWhere hc _).map ?_)
  rintro _ rfl
  rfl

theorem rejects_simpleEscape {c : Char}
    (hc : (!(c.isDigit || c == 'x' || c == 'u' || isLineEnd c)) = false) :
    simpleEscape.Rejects ('\\' :: c :: cs) := by
  have hintroduced : (Reader.text "\\").Accepts ['\\'] (c :: cs) anything := accepts_text rfl
  exact Fails.attempt (hintroduced.fails fun _ _ =>
    (rejects_charWhere (forall_head hc) _).bind.fails)

theorem accepts_escape_of {c : Char}
    (h : (simpleEscape <|> zeroEscape <|> hexEscape "\\x" 2 <|> hexEscape "\\u" 4).Accepts cs rest
      (· = c)) : escape.Accepts cs rest (· = [c]) :=
  .orElse (h.map fun _ hc => congrArg (fun c => [c]) hc)

/-- Four digits are read as one character, also if they are the code of none. -/
theorem accepts_unit {n : Nat} (h : n < 16 ^ 4) :
    escape.Accepts ('\\' :: 'u' :: Text.hexDigits 4 n) rest (· = [charOfCode n]) := by
  have hsimple : simpleEscape.Rejects ('\\' :: 'u' :: Text.hexDigits 4 n ++ rest) :=
    rejects_simpleEscape rfl
  have hzero : zeroEscape.Rejects ('\\' :: 'u' :: Text.hexDigits 4 n ++ rest) :=
    (rejects_text (by simp [List.prefix_iff_eq_take])).bind.fails.attempt
  have hpair : (hexEscape "\\x" 2).Rejects ('\\' :: 'u' :: Text.hexDigits 4 n ++ rest) :=
    (rejects_text (by simp)).bind.fails.attempt
  have hfour : (hexEscape "\\u" 4).Accepts (['\\', 'u'] ++ Text.hexDigits 4 n) rest
      (· = charOfCode n) := accepts_hexEscape rfl h
  exact accepts_escape_of (hsimple.orElse (hzero.orElse (hpair.orElse hfour)))

/-- A character up to `U+FFFF` is read back from four digits. -/
theorem accepts_unitEscape {c : Char} (h : isBasic c = true) :
    escape.Accepts (unitEscape c) rest (· = [c]) := by
  have hunit : escape.Accepts (unitEscape c) rest (· = [charOfCode c.toNat]) :=
    accepts_unit (Nat.lt_succ_of_le (of_decide_eq_true h))
  rwa [charOfCode_toNat] at hunit

theorem rejects_escape (h : ∀ c ∈ cs.head?, c ≠ '\\') : escape.Rejects cs := by
  have hintroduced : ∀ {α : Type} {value : String} {more : List Char} {q : Unit → Reader α},
      value.toList = '\\' :: more → (attempt (Reader.text value >>= q)).Rejects cs := fun hvalue =>
    (rejects_text_of_head hvalue h).bind.fails.attempt
  refine Rejects.or (Rejects.bind ?_) (hintroduced rfl).bind
  exact (hintroduced rfl).or ((hintroduced rfl).or ((hintroduced rfl).or (hintroduced rfl)))

/-! ### Strings -/

theorem accepts_escapedCharacter {c d : Char} (h : escape.Accepts ('\\' :: cs) rest (· = [c])) :
    (stringCharacter d).Accepts ('\\' :: cs) rest (· = [c]) := by
  refine Rejects.orElse ?_ h
  exact (rejects_charWhere (forall_head (by simp)) _).bind

/-- A text is read back if each of its characters is, as `spell` writes it. -/
theorem accepts_spelledString {spell : Char → List Char} {value : String}
    (h : ∀ c ∈ value.toList, spell c ≠ [] ∧
      ∀ more, (stringCharacter '"').Accepts (spell c) more (· = [c])) :
    quotedString.Accepts ('"' :: (value.toList.flatMap spell ++ ['"'])) rest (· = value) := by
  have hend : (stringCharacter '"').Rejects ('"' :: rest) :=
    (rejects_charWhere (forall_head rfl) _).bind.or (rejects_escape (forall_head (by decide)))
  have hcontent : Repeats (stringCharacter '"') (value.toList.flatMap spell) ('"' :: rest)
      (List.Forall₂ (fun c a => [c] = a) value.toList) := by
    refine .flatMap hend fun c more hsuffix => ?_
    obtain ⟨hne, hc⟩ := h c (hsuffix.subset List.mem_cons_self)
    exact ⟨(hc _).mono fun _ => Eq.symm, hne⟩
  refine .orElse (.attempt (.cons (accepts_charWhere rfl _) fun _ _ => ?_))
  refine hcontent.many.bind fun characters hcharacters => ?_
  refine (accepts_charWhere rfl _).map fun _ _ => ?_
  rw [← List.forall₂_map_left_iff, List.forall₂_eq_eq_eq] at hcharacters
  rw [← hcharacters, ← List.flatMap_def, List.flatMap_singleton', String.ofList_toList]

/-- A text is read back from the codes of its characters. -/
theorem accepts_quotedString {value : String} (h : value.toList.all isBasic = true) :
    quotedString.Accepts (quotedUnits value) rest (· = value) :=
  accepts_spelledString fun c hc => ⟨List.cons_ne_nil _ _, fun _ =>
    accepts_escapedCharacter (accepts_unitEscape (List.all_eq_true.mp h c hc))⟩

theorem rejects_quotedString (h : ∀ c ∈ cs.head?, c ≠ '"' ∧ c ≠ '\'') :
    quotedString.Rejects cs := by
  have hdelimited : ∀ d, (∀ c ∈ cs.head?, c ≠ d) → (delimited d).Rejects cs := fun d hd =>
    (rejects_charWhere (fun c hc => beq_false_of_ne (hd c hc)) _).bind.fails.attempt
  exact (hdelimited _ fun c hc => (h c hc).1).or (hdelimited _ fun c hc => (h c hc).2)

theorem accepts_string {value : String} (h : value.toList.all isBasic = true)
    (hgap : skip.Accepts gap rest anything) :
    string.Accepts (quotedUnits value ++ gap) rest (· = value) := by
  refine .named ((accepts_quotedString h).bind ?_) _
  rintro _ rfl
  exact hgap.map fun _ _ => rfl

theorem rejects_string (h : ∀ c ∈ cs.head?, c ≠ '"' ∧ c ≠ '\'') : string.Rejects cs :=
  (rejects_quotedString h).bind.fails.named _

/-- A case flag is read back where no other one follows. -/
theorem accepts_caseFlag {ignoreCase : Bool} (h : ∀ c ∈ rest.head?, c ≠ 'i') :
    (succeeds (Reader.text "i")).Accepts (caseFlag ignoreCase) rest (· = ignoreCase) := by
  cases ignoreCase with
  | false => exact (rejects_text_of_head rfl h).succeeds
  | true => exact (accepts_text rfl).succeeds

/-- A literal is read back if its text is and nothing behind it is taken for its case flag. -/
theorem accepts_literal_of {value : String} {ignoreCase : Bool}
    (h : ∀ more, quotedString.Accepts cs more (· = value)) (hgap : skip.Accepts gap rest anything)
    (hflag : ∀ c ∈ (gap ++ rest).head?, c ≠ 'i') :
    literal.Accepts (cs ++ (caseFlag ignoreCase ++ gap)) rest (· = (value, ignoreCase)) := by
  refine .named ((h _).bind ?_) _
  rintro _ rfl
  refine (accepts_caseFlag hflag).bind ?_
  rintro _ rfl
  exact hgap.map fun _ _ => rfl

theorem accepts_literal {value : String} {ignoreCase : Bool}
    (h : value.toList.all isBasic = true) (hrest : AtToken rest) :
    literal.Accepts (spaced (quotedUnits value ++ caseFlag ignoreCase)) rest
      (· = (value, ignoreCase)) := by
  rw [spaced, List.append_assoc]
  exact accepts_literal_of (fun _ => accepts_quotedString h) (accepts_blank hrest)
    (forall_head (by decide))

theorem rejects_literal (h : ∀ c ∈ cs.head?, c ≠ '"' ∧ c ≠ '\'') : literal.Rejects cs :=
  (rejects_quotedString h).bind.fails.named _

/-! ### Members of classes -/

variable {c d : Char} {spell : Char → List Char}

/-- A character that needs no escape stands for itself. -/
theorem accepts_plainMember (h : (c != ']' && c != '\\' && !isLineEnd c) = true) :
    classMember.Accepts [c] rest (· = c) := .orElse (accepts_charWhere h _)

theorem accepts_escapedMember (h : escape.Accepts ('\\' :: cs) rest (· = [c])) :
    classMember.Accepts ('\\' :: cs) rest (· = c) := by
  refine (rejects_charWhere (forall_head rfl) _).orElse (h.finish ?_)
  rintro _ rfl
  exact .pure rfl

theorem rejects_classMember : classMember.Rejects (']' :: rest) :=
  (rejects_charWhere (forall_head rfl) _).or (rejects_escape (forall_head (by decide))).bind

/-- A range in order leaves no note. -/
theorem rangePart_of_le (begun : Cursor) {ends : Char × Char} (h : ends.1 ≤ ends.2)
    (s : ReaderState) : rangePart begun ends s = (some (.range ends.1 ends.2), s) := by
  unfold rangePart
  dsimp only
  rw [if_neg (Char.not_lt.mpr h)]
  rfl

/-- Where no dash follows, a member stands by itself. -/
theorem accepts_single (h : classMember.Accepts cs rest (· = c))
    (hrest : ∀ d ∈ rest.head?, d ≠ '-') : classPart.Accepts cs rest (· = .single c) := by
  rw [classPart_eq]
  refine .still fun begun =>
    Rejects.orElse (Rejects.bind (Fails.attempt (h.fails fun _ _ => ?_))) ?_
  · exact (rejects_text_of_head rfl hrest).bind.fails
  · exact h.map fun _ hc => congrArg ClassPart.single hc

theorem accepts_range (hfirst : classMember.Accepts cs ('-' :: (gap ++ rest)) (· = c))
    (hlast : classMember.Accepts gap rest (· = d)) (hle : c ≤ d) :
    classPart.Accepts (cs ++ '-' :: gap) rest (· = .range c d) := by
  have hends : rangeEnds.Accepts (cs ++ '-' :: gap) rest (· = (c, d)) := by
    refine .attempt (hfirst.bind ?_)
    rintro _ rfl
    exact .cons (accepts_text rfl) fun _ _ =>
      hlast.map fun _ hd => congrArg (Prod.mk _) hd
  rw [classPart_eq]
  refine .still fun begun => .orElse (hends.finish ?_)
  rintro _ rfl
  exact fun s _ => ⟨_, s, rangePart_of_le begun hle s, rfl, .refl s⟩

theorem rejects_classPart : classPart.Rejects (']' :: rest) := by
  rw [classPart_eq]
  exact .still fun begun =>
    (rejects_classMember.bind.fails.attempt : rangeEnds.Rejects _).bind.or rejects_classMember.bind

/-! ### Classes -/

/-- Parts that are read one by one make up the class. -/
theorem repeats_classParts {parts : List ClassPart}
    (hpart : ∀ p more, p :: more <:+ parts → p.spelled spell ≠ [] ∧
      classPart.Accepts (p.spelled spell) (more.flatMap (·.spelled spell) ++ ']' :: rest) (· = p)) :
    Repeats classPart (parts.flatMap (·.spelled spell)) (']' :: rest) (· = parts) := by
  have hparts : Repeats classPart (parts.flatMap (·.spelled spell)) (']' :: rest)
      (List.Forall₂ (fun p a => p = a) parts) :=
    .flatMap rejects_classPart fun p more hsuffix =>
      ⟨(hpart p more hsuffix).2.mono fun _ => Eq.symm, (hpart p more hsuffix).1⟩
  refine hparts.mono fun as has => ?_
  rw [List.forall₂_eq_eq_eq] at has
  exact has.symm

/-- A class is read back if its parts are, no part is taken for the sign of an inverted class, and
nothing behind it for its flag. -/
theorem accepts_charClass {members : CharClass}
    (hparts : ∀ more, Repeats classPart (members.parts.flatMap (·.spelled spell)) (']' :: more)
      (· = members.parts))
    (hcaret : members.inverted = false →
      ∀ c ∈ (members.parts.flatMap (·.spelled spell)).head?, c ≠ '^')
    (hgap : skip.Accepts gap rest anything) (hflag : ∀ c ∈ (gap ++ rest).head?, c ≠ 'i') :
    charClass.Accepts (members.spelled spell ++ gap) rest (· = members) := by
  obtain ⟨parts, inverted, ignoreCase⟩ := members
  have hsign : ∀ more : List Char, (succeeds (Reader.text "^")).Accepts
      (if inverted then ['^'] else []) (parts.flatMap (·.spelled spell) ++ ']' :: more)
      (· = inverted) := by
    intro more
    cases inverted with
    | true => exact (accepts_text rfl).succeeds
    | false =>
      refine Rejects.succeeds (rejects_text_of_head (c := '^') rfl fun c hc => ?_)
      cases hspelled : parts.flatMap (·.spelled spell) with
      | nil =>
        rw [hspelled] at hc
        exact forall_head (P := (· ≠ '^')) (by decide) c hc
      | cons c' cs =>
        rw [hspelled] at hc
        refine hcaret rfl c ?_
        rw [hspelled]
        exact hc
  have hshape : CharClass.spelled spell ⟨parts, inverted, ignoreCase⟩ ++ gap =
      ['['] ++ ((if inverted then ['^'] else []) ++ (parts.flatMap (·.spelled spell) ++
        ([']'] ++ (caseFlag ignoreCase ++ gap)))) := by
    simp only [CharClass.spelled, List.append_assoc, List.cons_append, List.nil_append]
  rw [hshape]
  refine .named (.bind (accepts_text rfl) fun _ _ => .bind (V := (· = inverted)) ?_ ?_) _
  · simpa using hsign (caseFlag ignoreCase ++ (gap ++ rest))
  rintro _ rfl
  refine .bind (V := (· = parts)) ?_ ?_
  · simpa using (hparts (caseFlag ignoreCase ++ (gap ++ rest))).many
  rintro _ rfl
  refine .bind (accepts_text rfl) fun _ _ => (accepts_caseFlag hflag).bind ?_
  rintro _ rfl
  exact hgap.map fun _ _ => rfl

theorem rejects_charClass (h : ∀ c ∈ cs.head?, c ≠ '[') : charClass.Rejects cs :=
  (rejects_text_of_head rfl h).bind.fails.named _

/-- Where every part is spelled by codes, none runs into the next one. -/
theorem head_unitParts {parts : List ClassPart} :
    ∀ c ∈ (parts.flatMap (·.spelled unitEscape) ++ ']' :: rest).head?, c = '\\' ∨ c = ']' := by
  rcases parts with _ | ⟨_ | _, parts⟩
  · exact forall_head (.inr rfl)
  · exact forall_head (.inl rfl)
  · exact forall_head (.inl rfl)

/-- A class is read back from the codes of its members. -/
theorem accepts_unitClass {members : CharClass}
    (h : members.parts.all Vocabulary.basic.part = true) (hrest : AtToken rest) :
    charClass.Accepts (spaced (members.spelled unitEscape)) rest (· = members) := by
  refine accepts_charClass (fun more => repeats_classParts fun p later hsuffix => ?_)
    (fun _ c hc => ?_) (accepts_blank hrest) (forall_head (by decide))
  · have hp := List.all_eq_true.mp h p (hsuffix.subset List.mem_cons_self)
    obtain ⟨hordered, hbasic⟩ := Bool.and_eq_true_iff.mp hp
    have hmember : ∀ c ∈ p.ends, ∀ later, classMember.Accepts (unitEscape c) later (· = c) :=
      fun c hc _ => accepts_escapedMember (accepts_unitEscape (List.all_eq_true.mp hbasic c hc))
    cases p with
    | single c =>
      refine ⟨List.cons_ne_nil _ _, accepts_single (hmember c List.mem_cons_self _) fun d hd => ?_⟩
      rcases head_unitParts d hd with rfl | rfl <;> decide
    | range first last =>
      exact ⟨List.cons_ne_nil _ _, accepts_range (hmember first List.mem_cons_self _)
        (hmember last (List.mem_cons_of_mem _ List.mem_cons_self) _) (of_decide_eq_true hordered)⟩
  · have hc' : c ∈ (members.parts.flatMap (·.spelled unitEscape) ++ ']' :: rest).head? := by
      rw [List.head?_append, Option.mem_def.mp hc]
      rfl
    rcases head_unitParts c hc' with rfl | rfl <;> decide

end Packrat.Notation
