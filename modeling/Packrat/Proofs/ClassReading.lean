import Mathlib.Data.List.Chain
import Packrat.Proofs.ClassSpelling

/-!
# Reading classes in their normalized form

That the normalized form of a class determines it does not make it readable. The reader of classes
takes a caret in first place for the sign of an inverted class, a zero escape only where no digit
follows, and no character beyond `U+FFFF`: of the two units that stand for one it makes two
replacement characters. `CharClass.Readable` excludes these three and nothing else.

Each level comes with two lemmas, one that the conditions are enough and one that they are
necessary: whatever is read at the place, it is what was written only if they hold.

## Main results

* `accepts_rawClass`: a readable class is read back from its normalized form
* `readable_of_gives`: no other class is
-/

namespace Packrat

open Text (escapeMember)

/-- Entries that can be read one behind the other: all characters are written by four digits at the
most, and no digit stands behind a zero escape. -/
structure ClassPart.AllReadable (parts : List ClassPart) : Prop where
  basic : ∀ p ∈ parts, ∀ c ∈ p.ends, isBasic c = true
  zero : parts.IsChain fun p q => p.last = '\x00' → q.first.isDigit = false

/-- The normalized form can be read: its entries can be, and no caret that begins them is taken for
the sign of an inverted class. -/
structure CharClass.Readable (k : CharClass) : Prop where
  parts : ClassPart.AllReadable k.parts
  caret : k.inverted = false → ∀ p ∈ k.parts.head?, p.first ≠ '^'

instance (parts : List ClassPart) : Decidable (ClassPart.AllReadable parts) :=
  decidable_of_iff ((∀ p ∈ parts, ∀ c ∈ p.ends, isBasic c = true) ∧
      parts.IsChain fun p q => p.last = '\x00' → q.first.isDigit = false)
    ⟨fun h => ⟨h.1, h.2⟩, fun h => ⟨h.basic, h.zero⟩⟩

instance (k : CharClass) : Decidable k.Readable :=
  decidable_of_iff (ClassPart.AllReadable k.parts ∧
      (k.inverted = false → ∀ p ∈ k.parts.head?, p.first ≠ '^'))
    ⟨fun h => ⟨h.1, h.2⟩, fun h => ⟨h.parts, h.caret⟩⟩

/-! ### Reading members -/

namespace Notation

open Reader
open Text (Spelling spelling_escapeMember letters needsCode)

variable {c d : Char} {cs rest gap : List Char}

/-- The ends of lines are written by their codes. -/
theorem isLineEnd_of_needsCode (h : needsCode c = false) : isLineEnd c = false := by
  refine Bool.eq_false_iff.mpr fun hend => ?_
  simp only [isLineEnd, Bool.or_eq_true, beq_iff_eq] at hend
  rcases hend with ((rfl | rfl) | rfl) | rfl <;> cases h

theorem accepts_letterEscape (h : c ∈ letters) :
    escape.Accepts ['\\', c] rest (· = [escapedChar c]) := by
  have hletters : ∀ c ∈ letters, (!(c.isDigit || c == 'x' || c == 'u' || isLineEnd c)) = true := by
    decide
  exact accepts_escape_of (accepts_simpleEscape (hletters c h)).orElse

theorem accepts_zeroEscape (h : ∀ d ∈ rest.head?, d.isDigit = false) :
    escape.Accepts ['\\', '0'] rest (· = ['\x00']) := by
  have hsimple : simpleEscape.Rejects ('\\' :: '0' :: rest) := rejects_simpleEscape rfl
  have hdigit : (charWhere Char.isDigit "[0-9]").Fails rest := (rejects_charWhere h _).fails
  have hzero : zeroEscape.Accepts ['\\', '0'] rest (· = '\x00') := by
    refine .attempt ((accepts_text rfl).finish fun _ _ => hdigit.peek.finish ?_)
    rintro _ rfl
    exact .pure rfl
  exact accepts_escape_of (hsimple.orElse hzero.orElse)

/-- A digit behind it makes the escape of the zero character one of nothing. -/
theorem rejects_zeroEscape (h : d.isDigit = true) : escape.Rejects ('\\' :: '0' :: d :: rest) := by
  have hintroduced : (Reader.text "\\0").Accepts ['\\', '0'] (d :: rest) anything :=
    accepts_text rfl
  have hdigit : (charWhere Char.isDigit "[0-9]").Accepts [d] rest (· = d) := accepts_charWhere h _
  have hzero : zeroEscape.Rejects ('\\' :: '0' :: d :: rest) := by
    refine Fails.attempt (hintroduced.fails fun _ _ => hdigit.peek.fails ?_)
    rintro _ rfl
    exact rejects_fail.fails
  have hhex : ∀ {introduction : String} {mark : Char} {count : Nat},
      introduction.toList = ['\\', mark] → mark ≠ '0' →
        (hexEscape introduction count).Rejects ('\\' :: '0' :: d :: rest) := by
    refine fun hintroduction hmark => (rejects_text ?_).bind.fails.attempt
    rw [hintroduction]
    rintro ⟨_, hprefix⟩
    exact hmark (List.cons.inj (List.cons.inj hprefix).2).1
  have hbackslash : (Reader.text "\\").Accepts ['\\'] ('0' :: d :: rest) anything :=
    accepts_text rfl
  have hline : lineEndEscape.Rejects ('\\' :: '0' :: d :: rest) :=
    Fails.attempt (hbackslash.fails fun _ _ => (rejects_lineEnd (forall_head rfl)).fails)
  refine Rejects.or (Rejects.bind ?_) hline.bind
  exact (rejects_simpleEscape rfl).or (hzero.or ((hhex rfl (by decide)).or (hhex rfl (by decide))))

/-- A character up to `U+00FF` is read back from two digits. -/
theorem accepts_pairEscape (h : c.toNat ≤ 0xFF) :
    escape.Accepts ('\\' :: 'x' :: Text.hexDigits 2 c.toNat) rest (· = [c]) := by
  have hsimple : simpleEscape.Rejects ('\\' :: 'x' :: Text.hexDigits 2 c.toNat ++ rest) :=
    rejects_simpleEscape rfl
  have hzero : zeroEscape.Rejects ('\\' :: 'x' :: Text.hexDigits 2 c.toNat ++ rest) :=
    (rejects_text (by simp [List.prefix_iff_eq_take])).bind.fails.attempt
  have hpair : (hexEscape "\\x" 2).Accepts (['\\', 'x'] ++ Text.hexDigits 2 c.toNat) rest
      (· = charOfCode c.toNat) := accepts_hexEscape rfl (Nat.lt_succ_of_le h)
  rw [charOfCode_toNat] at hpair
  exact accepts_escape_of (hsimple.orElse (hzero.orElse hpair.orElse))

/-- A character up to `U+FFFF` is read back as it is written, the zero character where no digit
follows. -/
theorem accepts_spelling (h : Spelling c cs) (hbasic : isBasic c = true)
    (hzero : c = '\x00' → ∀ d ∈ rest.head?, d.isDigit = false) :
    classMember.Accepts cs rest (· = c) := by
  cases h with
  | plain hmarks hcode =>
    simp only [List.mem_cons, List.not_mem_nil, not_or, or_false] at hmarks
    refine accepts_plainMember ?_
    simp [hmarks, isLineEnd_of_needsCode hcode]
  | letter hc => exact accepts_escapedMember (accepts_letterEscape hc)
  | zero => exact accepts_escapedMember (accepts_zeroEscape (hzero rfl))
  | pair hc => exact accepts_escapedMember (accepts_pairEscape hc)
  | unit hc => exact accepts_escapedMember (accepts_unitEscape hc)
  | units hc => nomatch hc.symm.trans hbasic

theorem accepts_escapeMember (hbasic : isBasic c = true)
    (hzero : c = '\x00' → ∀ d ∈ rest.head?, d.isDigit = false) :
    classMember.Accepts (escapeMember c) rest (· = c) :=
  accepts_spelling (spelling_escapeMember c) hbasic hzero

/-- Beyond `U+FFFF` a character is written by two units. -/
theorem exists_units_of_spelling (h : Spelling c cs) (hbasic : isBasic c = false) :
    ∃ n more, cs = '\\' :: 'u' :: Text.hexDigits 4 n ++ more ∧ 0xD800 ≤ n ∧ n < 0xDC00 := by
  have hbeyond : 0xFFFF < c.toNat := Nat.lt_of_not_le (of_decide_eq_false hbasic)
  cases h with
  | plain _ hcode =>
    simp only [needsCode, Bool.or_eq_false_iff, decide_eq_false_iff_not] at hcode
    omega
  | letter hc =>
    have hletters : ∀ c ∈ letters, isBasic (escapedChar c) = true := by decide
    nomatch (hletters _ hc).symm.trans hbasic
  | zero => nomatch hbasic
  | pair hc => omega
  | unit hc => nomatch hc.symm.trans hbasic
  | units _ =>
    have hlt := Text.toNat_lt c
    exact ⟨_, _, rfl, by omega, by omega⟩

/-- A unit is no character. -/
theorem charOfCode_of_surrogate {n : Nat} (hlow : 0xD800 ≤ n) (hhigh : n < 0xDC00) :
    charOfCode n = '\ufffd' := by
  refine if_neg ?_
  rintro (h | ⟨h, -⟩)
  · exact absurd (Nat.lt_of_lt_of_le h hlow) (Nat.lt_irrefl _)
  · exact absurd (Nat.lt_trans h hhigh) (by decide)

/-- Only under these conditions is a member read back as it is written. -/
theorem gives_escapeMember : classMember.Gives (escapeMember c ++ rest) fun d => d = c →
    isBasic c = true ∧ (c = '\x00' → ∀ d ∈ rest.head?, d.isDigit = false) := by
  cases hbasic : isBasic c with
  | false =>
    obtain ⟨n, more, hspelled, hlow, hhigh⟩ :=
      exists_units_of_spelling (spelling_escapeMember c) hbasic
    have hunit : classMember.Accepts ('\\' :: 'u' :: Text.hexDigits 4 n) (more ++ rest)
        (· = '\ufffd') :=
      accepts_escapedMember (charOfCode_of_surrogate hlow hhigh ▸ accepts_unit (by omega))
    rw [hspelled, List.append_assoc]
    refine hunit.gives.mono ?_
    rintro _ rfl rfl
    nomatch hbasic
  | true =>
    by_cases hzero : c = '\x00' ∧ ∃ d ∈ rest.head?, d.isDigit = true
    · obtain ⟨rfl, d, hd, hdigit⟩ := hzero
      obtain ⟨rest, rfl⟩ := List.head?_eq_some_iff.mp hd
      have hescape : escape.Rejects ('\\' :: '0' :: d :: rest) := rejects_zeroEscape hdigit
      exact ((rejects_charWhere (forall_head rfl) _).or hescape.bind).gives
    · exact .of_all fun _ _ => ⟨rfl, fun hc d hd => Bool.eq_false_iff.mpr fun hdigit =>
        hzero ⟨hc, d, hd, hdigit⟩⟩

/-! ### Reading parts -/

theorem accepts_classPart {p : ClassPart} (hordered : p.isOrdered = true)
    (hbasic : ∀ c ∈ p.ends, isBasic c = true)
    (hzero : p.last = '\x00' → ∀ d ∈ rest.head?, d.isDigit = false)
    (hdash : ∀ d ∈ rest.head?, d ≠ '-') :
    classPart.Accepts (p.spelled escapeMember) rest (· = p) := by
  cases p with
  | single c =>
    exact accepts_single (accepts_escapeMember (hbasic c List.mem_cons_self) hzero) hdash
  | range c d =>
    have hc : classMember.Accepts (escapeMember c) ('-' :: (escapeMember d ++ rest)) (· = c) :=
      accepts_escapeMember (hbasic c List.mem_cons_self) fun _ => forall_head rfl
    have hd := accepts_escapeMember (hbasic d (List.mem_cons_of_mem _ List.mem_cons_self)) hzero
    exact accepts_range hc hd (of_decide_eq_true hordered)

theorem gives_rangeEnds : rangeEnds.Gives (escapeMember c ++ '-' :: (escapeMember d ++ rest))
    fun ends => ends = (c, d) → isBasic c = true ∧ isBasic d = true ∧
      (d = '\x00' → ∀ e ∈ rest.head?, e.isDigit = false) := by
  refine .attempt ?_
  cases hbasic : isBasic c with
  | false =>
    refine gives_escapeMember.bind fun first hfirst ds => ?_
    have hends : (do Reader.text "-"; return (first, ← classMember)).Gives ds (·.1 = first) :=
      Gives.bind (V := anything) (.of_all fun _ => trivial) fun _ _ _ =>
        Gives.bind (V := anything) (.of_all fun _ => trivial) fun _ _ _ => .pure rfl
    refine hends.mono ?_
    rintro _ rfl rfl
    nomatch (hfirst rfl).1.symm.trans hbasic
  | true =>
    have hdash : (Reader.text "-").Accepts ['-'] (escapeMember d ++ rest) anything :=
      accepts_text rfl
    refine (accepts_escapeMember hbasic fun _ => forall_head rfl).thenGives ?_
    rintro _ rfl
    refine hdash.thenGives fun _ _ => gives_escapeMember.bind fun last hlast ds => .pure ?_
    rintro ⟨⟩
    exact ⟨rfl, hlast rfl⟩

/-- Only under these conditions is a part read back as it is written. -/
theorem gives_classPart {p : ClassPart} :
    classPart.Gives (p.spelled escapeMember ++ rest) fun q => q = p →
      (∀ c ∈ p.ends, isBasic c = true) ∧
        (p.last = '\x00' → ∀ d ∈ rest.head?, d.isDigit = false) := by
  have hrange : ∀ begun ends ds, (rangePart begun ends).Gives ds (· = .range ends.1 ends.2) := by
    intro begun ends ds s q t _ hrun
    obtain ⟨t', ht, -⟩ := rangePart_spec begun ends s
    exact (Option.some.inj (Prod.mk.inj (ht.symm.trans hrun)).1).symm
  have hplace : ∀ begun, FailsInPlace (rangeEnds >>= rangePart begun) := fun begun =>
    (failsInPlace_attempt _).bind (rangePart_ne_none begun)
  rw [classPart_eq]
  refine .still fun begun => .orElse ?_ (hplace begun) ?_
  · cases p with
    | single c =>
      refine Gives.bind (V := anything) (.of_all fun _ => trivial) fun ends _ ds => ?_
      refine (hrange begun ends ds).mono ?_
      rintro _ rfl hpart
      cases hpart
    | range c d =>
      rw [ClassPart.spelled, List.append_assoc]
      refine gives_rangeEnds.bind fun ends hends ds => (hrange begun ends ds).mono ?_
      rintro _ rfl hpart
      obtain ⟨hc, hd⟩ := ClassPart.range.inj hpart
      obtain ⟨hbasic, hbasic', hzero⟩ := hends (Prod.ext hc hd)
      exact ⟨List.forall_mem_cons.mpr ⟨hbasic, List.forall_mem_singleton.mpr hbasic'⟩, hzero⟩
  · cases p with
    | single c =>
      refine gives_escapeMember.bind fun d hd ds => .pure fun hpart => ?_
      obtain ⟨hbasic, hzero⟩ := hd (ClassPart.single.inj hpart)
      exact ⟨List.forall_mem_singleton.mpr hbasic, hzero⟩
    | range c d =>
      refine Gives.bind (V := anything) (.of_all fun _ => trivial) fun _ _ ds => .pure ?_
      rintro ⟨⟩

/-! ### Reading classes -/

variable {parts : List ClassPart}

theorem escapeMember_of_isDigit (h : c.isDigit = true) : escapeMember c = [c] := by
  have hascii : c.toNat < 128 :=
    ascii_of_isIdentifierTail (by rw [isIdentifierTail, h, Bool.or_true])
  exact of_ascii (P := fun c => c.isDigit = true → escapeMember c = [c]) (by decide) c hascii h

/-- A digit behind an entry is one that the next entry begins with. -/
theorem isDigit_head_parts :
    (∀ d ∈ (parts.flatMap (·.spelled escapeMember) ++ ']' :: rest).head?, d.isDigit = false) ↔
      ∀ p ∈ parts.head?, p.first.isDigit = false := by
  constructor
  · rintro h p hp
    refine Bool.eq_false_iff.mpr fun hdigit => ?_
    have hfirst := h p.first (ClassPart.head_parts_of_plain hp (escapeMember_of_isDigit hdigit))
    nomatch hfirst.symm.trans hdigit
  · rintro h d hd
    rcases ClassPart.head_parts d hd with rfl | rfl | ⟨p, hp, rfl, -⟩
    · rfl
    · rfl
    · exact h p hp

theorem repeats_classParts_of_readable (hordered : parts.all (·.isOrdered) = true)
    (h : ClassPart.AllReadable parts) :
    Repeats classPart (parts.flatMap (·.spelled escapeMember)) (']' :: rest) (· = parts) := by
  refine repeats_classParts fun p more hsuffix => ⟨p.spelled_ne_nil, ?_⟩
  have hp := hsuffix.subset List.mem_cons_self
  refine accepts_classPart (List.all_eq_true.mp hordered p hp) (h.basic p hp) (fun hlast => ?_)
    ClassPart.head_parts_ne
  have hnext := (List.isChain_cons.mp (h.zero.suffix hsuffix)).1
  exact isDigit_head_parts.mpr fun q hq => hnext q hq hlast

/-- A readable class is read back from its normalized form. -/
theorem accepts_rawClass {k : CharClass} (hordered : k.parts.all (·.isOrdered) = true)
    (h : k.Readable) (hgap : skip.Accepts gap rest anything)
    (hflag : ∀ c ∈ (gap ++ rest).head?, c ≠ 'i') :
    charClass.Accepts (k.spelled escapeMember ++ gap) rest (· = k) := by
  refine accepts_charClass (fun more => repeats_classParts_of_readable hordered h.parts) ?_ hgap
    hflag
  rintro hinverted _ hc rfl
  have hhead : '^' ∈ (k.parts.flatMap (·.spelled escapeMember) ++ [']']).head? := by
    rw [List.head?_append, Option.mem_def.mp hc]
    rfl
  rcases ClassPart.head_parts '^' hhead with hmark | hmark | ⟨p, hp, hcaret, -⟩
  · nomatch hmark
  · nomatch hmark
  · exact h.caret hinverted p hp hcaret.symm

/-- Entries that are read back are readable. -/
theorem readable_of_collect (hordered : parts.all (·.isOrdered) = true) {bound : Nat}
    {s : ReaderState} (hs : s.ahead = parts.flatMap (·.spelled escapeMember) ++ ']' :: rest)
    (hparts : (collect classPart bound s).1 = parts) : ClassPart.AllReadable parts := by
  induction parts generalizing bound s with
  | nil => exact ⟨List.forall_mem_nil _, .nil⟩
  | cons p parts ih =>
    cases bound with
    | zero => cases hparts
    | succ bound =>
      rw [List.flatMap_cons, List.append_assoc] at hs
      obtain ⟨hp, hrest⟩ := Bool.and_eq_true_iff.mp hordered
      rw [collect] at hparts
      cases hrun : classPart s with
      | mk o t =>
        rw [hrun] at hparts
        cases o with
        | none => cases hparts
        | some q =>
          obtain ⟨rfl, hmore⟩ := List.cons.inj hparts
          obtain ⟨hbasic, hzero⟩ := gives_classPart s q t hs hrun rfl
          -- So the first entry was taken as a whole, and what is left are the others.
          obtain ⟨_, t', hrun', -, hfar⟩ := accepts_classPart hp hbasic hzero
            ClassPart.head_parts_ne s hs
          obtain ⟨-, rfl⟩ := Prod.mk.inj (hrun.symm.trans hrun')
          have hreadable := ih hrest (hfar.ahead hs) hmore
          refine ⟨List.forall_mem_cons.mpr ⟨hbasic, hreadable.basic⟩,
            List.isChain_cons.mpr ⟨?_, hreadable.zero⟩⟩
          exact fun q' hq' hlast => isDigit_head_parts.mp (hzero hlast) q' hq'

/-- What is read behind the sign of a class. -/
def behindSign (inverted : Bool) : Reader CharClass := do
  let parts ← many classPart
  Reader.text "]"
  let ignoreCase ← succeeds (Reader.text "i")
  skip
  return ⟨parts, inverted, ignoreCase⟩

theorem gives_inverted {inverted : Bool} : (behindSign inverted).Gives cs (·.inverted = inverted) :=
  .after fun _ _ => .after fun _ _ => .after fun _ _ => .after fun _ _ => .pure rfl

theorem gives_readable (hordered : parts.all (·.isOrdered) = true) {inverted : Bool} :
    (behindSign inverted).Gives (parts.flatMap (·.spelled escapeMember) ++ ']' :: rest)
      fun k => k.parts = parts → ClassPart.AllReadable parts := by
  have hmany : (many classPart).Gives (parts.flatMap (·.spelled escapeMember) ++ ']' :: rest)
      fun as => as = parts → ClassPart.AllReadable parts := by
    intro s as t hs hrun has
    rw [many_apply] at hrun
    exact readable_of_collect hordered hs ((Option.some.inj (Prod.mk.inj hrun).1).trans has)
  refine hmany.bind fun as has _ => .after fun _ _ => .after fun _ _ => .after fun _ _ => ?_
  exact .pure has

/-- No other class is read back from its normalized form. -/
theorem readable_of_gives {k : CharClass} (hordered : k.parts.all (·.isOrdered) = true) :
    charClass.Gives (k.spelled escapeMember) fun k' => k' = k → k.Readable := by
  obtain ⟨parts, inverted, ignoreCase⟩ := k
  have hopening : ∀ behind, (Reader.text "[").Accepts ['['] behind anything := fun _ =>
    accepts_text rfl
  have hcaret : ∀ behind, (succeeds (Reader.text "^")).Accepts ['^'] behind (· = true) := fun _ =>
    (accepts_text rfl).succeeds
  refine .named ((hopening _).thenGives fun _ _ => ?_) _
  cases inverted with
  | true =>
    refine (hcaret _).thenGives ?_
    rintro _ rfl
    refine (gives_readable hordered).mono ?_
    rintro _ hparts rfl
    exact ⟨hparts rfl, nofun⟩
  | false =>
    by_cases hfirst : ∃ p ∈ parts.head?, p.first = '^'
    · -- The caret is taken for the sign.
      obtain ⟨p, hp, hp'⟩ := hfirst
      have hhead : p.first ∈
          (parts.flatMap (·.spelled escapeMember) ++ ']' :: caseFlag ignoreCase).head? :=
        ClassPart.head_parts_of_plain hp (by rw [hp']; rfl)
      obtain ⟨behind, hbehind⟩ := List.head?_eq_some_iff.mp (hp' ▸ hhead)
      have hsigned : (succeeds (Reader.text "^") >>= behindSign).Gives ('^' :: behind)
          (·.inverted = true) := by
        refine (hcaret behind).thenGives ?_
        rintro _ rfl
        exact gives_inverted
      rw [← hbehind] at hsigned
      refine hsigned.mono ?_
      rintro _ hinverted rfl
      nomatch hinverted
    · have hsign : (succeeds (Reader.text "^")).Accepts []
          (parts.flatMap (·.spelled escapeMember) ++ ']' :: caseFlag ignoreCase) (· = false) := by
        refine Rejects.succeeds (rejects_text_of_head rfl ?_)
        rintro _ hd rfl
        rcases ClassPart.head_parts '^' hd with hmark | hmark | ⟨p, hp, hp', -⟩
        · nomatch hmark
        · nomatch hmark
        · exact hfirst ⟨p, hp, hp'.symm⟩
      refine hsign.thenGives ?_
      rintro _ rfl
      refine (gives_readable hordered).mono ?_
      rintro _ hparts rfl
      exact ⟨hparts rfl, fun _ p hp hp' => hfirst ⟨p, hp, hp'⟩⟩

end Notation

end Packrat
