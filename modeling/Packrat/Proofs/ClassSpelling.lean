import Packrat.Proofs.Spelling

/-!
# Classes in their normalized form

The normalized form of a class writes its entries one behind the other, and each character in the
same way wherever it stands. `Spelling` lists the ways, and `unescape` gets back the character that
a text begins with. Characters are told apart whatever stands behind them, and since no character
begins with a dash or a bracket, so are entries. The normalized form therefore determines the class,
but for one thing: a caret is not escaped, and in first place it is also the sign of an inverted
class.

## Main results

* `escapeMember_append_inj`: what stands behind a character does not run into it
* `rawClass_eq_iff`: classes with the same normalized form are the same up to a leading caret
-/

namespace Packrat

/-! ### Spellings of members -/

namespace Text

open Notation (isLineEnd escapedChar charOfCode hexNumber)

/-- Characters that stand behind a backslash for themselves or for others. -/
def letters : List Char := ['\\', '/', ']', '-', 't', 'n', 'f', 'r']

/-- The ways to write a member of a class. -/
inductive Spelling : Char → List Char → Prop
  | plain {c : Char} : c ∉ ['\\', '-', ']'] → needsCode c = false → Spelling c [c]
  | letter {c : Char} : c ∈ letters → Spelling (escapedChar c) ['\\', c]
  | zero : Spelling '\x00' ['\\', '0']
  | pair {c : Char} : c.toNat ≤ 0xFF → Spelling c ('\\' :: 'x' :: hexDigits 2 c.toNat)
  | unit {c : Char} : isBasic c = true → Spelling c (unitEscape c)
  | units {c : Char} : isBasic c = false → Spelling c
      ('\\' :: 'u' :: (hexDigits 4 (0xD800 + (c.toNat - 0x10000) / 0x400) ++
        '\\' :: 'u' :: hexDigits 4 (0xDC00 + (c.toNat - 0x10000) % 0x400)))

theorem spelling_escapeByCode (c : Char) : Spelling c (escapeByCode c) := by
  unfold escapeByCode
  split
  · next h => exact .pair h
  · cases hbasic : isBasic c with
    | true =>
      rw [utf16Units, if_pos (of_decide_eq_true hbasic), List.flatMap_singleton]
      exact .unit hbasic
    | false =>
      rw [utf16Units, if_neg (of_decide_eq_false hbasic)]
      exact .units hbasic

theorem spelling_escapeMember (c : Char) : Spelling c (escapeMember c) := by
  unfold escapeMember
  split
  · exact .letter (c := '\\') (by decide)
  · exact .letter (c := '/') (by decide)
  · exact .letter (c := ']') (by decide)
  · exact .letter (c := '-') (by decide)
  · exact .zero
  · exact .letter (c := 't') (by decide)
  · exact .letter (c := 'n') (by decide)
  · exact .pair (c := '\x0b') (by decide)
  · exact .letter (c := 'f') (by decide)
  · exact .letter (c := 'r') (by decide)
  · next hbackslash _ hbracket hdash _ _ _ _ _ _ =>
    split
    · exact spelling_escapeByCode c
    · next hcode =>
      refine .plain ?_ (Bool.eq_false_iff.mpr hcode)
      simp only [List.mem_cons, List.not_mem_nil, not_or, or_false]
      exact ⟨hbackslash, hdash, hbracket⟩

/-- The first member of a text in which members are written so, and what stands behind it. -/
def unescape : List Char → Option (Char × List Char)
  | '\\' :: 'x' :: cs => some (charOfCode (hexNumber (cs.take 2)), cs.drop 2)
  | '\\' :: 'u' :: cs =>
    let unit := hexNumber (cs.take 4)
    if 0xD800 ≤ unit ∧ unit < 0xDC00 then
      let second := hexNumber ((cs.drop 6).take 4)
      some (charOfCode (0x10000 + (unit - 0xD800) * 0x400 + (second - 0xDC00)), cs.drop 10)
    else some (charOfCode unit, cs.drop 4)
  | '\\' :: '0' :: cs => some ('\x00', cs)
  | '\\' :: c :: cs => some (escapedChar c, cs)
  | c :: cs => some (c, cs)
  | [] => none

theorem toNat_lt (c : Char) : c.toNat < 0x110000 := by
  rcases c.valid with h | ⟨-, h⟩
  · exact Nat.lt_trans h (by decide)
  · exact h

/-- No unit of a pair is a character. -/
theorem not_surrogate (c : Char) : ¬ (0xD800 ≤ c.toNat ∧ c.toNat < 0xDC00) := by
  rintro ⟨hlow, hhigh⟩
  rcases c.valid with h | ⟨h, -⟩
  · exact absurd (Nat.lt_of_lt_of_le h hlow) (Nat.lt_irrefl _)
  · exact absurd (Nat.lt_trans h hhigh) (by decide)

theorem unescape_unit (unit : Nat) (h : unit < 16 ^ 4) (rest : List Char) :
    unescape ('\\' :: 'u' :: (hexDigits 4 unit ++ rest)) =
      if 0xD800 ≤ unit ∧ unit < 0xDC00 then
        some (charOfCode (0x10000 + (unit - 0xD800) * 0x400 +
          (hexNumber ((rest.drop 2).take 4) - 0xDC00)), rest.drop 6)
      else some (charOfCode unit, rest) := by
  have hdrop : ∀ n, (hexDigits 4 unit ++ rest).drop (4 + n) = rest.drop n := fun n => by
    rw [← List.drop_drop, List.drop_left' (length_hexDigits 4 unit)]
  rw [unescape, List.take_left' (length_hexDigits 4 unit), Notation.hexNumber_hexDigits h, hdrop 2,
    hdrop 6, hdrop 0]
  rfl

theorem unescape_plain {c : Char} (h : c ≠ '\\') (rest : List Char) :
    unescape (c :: rest) = some (c, rest) := by
  simp [unescape, h]

theorem unescape_letter {c : Char} (h : c ∉ ['x', 'u', '0']) (rest : List Char) :
    unescape ('\\' :: c :: rest) = some (escapedChar c, rest) := by
  simp only [List.mem_cons, List.not_mem_nil, not_or, or_false] at h
  obtain ⟨hx, hu, hzero⟩ := h
  rw [unescape]
  exacts [hx, hu, hzero]

theorem unescape_spelling {c : Char} {cs : List Char} (h : Spelling c cs) (rest : List Char) :
    unescape (cs ++ rest) = some (c, rest) := by
  cases h with
  | plain hmarks _ => exact unescape_plain (fun hc => hmarks (hc ▸ List.mem_cons_self)) rest
  | @letter c hc =>
    have hother : ∀ c ∈ letters, c ∉ ['x', 'u', '0'] := by decide
    exact unescape_letter (hother c hc) rest
  | zero => rfl
  | pair hc =>
    rw [List.cons_append, List.cons_append, unescape, List.take_left' (length_hexDigits 2 _),
      List.drop_left' (length_hexDigits 2 _), Notation.hexNumber_hexDigits (Nat.lt_succ_of_le hc),
      Notation.charOfCode_toNat]
  | unit hc =>
    rw [unitEscape, List.cons_append, List.cons_append,
      unescape_unit _ (Nat.lt_succ_of_le (of_decide_eq_true hc)), if_neg (not_surrogate c),
      Notation.charOfCode_toNat]
  | units hc =>
    have hc : 0x10000 ≤ c.toNat := Nat.lt_of_not_le (of_decide_eq_false hc)
    have hlt := toNat_lt c
    have hcode : 0x10000 + (0xD800 + (c.toNat - 0x10000) / 0x400 - 0xD800) * 0x400 +
        (0xDC00 + (c.toNat - 0x10000) % 0x400 - 0xDC00) = c.toNat := by omega
    rw [List.cons_append, List.cons_append, List.append_assoc, unescape_unit _ (by omega),
      if_pos (by omega), List.cons_append, List.cons_append, List.drop_succ_cons,
      List.drop_succ_cons, List.drop_zero, List.drop_succ_cons, List.drop_succ_cons,
      List.take_left' (length_hexDigits 4 _), List.drop_left' (length_hexDigits 4 _),
      Notation.hexNumber_hexDigits (by omega), hcode, Notation.charOfCode_toNat]

/-- What stands behind an escaped character does not run into it if it is got back whatever stands
there. -/
theorem append_inj_of_unescape {escape : Char → List Char}
    (hback : ∀ c rest, unescape (escape c ++ rest) = some (c, rest)) {c d : Char}
    {cs ds : List Char} (h : escape c ++ cs = escape d ++ ds) : c = d ∧ cs = ds := by
  have hunescape := congrArg unescape h
  rw [hback, hback] at hunescape
  exact Prod.mk.inj (Option.some.inj hunescape)

theorem unescape_escapeMember (c : Char) (rest : List Char) :
    unescape (escapeMember c ++ rest) = some (c, rest) :=
  unescape_spelling (spelling_escapeMember c) rest

/-- What stands behind a member does not run into it. -/
theorem escapeMember_append_inj {c d : Char} {cs ds : List Char}
    (h : escapeMember c ++ cs = escapeMember d ++ ds) : c = d ∧ cs = ds :=
  append_inj_of_unescape unescape_escapeMember h

/-- A member begins with a backslash or is itself, and then it is no mark of a class. -/
theorem Spelling.head {c : Char} {cs rest : List Char} (h : Spelling c cs) :
    ∀ d ∈ (cs ++ rest).head?, d = '\\' ∨ d = c ∧ d ∉ ['\\', '-', ']'] := by
  cases h with
  | plain hmarks _ => exact Notation.forall_head (.inr ⟨rfl, hmarks⟩)
  | _ => exact Notation.forall_head (.inl rfl)

theorem head_escapeMember {c : Char} {rest : List Char} :
    ∀ d ∈ (escapeMember c ++ rest).head?, d = '\\' ∨ d = c ∧ d ∉ ['\\', '-', ']'] :=
  (spelling_escapeMember c).head

end Text

/-! ### Spellings of classes -/

open Text (escapeMember escapeMember_append_inj head_escapeMember)

namespace ClassPart

/-- The character that an entry begins with. -/
def first : ClassPart → Char
  | single c => c
  | range first _ => first

/-- The character that an entry ends with. -/
def last : ClassPart → Char
  | single c => c
  | range _ last => last

theorem rawPart_eq (p : ClassPart) : Notation.rawPart p = p.spelled escapeMember := by
  cases p <;> rfl

theorem spelled_append_inj {p q : ClassPart} {cs ds : List Char} (hcs : ∀ c ∈ cs.head?, c ≠ '-')
    (hds : ∀ d ∈ ds.head?, d ≠ '-')
    (h : p.spelled escapeMember ++ cs = q.spelled escapeMember ++ ds) : p = q ∧ cs = ds := by
  cases p with
  | single c =>
    cases q with
    | single d =>
      obtain ⟨rfl, rfl⟩ := escapeMember_append_inj h
      exact ⟨rfl, rfl⟩
    | range d d' =>
      -- A dash between members is written as it is, a member that is one is not.
      rw [spelled, spelled, List.append_assoc] at h
      obtain ⟨rfl, rfl⟩ := escapeMember_append_inj h
      exact absurd rfl (hcs '-' rfl)
  | range c c' =>
    cases q with
    | single d =>
      rw [spelled, spelled, List.append_assoc] at h
      obtain ⟨rfl, rfl⟩ := escapeMember_append_inj h
      exact absurd rfl (hds '-' rfl)
    | range d d' =>
      rw [spelled, spelled, List.append_assoc, List.append_assoc] at h
      obtain ⟨rfl, htail⟩ := escapeMember_append_inj h
      obtain ⟨rfl, rfl⟩ := escapeMember_append_inj (List.cons.inj htail).2
      exact ⟨rfl, rfl⟩

theorem head_spelled {p : ClassPart} {rest : List Char} :
    ∀ d ∈ (p.spelled escapeMember ++ rest).head?,
      d = '\\' ∨ d = p.first ∧ d ∉ ['\\', '-', ']'] := by
  cases p with
  | single c => exact head_escapeMember
  | range c c' =>
    rw [spelled, List.append_assoc]
    exact head_escapeMember

/-- Behind an entry there is the bracket, or another entry, which does not begin with a dash. -/
theorem head_parts {parts : List ClassPart} {rest : List Char} :
    ∀ d ∈ (parts.flatMap (·.spelled escapeMember) ++ ']' :: rest).head?,
      d = ']' ∨ d = '\\' ∨ ∃ p ∈ parts.head?, d = p.first ∧ d ∉ ['\\', '-', ']'] := by
  cases parts with
  | nil => exact Notation.forall_head (.inl rfl)
  | cons p parts =>
    rw [List.flatMap_cons, List.append_assoc]
    intro d hd
    rcases head_spelled d hd with h | h
    · exact .inr (.inl h)
    · exact .inr (.inr ⟨p, rfl, h⟩)

/-- An entry begins with its first character if that one is not escaped. -/
theorem head_parts_of_plain {parts : List ClassPart} {rest : List Char} {p : ClassPart}
    (hp : p ∈ parts.head?) (hplain : escapeMember p.first = [p.first]) :
    p.first ∈ (parts.flatMap (·.spelled escapeMember) ++ ']' :: rest).head? := by
  obtain ⟨parts, rfl⟩ := List.head?_eq_some_iff.mp hp
  rw [List.flatMap_cons]
  cases p with
  | single c =>
    have hc : escapeMember c = [c] := hplain
    rw [spelled, hc]
    rfl
  | range c d =>
    have hc : escapeMember c = [c] := hplain
    rw [spelled, hc]
    rfl

theorem spelled_ne_nil (p : ClassPart) : p.spelled escapeMember ≠ [] := by
  have hmember : ∀ c, escapeMember c ≠ [] := by
    intro c hnil
    have hunescape := Text.unescape_escapeMember c []
    rw [hnil] at hunescape
    nomatch hunescape
  cases p with
  | single c => exact hmember c
  | range c d => exact List.append_ne_nil_of_left_ne_nil (hmember c) _

theorem head_parts_ne {parts : List ClassPart} {rest : List Char} :
    ∀ d ∈ (parts.flatMap (·.spelled escapeMember) ++ ']' :: rest).head?, d ≠ '-' := by
  rintro _ hd rfl
  rcases head_parts _ hd with h | h | ⟨p, -, -, hmark⟩
  · nomatch h
  · nomatch h
  · exact hmark (by decide)

theorem parts_append_inj {ps qs : List ClassPart} {cs ds : List Char}
    (h : ps.flatMap (·.spelled escapeMember) ++ ']' :: cs =
      qs.flatMap (·.spelled escapeMember) ++ ']' :: ds) : ps = qs ∧ cs = ds := by
  have hbracket : ∀ (q : ClassPart) (rest tail : List Char),
      q.spelled escapeMember ++ rest ≠ ']' :: tail := by
    intro q rest tail heq
    rcases head_spelled ']' (heq ▸ rfl : ']' ∈ (q.spelled escapeMember ++ rest).head?) with
      h | ⟨-, hmark⟩
    · nomatch h
    · exact hmark (by decide)
  -- No entry begins with a bracket, so neither list ends where the other one goes on.
  induction ps generalizing qs with
  | nil =>
    cases qs with
    | nil => exact ⟨rfl, (List.cons.inj h).2⟩
    | cons q qs =>
      rw [List.flatMap_cons, List.append_assoc] at h
      exact absurd h.symm (hbracket q _ _)
  | cons p ps ih =>
    cases qs with
    | nil =>
      rw [List.flatMap_cons, List.append_assoc] at h
      exact absurd h (hbracket p _ _)
    | cons q qs =>
      rw [List.flatMap_cons, List.flatMap_cons, List.append_assoc, List.append_assoc] at h
      obtain ⟨rfl, htail⟩ := spelled_append_inj head_parts_ne head_parts_ne h
      obtain ⟨rfl, rfl⟩ := ih htail
      exact ⟨rfl, rfl⟩

end ClassPart

namespace CharClass

theorem rawClass_eq (k : CharClass) :
    Notation.rawClass k = String.ofList (k.spelled escapeMember) := by
  have hparts : k.parts.flatMap Notation.rawPart = k.parts.flatMap (·.spelled escapeMember) :=
    List.flatMap_congr fun p _ => p.rawPart_eq
  rw [Notation.rawClass, hparts, spelled, caseFlag]
  simp only [List.cons_append, List.append_assoc]

/-- The class with a caret as its first member where another one has the sign of an inverted class.
-/
def caretForm (k : CharClass) : CharClass := ⟨.single '^' :: k.parts, false, k.ignoreCase⟩

theorem rawClass_caretForm {k : CharClass} (h : k.inverted = true) :
    Notation.rawClass k.caretForm = Notation.rawClass k := by
  rw [rawClass_eq, rawClass_eq, spelled, spelled, h]
  rfl

theorem caseFlag_inj {a b : Bool} (h : caseFlag a = caseFlag b) : a = b := by
  cases a <;> cases b <;> first | rfl | nomatch h

/-- Classes that have the sign of an inverted class, or have it not, are told apart by their parts.
-/
theorem spelled_inj {k k' : CharClass} (hinverted : k.inverted = k'.inverted)
    (h : k.spelled escapeMember = k'.spelled escapeMember) : k = k' := by
  obtain ⟨parts, inverted, ignoreCase⟩ := k
  obtain ⟨parts', _, ignoreCase'⟩ := k'
  obtain rfl := hinverted
  have hbehind := List.append_cancel_left (List.cons.inj h).2
  obtain ⟨rfl, hflag⟩ := ClassPart.parts_append_inj hbehind
  obtain rfl : ignoreCase = ignoreCase' := caseFlag_inj hflag
  rfl

/-- A sign of an inverted class can be taken for a member. -/
theorem eq_caretForm {k k' : CharClass} (hk : k.inverted = true) (hk' : k'.inverted = false)
    (h : Notation.rawClass k = Notation.rawClass k') : k' = k.caretForm := by
  rw [← rawClass_caretForm hk, rawClass_eq, rawClass_eq] at h
  exact (spelled_inj hk'.symm (String.ofList_injective h)).symm

/-- Classes with the same normalized form are the same, but for a caret that begins the one and is
the sign of the other. -/
theorem rawClass_eq_iff {k k' : CharClass} : Notation.rawClass k = Notation.rawClass k' ↔
    k = k' ∨ (k.inverted = true ∧ k' = k.caretForm) ∨
      (k'.inverted = true ∧ k = k'.caretForm) := by
  constructor
  · intro h
    by_cases hinverted : k.inverted = k'.inverted
    · rw [rawClass_eq, rawClass_eq] at h
      exact .inl (spelled_inj hinverted (String.ofList_injective h))
    · cases hk : k.inverted with
      | true =>
        have hk' : k'.inverted = false :=
          Bool.eq_false_iff.mpr fun hk' => hinverted (hk.trans hk'.symm)
        exact .inr (.inl ⟨rfl, eq_caretForm hk hk' h⟩)
      | false =>
        have hk' : k'.inverted = true :=
          (Bool.not_eq_false _).mp fun hk' => hinverted (hk.trans hk'.symm)
        exact .inr (.inr ⟨hk', eq_caretForm hk' hk h.symm⟩)
  · rintro (rfl | ⟨hk, rfl⟩ | ⟨hk', rfl⟩)
    · rfl
    · exact (rawClass_caretForm hk).symm
    · exact rawClass_caretForm hk'

end CharClass

end Packrat
