import Packrat.Proofs.Failures

/-!
# Steps by byte offsets

A cursor carries the text ahead of it, and the steps of a parse go over its characters. A parse that
has nothing but a text of bytes and an offset into it goes about them differently: it cuts the rest
of the text off at the offset, works out a length in bytes, and then cuts off that many. Every cut
can go wrong, at an offset inside a character or beyond the end.

Here the steps are spelled that way. Each has a length of its own: the bytes of a literal, those in
front of the first character that differs from the literal, a running end where case is ignored, the
bytes of one character. Where the cursor stands in its text none of the cuts goes wrong, and the
steps do what they do by characters.

## Main results

* `Cursor.Within.cut`: the text cut off at the offset of a cursor is what the cursor has ahead
* `Cursor.Within.exists_advance?`: a length that ends on a boundary can be consumed
* `literal?_eq`, `literalIgnoringCase?_eq`, `charWhere?_eq`: the steps by offsets are the steps
-/

namespace Packrat

open Text (byteLength splitAtByte?)

/-- A character begins at the offset, or the text ends there. -/
def Text.IsBoundary (text : List Char) (offset : Nat) : Prop :=
  ∃ before after, text = before ++ after ∧ byteLength before = offset

namespace Cursor

variable {tracked : Bool} {text : List Char} {c : Cursor}

/-- The text cut off at the offset of a cursor is what the cursor has ahead. -/
theorem Within.cut (h : Within tracked text c) :
    ∃ before, splitAtByte? c.offset text = some (before, c.ahead) := by
  obtain ⟨before, htext, hoffset⟩ := h.exists_before
  exact ⟨before, Text.splitAtByte?_eq_some_iff.mpr ⟨htext, hoffset.symm⟩⟩

/-- Whole characters can be consumed. -/
theorem advance?_take (c : Cursor) (n : Nat) :
    c.advance? (byteLength (c.ahead.take n)) = some (c.ahead.take n, c.skip n) := by
  have hcut := Text.splitAtByte?_append (c.ahead.take n) (c.ahead.drop n)
  rw [List.take_append_drop] at hcut
  rw [advance?, hcut]
  rfl

/-- A length that ends on a boundary of the text can be consumed. -/
theorem Within.exists_advance? (h : Within tracked text c) {len : Nat}
    (hlen : Text.IsBoundary text (c.offset + len)) :
    ∃ taken d, c.advance? len = some (taken, d) := by
  obtain ⟨passed, htext, hoffset⟩ := h.exists_before
  obtain ⟨before, after, htext', hbefore⟩ := hlen
  obtain ⟨taken, rfl, hahead⟩ | ⟨rest, hpassed, -⟩ :=
    List.append_eq_append_iff.mp (htext.symm.trans htext')
  · have htaken : byteLength taken = len := by
      rw [Text.byteLength_append] at hbefore
      omega
    exact ⟨taken, _, by rw [Cursor.advance?, hahead, ← htaken, Text.splitAtByte?_append]; rfl⟩
  · -- The boundary is not behind the cursor, so nothing is consumed.
    have hzero : len = 0 := by
      rw [hpassed, Text.byteLength_append] at hoffset
      omega
    exact ⟨[], _, by rw [hzero, Cursor.advance?, splitAtByte?]; rfl⟩

end Cursor

namespace State

/-- The rest of the text, cut off at the offset. -/
def rest? (s : State) : Except Fault (List Char) :=
  match splitAtByte? s.offset s.text with
  | some (_, rest) => .ok rest
  | none => .error .offsetNotABoundary

/-- Bytes in front of the first character that differs from its counterpart, or all of them. -/
def firstMismatch : List Char → List Char → Nat
  | a :: as, b :: bs => if a = b then a.utf8Size + firstMismatch as bs else 0
  | as, _ => byteLength as

/-- Matches a text, by offsets. -/
def literal? (s : State) (value description : String) : Except Fault (Option Value × State) := do
  let rest ← s.rest?
  if value.toList <+: rest then
    let (_, s) ← s.advance? (byteLength value.toList)
    return (some (.str value), s)
  else
    return (none, ← s.failAfter? (firstMismatch rest value.toList) description)

/-- Where the characters stop to agree but for case, counted from `reached` on, and whether all that
are wanted are there. -/
def runningEnd (reached : Nat) : List Char → List Char → Nat × Bool
  | _, [] => (reached, true)
  | [], _ :: _ => (reached, false)
  | a :: as, b :: bs =>
    if Text.lower a == Text.lower b then runningEnd (reached + a.utf8Size) as bs
    else (reached, false)

/-- Matches a text without regard to case, by offsets. -/
def literalIgnoringCase? (s : State) (value description : String) :
    Except Fault (Option Value × State) := do
  let rest ← s.rest?
  match runningEnd 0 rest value.toList with
  | (len, true) =>
    let (taken, s) ← s.advance? len
    return (some (.str taken), s)
  | (len, false) => return (none, ← s.failAfter? len description)

/-- Consumes one character that satisfies `p`, by offsets. -/
def charWhere? (s : State) (p : Char → Bool) (description : String) :
    Except Fault (Option Char × State) := do
  match ← s.rest? with
  | c :: _ =>
    if p c then
      let (_, s) ← s.advance? c.utf8Size
      return (some c, s)
    else return (none, s.fail description)
  | [] => return (none, s.fail description)

variable {tracked : Bool} {text : List Char} {s : State}

theorem rest?_eq (h : s.cursor.Within tracked s.text) : s.rest? = .ok s.cursor.ahead := by
  obtain ⟨before, hcut⟩ := h.cut
  rw [rest?, offset, hcut]

theorem advance?_take (s : State) (n : Nat) : s.advance? (byteLength (s.cursor.ahead.take n)) =
    .ok (String.ofList (s.cursor.ahead.take n), s.moveTo (s.cursor.skip n)) := by
  rw [advance?, s.cursor.advance?_take]

/-- A failure behind bytes that can be consumed is reported there. -/
theorem failAfter?_of_advance? {len : Nat} {taken : List Char} {place : Cursor}
    (h : s.cursor.advance? len = some (taken, place)) (description : String) :
    s.failAfter? len description = .ok (s.failAt place description) := by
  rw [failAfter?, h]
  split
  · rfl
  · next hreporting => rw [failAt, if_neg hreporting]

/-- In front of a text that is not there, the first mismatch is behind the characters that agree. -/
theorem firstMismatch_eq {as bs : List Char} (h : ¬ bs <+: as) :
    firstMismatch as bs = byteLength (as.take (agreement (agree false) as bs)) := by
  induction bs generalizing as with
  | nil => exact absurd List.nil_prefix h
  | cons b bs ih =>
    cases as with
    | nil => rfl
    | cons a as =>
      rw [firstMismatch, agreement]
      by_cases hab : a = b
      · subst hab
        have hrest : ¬ bs <+: as := fun hprefix => h (List.cons_prefix_cons.mpr ⟨rfl, hprefix⟩)
        have hagree : agree false a a = true := by simp [agree]
        rw [if_pos rfl, if_pos hagree, ih hrest, List.take_succ_cons, Text.byteLength_cons]
      · have hagree : ¬ agree false a b = true := by simpa [agree] using hab
        rw [if_neg hab, if_neg hagree, List.take_zero, Text.byteLength_nil]

/-- The running end is behind the characters that agree. -/
theorem runningEnd_eq (reached : Nat) (as bs : List Char) : runningEnd reached as bs =
    (reached + byteLength (as.take (agreement (agree true) as bs)),
      decide (agreement (agree true) as bs = bs.length)) := by
  induction bs generalizing reached as with
  | nil => cases as <;> simp [runningEnd, agreement]
  | cons b bs ih =>
    cases as with
    | nil => simp [runningEnd, agreement]
    | cons a as =>
      rw [runningEnd, agreement]
      by_cases hab : (Text.lower a == Text.lower b) = true
      · have hagree : agree true a b = true := hab
        rw [if_pos hab, if_pos hagree, ih, List.take_succ_cons, Text.byteLength_cons, Nat.add_assoc]
        simp
      · have hagree : ¬ agree true a b = true := hab
        rw [if_neg hab, if_neg hagree]
        simp

/-! ### The steps -/

theorem literal?_eq (h : s.cursor.Within tracked s.text) (value description : String) :
    s.literal? value description = .ok (s.literal value false description) := by
  have hbytes := s.advance?_take value.toList.length
  have hfail := failAfter?_of_advance? (s.cursor.advance?_take
    (agreement (agree false) s.cursor.ahead value.toList)) description
  rw [literal?, rest?_eq h]
  show (if value.toList <+: s.cursor.ahead then _ else _) = _
  by_cases hprefix : value.toList <+: s.cursor.ahead
  · have htake := (List.prefix_iff_eq_take.mp hprefix).symm
    rw [htake] at hbytes
    rw [if_pos hprefix, hbytes, literal, agreement_eq_length_iff.mpr hprefix, if_pos rfl, htake,
      String.ofList_toList]
    rfl
  · have hpart : agreement (agree false) s.cursor.ahead value.toList ≠ value.toList.length :=
      fun heq => hprefix (agreement_eq_length_iff.mp heq)
    rw [if_neg hprefix, firstMismatch_eq hprefix, hfail, literal, if_neg hpart]
    rfl

theorem literalIgnoringCase?_eq (h : s.cursor.Within tracked s.text) (value description : String) :
    s.literalIgnoringCase? value description = .ok (s.literal value true description) := by
  have hbytes := s.advance?_take (agreement (agree true) s.cursor.ahead value.toList)
  have hfail := failAfter?_of_advance? (s.cursor.advance?_take
    (agreement (agree true) s.cursor.ahead value.toList)) description
  rw [literalIgnoringCase?, rest?_eq h]
  show (match runningEnd 0 s.cursor.ahead value.toList with
    | (len, true) => _
    | (len, false) => _) = _
  rw [runningEnd_eq, Nat.zero_add]
  by_cases hall : agreement (agree true) s.cursor.ahead value.toList = value.toList.length
  · rw [decide_eq_true hall]
    dsimp only
    rw [hbytes, literal, if_pos hall]
    rfl
  · rw [decide_eq_false hall]
    dsimp only
    rw [hfail, literal, if_neg hall]
    rfl

theorem charWhere?_eq (h : s.cursor.Within tracked s.text) (p : Char → Bool)
    (description : String) : s.charWhere? p description = .ok (s.charWhere p description) := by
  have hbytes := s.advance?_take 1
  rw [charWhere?, rest?_eq h, charWhere]
  show (match s.cursor.ahead with
    | c :: _ => _
    | [] => _) = _
  cases hahead : s.cursor.ahead with
  | nil => rfl
  | cons c rest =>
    dsimp only
    split
    · have hone : byteLength (s.cursor.ahead.take 1) = c.utf8Size := by
        rw [hahead]
        rfl
      have hstep : s.cursor.skip 1 = s.cursor.step := by
        rw [Cursor.skip, Cursor.step, hahead]
        rfl
      rw [hone, hstep] at hbytes
      rw [hbytes]
      rfl
    · rfl

end State

end Packrat
