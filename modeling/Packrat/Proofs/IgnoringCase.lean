import Packrat.State

/-!
# Two ways to ignore case

A literal that ignores case compares full small forms. A class that ignores case looks up the
character, its small form and its capital form, where these are single characters. The two would be
the same if small and capital forms were inverse to each other, and Unicode has exceptions both
ways: the Kelvin sign has the small form `k`, which has another capital form; the long s has the
capital form `S`, which has another small form; and letters with a capital form of several
characters have no capital form for a class at all.

There are finitely many such pairs, and they are listed here: `literalOnly` are the pairs that only
the literal lets pass, `classOnly` those that only the class does. Outside of the two lists literals
and classes agree on all characters.

The case mappings are tables of runs, so facts about all characters come down to facts about the
entries of the tables, which are checked. What the checks need is an enumeration of each run and a
lookup that does not start at the beginning of the table (`lookUpNear`).

## Main results

* `Text.caseTables`: what the tables hold
* `Text.CaseTables.isForm_iff`: the two relations differ on the listed pairs
* `CharClass.accepts_singles_iff`: classes and literals that ignore case
-/

namespace Packrat

namespace Text

/-! ### Runs, character by character -/

namespace CaseRun

variable {r : CaseRun} {n m : Nat}

/-- The codes of a run with their images. -/
def pairs (r : CaseRun) : List (Nat × Nat) :=
  (List.range ((r.last - r.first) / r.step + 1)).map fun i =>
    (r.first + i * r.step, r.image + i * r.step)

theorem map?_eq_some_iff :
    r.map? n = some m ↔
      r.first ≤ n ∧ n ≤ r.last ∧ r.step ∣ n - r.first ∧ r.image + (n - r.first) = m := by
  rw [map?, Option.ite_none_right_eq_some, Option.some.injEq, Nat.dvd_iff_mod_eq_zero, and_assoc,
    and_assoc]

theorem mem_pairs (h : r.map? n = some m) : (n, m) ∈ r.pairs := by
  obtain ⟨hfirst, hlast, hstep, rfl⟩ := map?_eq_some_iff.mp h
  have hn : (n - r.first) / r.step * r.step = n - r.first := Nat.div_mul_cancel hstep
  have hindex : (n - r.first) / r.step ≤ (r.last - r.first) / r.step :=
    Nat.div_le_div_right (Nat.sub_le_sub_right hlast _)
  refine List.mem_map.mpr ⟨_, List.mem_range.mpr (Nat.lt_succ_of_le hindex), ?_⟩
  rw [hn, Nat.add_sub_cancel' hfirst]

theorem image_le (h : r.map? n = some m) : r.image ≤ m := by
  obtain ⟨-, -, -, rfl⟩ := map?_eq_some_iff.mp h
  exact Nat.le_add_right ..

/-- The code that a run maps to `m`. -/
def source? (r : CaseRun) (m : Nat) : Option Nat :=
  if Nat.ble r.image m && Nat.ble (m - r.image) (r.last - r.first) then
    some (r.first + (m - r.image))
  else none

theorem source?_of_map? (h : r.map? n = some m) : r.source? m = some n := by
  obtain ⟨hfirst, hlast, -, rfl⟩ := map?_eq_some_iff.mp h
  have hin : Nat.ble r.image (r.image + (n - r.first)) = true :=
    Nat.ble_eq.mpr (Nat.le_add_right ..)
  have hlength : Nat.ble (n - r.first) (r.last - r.first) = true := Nat.ble_eq.mpr (by omega)
  rw [source?, hin, Nat.add_sub_cancel_left, hlength, Nat.add_sub_cancel' hfirst]
  rfl

end CaseRun

variable {runs : List CaseRun} {n m : Nat} {c d : Char}

theorem exists_run (h : lookUpCase runs n = some m) : ∃ r ∈ runs, r.map? n = some m := by
  fun_induction lookUpCase runs n with
  | case1 => cases h
  | case2 => cases h
  | case3 r runs n hn ih =>
    cases hmap : r.map? n with
    | some m' =>
      rw [hmap] at h
      exact ⟨r, List.mem_cons_self, hmap.trans h⟩
    | none =>
      rw [hmap] at h
      obtain ⟨r', hr', hmap'⟩ := ih h
      exact ⟨r', List.mem_cons_of_mem _ hr', hmap'⟩

/-- No code of the runs is behind this one. -/
def endOf (runs : List CaseRun) : Nat := runs.foldr (fun r e => max (max r.first r.last) e) 0

/-- Takes runs that end before a code off the table, up to `count` times `width` of them. -/
def skipRuns (width : Nat) : Nat → List CaseRun → Nat → List CaseRun
  | 0, runs, _ => runs
  | count + 1, runs, n =>
    bif Nat.blt (endOf (runs.take width)) n then skipRuns width count (runs.drop width) n else runs

/-- `lookUpCase` with comparisons that are evaluated at once. -/
def walkRuns : List CaseRun → Nat → Option Nat
  | [], _ => none
  | r :: runs, n =>
    bif Nat.blt n r.first then none
    else bif Nat.ble n r.last && Nat.beq ((n - r.first) % r.step) 0 then
      some (r.image + (n - r.first))
    else walkRuns runs n

/-- Looks a code up in the runs around `m`. The runs in front of them are not visited one by one. -/
def lookUpNear (runs : List CaseRun) (m n : Nat) : Option Nat :=
  walkRuns (skipRuns 1 4 (skipRuns 4 4 (skipRuns 16 12 runs m) m) m) n

theorem lookUpCase_append {front back : List CaseRun} (h : endOf front < n) :
    lookUpCase (front ++ back) n = lookUpCase back n := by
  induction front with
  | nil => rfl
  | cons r front ih =>
    obtain ⟨hr, hfront⟩ := Nat.max_lt.mp h
    have hmap : r.map? n = none := if_neg (by omega)
    rw [List.cons_append, lookUpCase, if_neg (by omega), hmap, Option.orElse_none]
    exact ih hfront

theorem lookUpCase_skipRuns (width count : Nat) (h : m ≤ n) :
    lookUpCase (skipRuns width count runs m) n = lookUpCase runs n := by
  induction count generalizing runs with
  | zero => rfl
  | succ count ih =>
    cases hends : Nat.blt (endOf (runs.take width)) m with
    | false => rw [skipRuns, hends, cond_false]
    | true =>
      have hlt : endOf (runs.take width) < n := Nat.lt_of_lt_of_le (Nat.blt_eq.mp hends) h
      rw [skipRuns, hends, cond_true, ih, ← lookUpCase_append hlt, List.take_append_drop]

theorem walkRuns_eq (runs : List CaseRun) (n : Nat) : walkRuns runs n = lookUpCase runs n := by
  induction runs with
  | nil => rfl
  | cons r runs ih =>
    rw [walkRuns, lookUpCase, ih, CaseRun.map?]
    by_cases hlt : n < r.first
    · rw [Nat.blt_eq.mpr hlt, cond_true, if_pos hlt]
    · have hblt : Nat.blt n r.first = false :=
        Bool.eq_false_iff.mpr fun h => hlt (Nat.blt_eq.mp h)
      rw [hblt, cond_false, if_neg hlt, Bool.cond_eq_ite]
      simp only [Bool.and_eq_true, Nat.ble_eq, Nat.beq_eq, Nat.le_of_not_lt hlt, true_and]
      split <;> rfl

theorem lookUpNear_eq (h : m ≤ n) : lookUpNear runs m n = lookUpCase runs n := by
  rw [lookUpNear, walkRuns_eq, lookUpCase_skipRuns _ _ h, lookUpCase_skipRuns _ _ h,
    lookUpCase_skipRuns _ _ h]

theorem lookUpCase_eq_near (runs : List CaseRun) (n : Nat) :
    lookUpCase runs n = lookUpNear runs n n := (lookUpNear_eq (Nat.le_refl n)).symm

/-- The codes that the table maps to `m`, and perhaps others that their runs pass over. -/
def sources (runs : List CaseRun) (m : Nat) : List Nat := runs.filterMap (·.source? m)

theorem mem_sources (h : lookUpCase runs n = some m) : n ∈ sources runs m := by
  obtain ⟨r, hr, hmap⟩ := exists_run h
  exact List.mem_filterMap.mpr ⟨r, hr, CaseRun.source?_of_map? hmap⟩

/-! ### Single forms -/

/-- The code of the small form. -/
def smallCode (n : Nat) : Nat := (lookUpCase lowerRuns n).getD n

theorem lookup_upperExpansions {codes : List Nat} (h : upperExpansions.lookup n = some codes) :
    (n, codes) ∈ upperExpansions := by
  obtain ⟨before, after, htable, -⟩ := List.lookup_eq_some_iff.mp h
  rw [htable]
  exact List.mem_append_right _ List.mem_cons_self

/-- The second character counts as the first for a class. -/
def IsForm (c d : Char) : Prop := c = d ∨ lower d = [c] ∨ upper d = [c]

/-! ### The exceptions -/

/-- Pairs of a wanted character and one in the text that only a literal takes for the same. -/
def literalOnly : List (Nat × Nat) := [
  (0x4B, 0x212A), (0xC5, 0x212B), (0x1C5, 0x1C4), (0x1C5, 0x1C6), (0x1C8, 0x1C7), (0x1C8, 0x1C9),
  (0x1CB, 0x1CA), (0x1CB, 0x1CC), (0x1F2, 0x1F1), (0x1F2, 0x1F3), (0x398, 0x3F4), (0x3A9, 0x2126),
  (0x3F4, 0x398), (0x3F4, 0x3B8), (0x1E9E, 0xDF), (0x1F88, 0x1F80), (0x1F89, 0x1F81),
  (0x1F8A, 0x1F82), (0x1F8B, 0x1F83), (0x1F8C, 0x1F84), (0x1F8D, 0x1F85), (0x1F8E, 0x1F86),
  (0x1F8F, 0x1F87), (0x1F98, 0x1F90), (0x1F99, 0x1F91), (0x1F9A, 0x1F92), (0x1F9B, 0x1F93),
  (0x1F9C, 0x1F94), (0x1F9D, 0x1F95), (0x1F9E, 0x1F96), (0x1F9F, 0x1F97), (0x1FA8, 0x1FA0),
  (0x1FA9, 0x1FA1), (0x1FAA, 0x1FA2), (0x1FAB, 0x1FA3), (0x1FAC, 0x1FA4), (0x1FAD, 0x1FA5),
  (0x1FAE, 0x1FA6), (0x1FAF, 0x1FA7), (0x1FBC, 0x1FB3), (0x1FCC, 0x1FC3), (0x1FFC, 0x1FF3),
  (0x2126, 0x3A9), (0x2126, 0x3C9), (0x212A, 0x4B), (0x212A, 0x6B), (0x212B, 0xC5), (0x212B, 0xE5)]

/-- Pairs of a wanted character and one in the text that only a class takes for the same. -/
def classOnly : List (Nat × Nat) := [
  (0x49, 0x131), (0x53, 0x17F), (0x392, 0x3D0), (0x395, 0x3F5), (0x398, 0x3D1), (0x399, 0x345),
  (0x399, 0x1FBE), (0x39A, 0x3F0), (0x39C, 0xB5), (0x3A0, 0x3D6), (0x3A1, 0x3F1), (0x3A3, 0x3C2),
  (0x3A6, 0x3D5), (0x412, 0x1C80), (0x414, 0x1C81), (0x41E, 0x1C82), (0x421, 0x1C83),
  (0x422, 0x1C84), (0x422, 0x1C85), (0x42A, 0x1C86), (0x462, 0x1C87), (0x1E60, 0x1E9B),
  (0xA64A, 0x1C88)]

/-! ### What the tables hold -/

/-- What the tables and the lists of exceptions say about each other. -/
structure CaseTables : Prop where
  /-- The runs lead to characters. -/
  valid : ∀ r ∈ lowerRuns ++ upperRuns, r.image + (r.last - r.first) < 0xD800 ∨
    0xDFFF < r.image ∧ r.image + (r.last - r.first) < 0x110000
  /-- A small form leads back to each of its letters, but for the listed pairs. -/
  capital_of_small : ∀ r ∈ lowerRuns, ∀ p ∈ r.pairs,
    lookUpNear upperRuns r.image p.2 = some p.1 ∨ p ∈ literalOnly
  /-- A small form is its own small form. -/
  small_of_small : ∀ r ∈ lowerRuns, ∀ p ∈ r.pairs,
    lookUpNear lowerRuns r.image p.2 = none ∧ p.2 ≠ 0x130
  /-- A capital form has the small form of its letter, but for the listed pairs. -/
  small_of_capital : ∀ r ∈ upperRuns, ∀ p ∈ r.pairs, p.1 ≠ 0x130 ∧ p.2 ≠ 0x130 ∧
    ((lookUpNear lowerRuns r.image p.2).getD p.2 = (lookUpNear lowerRuns r.first p.1).getD p.1 ∨
      (p.2, p.1) ∈ classOnly)
  /-- Where a small form does not lead back to a letter, the other letters that share it have that
  one as their capital form, or are listed. -/
  letters_of_small : ∀ p ∈ literalOnly, ∀ n ∈ sources lowerRuns p.2, n = p.1 ∨
    (lookUpCase upperRuns p.1 = some n ∨ (n, p.1) ∈ literalOnly) ∧
      (lookUpCase upperRuns n = some p.1 ∨ (p.1, n) ∈ literalOnly)
  /-- A letter whose capital form takes several characters has no single one. -/
  capital_of_expansion : ∀ p ∈ upperExpansions,
    p.2.length ≠ 1 ∧ lookUpCase upperRuns p.1 = none
  literalOnly_codes : ∀ p ∈ literalOnly, p.1 ≠ 0x130 ∧ p.2 ≠ 0x130 ∧ p.1 ≠ p.2 ∧
    smallCode p.1 = smallCode p.2 ∧ smallCode p.2 ≠ p.1 ∧
      (p.2 ∈ upperExpansions.map Prod.fst ∨ lookUpCase upperRuns p.2 ≠ some p.1)
  classOnly_codes : ∀ p ∈ classOnly,
    smallCode p.1 ≠ smallCode p.2 ∧ lookUpCase upperRuns p.2 = some p.1

/-- Checked over the entries of the tables, in one go. Everything below is about tables that hold
this, so nothing else looks at an entry. -/
theorem caseTables : CaseTables where
  valid := by decide +kernel
  capital_of_small := by decide +kernel
  small_of_small := by decide +kernel
  small_of_capital := by decide +kernel
  letters_of_small := by
    simp only [lookUpCase_eq_near]
    decide +kernel
  capital_of_expansion := by
    simp only [lookUpCase_eq_near]
    decide +kernel
  literalOnly_codes := by
    simp only [smallCode, lookUpCase_eq_near]
    decide +kernel
  classOnly_codes := by
    simp only [smallCode, lookUpCase_eq_near]
    decide +kernel

namespace CaseTables

variable (tables : CaseTables)

include tables

/-! ### Forms of codes -/

variable {l u : Nat}

theorem capital_or_literalOnly (h : lookUpCase lowerRuns n = some l) :
    lookUpCase upperRuns l = some n ∨ (n, l) ∈ literalOnly := by
  obtain ⟨r, hr, hmap⟩ := exists_run h
  have hback := tables.capital_of_small r hr _ (CaseRun.mem_pairs hmap)
  rwa [lookUpNear_eq (CaseRun.image_le hmap)] at hback

theorem smallCode_small (h : lookUpCase lowerRuns n = some l) : smallCode l = l ∧ l ≠ 0x130 := by
  obtain ⟨r, hr, hmap⟩ := exists_run h
  obtain ⟨hnone, hl⟩ := tables.small_of_small r hr _ (CaseRun.mem_pairs hmap)
  rw [lookUpNear_eq (CaseRun.image_le hmap)] at hnone
  exact ⟨by rw [smallCode, hnone, Option.getD_none], hl⟩

theorem smallCode_capital (h : lookUpCase upperRuns n = some u) :
    n ≠ 0x130 ∧ u ≠ 0x130 ∧ (smallCode u = smallCode n ∨ (u, n) ∈ classOnly) := by
  obtain ⟨r, hr, hmap⟩ := exists_run h
  have hsmall := tables.small_of_capital r hr _ (CaseRun.mem_pairs hmap)
  rwa [lookUpNear_eq (CaseRun.image_le hmap),
    lookUpNear_eq (CaseRun.map?_eq_some_iff.mp hmap).1] at hsmall

/-- Two codes with one small form: it is the first, or the first is the capital form of the second,
or they are listed. -/
theorem forms_of_smallCode_eq (hne : n ≠ m) (h : smallCode n = smallCode m) :
    smallCode m = n ∨ lookUpCase upperRuns m = some n ∨ (n, m) ∈ literalOnly := by
  cases hn : lookUpCase lowerRuns n with
  | none =>
    rw [smallCode, hn, Option.getD_none] at h
    exact .inl h.symm
  | some l =>
    right
    rw [smallCode, hn, Option.getD_some] at h
    cases hm : lookUpCase lowerRuns m with
    | none =>
      rw [smallCode, hm, Option.getD_none] at h
      exact h ▸ tables.capital_or_literalOnly hn
    | some l' =>
      rw [smallCode, hm, Option.getD_some] at h
      subst h
      -- The small form has one capital form, so it does not lead back to both letters.
      rcases tables.capital_or_literalOnly hn, tables.capital_or_literalOnly hm with
        ⟨hback | hlisted, hback' | hlisted'⟩
      · exact absurd (Option.some.inj (hback.symm.trans hback')) hne
      · exact ((tables.letters_of_small _ hlisted' n (mem_sources hn)).resolve_left hne).1
      all_goals
        exact ((tables.letters_of_small _ hlisted m (mem_sources hm)).resolve_left hne.symm).2

/-! ### Forms of characters -/

theorem isValidChar_of_lookUpCase (hruns : runs = lowerRuns ∨ runs = upperRuns)
    (h : lookUpCase runs n = some m) : m.isValidChar := by
  obtain ⟨r, hr, hmap⟩ := exists_run h
  obtain ⟨hfirst, hlast, -, rfl⟩ := CaseRun.map?_eq_some_iff.mp hmap
  have hmem : r ∈ lowerRuns ++ upperRuns := by
    obtain rfl | rfl := hruns
    · exact List.mem_append_left _ hr
    · exact List.mem_append_right _ hr
  have hvalid := tables.valid r hmem
  unfold Nat.isValidChar
  omega

/-- A looked up form, as a character. -/
theorem toNat_getD_lookUpCase (hruns : runs = lowerRuns ∨ runs = upperRuns) (c : Char) :
    (((lookUpCase runs c.toNat).map Char.ofNat).getD c).toNat =
      (lookUpCase runs c.toNat).getD c.toNat := by
  cases h : lookUpCase runs c.toNat with
  | none => rfl
  | some m =>
    have hvalid := tables.isValidChar_of_lookUpCase hruns h
    rw [Option.map_some, Option.getD_some, Option.getD_some, Char.ofNat, dif_pos hvalid]
    rfl

theorem lower_eq (h : c.toNat ≠ 0x130) : ∃ d, lower c = [d] ∧ d.toNat = smallCode c.toNat :=
  ⟨_, if_neg h, tables.toNat_getD_lookUpCase (.inl rfl) c⟩

theorem lower_eq_singleton_iff : lower d = [c] ↔ d.toNat ≠ 0x130 ∧ smallCode d.toNat = c.toNat := by
  by_cases hd : d.toNat = 0x130
  · simp [lower, hd]
  · obtain ⟨e, he, hcode⟩ := tables.lower_eq hd
    rw [he, ← hcode, List.cons.injEq, and_iff_left rfl, Char.toNat_inj]
    exact (and_iff_right hd).symm

theorem lower_eq_lower_iff : lower c = lower d ↔
    c = d ∨ c.toNat ≠ 0x130 ∧ d.toNat ≠ 0x130 ∧ smallCode c.toNat = smallCode d.toNat := by
  by_cases hc : c.toNat = 0x130
  · have hlower : lower c = ['i', Char.ofNat 0x307] := if_pos hc
    by_cases hd : d.toNat = 0x130
    · have heq : c = d := Char.toNat_inj.mp (hc.trans hd.symm)
      simp [heq]
    · obtain ⟨e, he, -⟩ := tables.lower_eq hd
      have hne : c ≠ d := fun h => hd (h ▸ hc)
      simp [hlower, he, hc, hne]
  · obtain ⟨e, he, hcode⟩ := tables.lower_eq hc
    rw [he, eq_comm, tables.lower_eq_singleton_iff, hcode]
    constructor
    · rintro ⟨hd, h⟩
      exact .inr ⟨hc, hd, h.symm⟩
    · rintro (rfl | ⟨-, hd, h⟩)
      · exact ⟨hc, rfl⟩
      · exact ⟨hd, h.symm⟩

theorem lookUpCase_upperRuns_of_mem (h : n ∈ upperExpansions.map Prod.fst) :
    lookUpCase upperRuns n = none := by
  obtain ⟨p, hp, rfl⟩ := List.mem_map.mp h
  exact (tables.capital_of_expansion p hp).2

theorem upper_of_lookUpCase (h : lookUpCase upperRuns d.toNat = some c.toNat) : upper d = [c] := by
  have hplain : ((lookUpCase upperRuns d.toNat).map Char.ofNat).getD d = c := by
    rw [h, Option.map_some, Option.getD_some, Char.ofNat_toNat]
  have hlookup : upperExpansions.lookup d.toNat = none := by
    cases hcodes : upperExpansions.lookup d.toNat with
    | none => rfl
    | some codes =>
      have hnone := tables.lookUpCase_upperRuns_of_mem
        (List.mem_map_of_mem (f := Prod.fst) (lookup_upperExpansions hcodes))
      exact absurd (h.symm.trans hnone) (by simp)
  unfold upper
  rw [hlookup, hplain, ite_self]

theorem of_upper_eq_singleton (h : upper d = [c]) :
    c = d ∨ lookUpCase upperRuns d.toNat = some c.toNat := by
  have hplain (h : [((lookUpCase upperRuns d.toNat).map Char.ofNat).getD d] = [c]) :
      c = d ∨ lookUpCase upperRuns d.toNat = some c.toNat := by
    have hcode := tables.toNat_getD_lookUpCase (.inr rfl) d
    rw [List.cons.injEq, and_iff_left rfl] at h
    rw [h] at hcode
    cases hu : lookUpCase upperRuns d.toNat with
    | none =>
      rw [hu, Option.getD_none] at hcode
      exact .inl (Char.toNat_inj.mp hcode)
    | some u =>
      rw [hu, Option.getD_some] at hcode
      exact .inr (congrArg some hcode.symm)
  unfold upper at h
  split at h
  · exact hplain h
  · split at h
    · next codes hcodes =>
      have hlength := congrArg List.length h
      rw [List.length_map] at hlength
      exact absurd hlength (tables.capital_of_expansion _ (lookup_upperExpansions hcodes)).1
    · exact hplain h

theorem forms_of_lower_eq (h : lower c = lower d) :
    IsForm c d ∨ (c.toNat, d.toNat) ∈ literalOnly := by
  obtain rfl | ⟨-, hd, hsmall⟩ := tables.lower_eq_lower_iff.mp h
  · exact .inl (.inl rfl)
  · by_cases hne : c = d
    · exact .inl (.inl hne)
    · have hcodes : c.toNat ≠ d.toNat := fun h => hne (Char.toNat_inj.mp h)
      obtain hform | hform | hlisted := tables.forms_of_smallCode_eq hcodes hsmall
      · exact .inl (.inr (.inl (tables.lower_eq_singleton_iff.mpr ⟨hd, hform⟩)))
      · exact .inl (.inr (.inr (tables.upper_of_lookUpCase hform)))
      · exact .inr hlisted

theorem lower_eq_of_form (h : IsForm c d) : lower c = lower d ∨ (c.toNat, d.toNat) ∈ classOnly := by
  obtain rfl | hlower | hupper := h
  · exact .inl rfl
  · left
    obtain ⟨hd, hcode⟩ := tables.lower_eq_singleton_iff.mp hlower
    cases hl : lookUpCase lowerRuns d.toNat with
    | none =>
      rw [smallCode, hl, Option.getD_none] at hcode
      rw [Char.toNat_inj.mp hcode]
    | some l =>
      rw [smallCode, hl, Option.getD_some] at hcode
      obtain ⟨hfixed, hc⟩ := tables.smallCode_small (hcode ▸ hl)
      rw [hlower, tables.lower_eq_singleton_iff]
      exact ⟨hc, hfixed⟩
  · obtain rfl | hcapital := tables.of_upper_eq_singleton hupper
    · exact .inl rfl
    · obtain ⟨hd, hc, hsmall⟩ := tables.smallCode_capital hcapital
      exact hsmall.imp_left fun h => tables.lower_eq_lower_iff.mpr (.inr ⟨hc, hd, h⟩)

theorem lower_eq_of_mem_literalOnly (h : (c.toNat, d.toNat) ∈ literalOnly) :
    lower c = lower d ∧ ¬IsForm c d := by
  obtain ⟨hc, hd, hne, hsmall, hlower, hupper⟩ := tables.literalOnly_codes _ h
  refine ⟨tables.lower_eq_lower_iff.mpr (.inr ⟨hc, hd, hsmall⟩), ?_⟩
  rintro (rfl | hform | hform)
  · exact hne rfl
  · exact hlower (tables.lower_eq_singleton_iff.mp hform).2
  · obtain rfl | hcapital := tables.of_upper_eq_singleton hform
    · exact hne rfl
    · obtain hexpands | hcapital' := hupper
      · exact absurd (hcapital.symm.trans (tables.lookUpCase_upperRuns_of_mem hexpands)) (by simp)
      · exact hcapital' hcapital

theorem form_of_mem_classOnly (h : (c.toNat, d.toNat) ∈ classOnly) :
    IsForm c d ∧ lower c ≠ lower d := by
  obtain ⟨hsmall, hcapital⟩ := tables.classOnly_codes _ h
  refine ⟨.inr (.inr (tables.upper_of_lookUpCase hcapital)), fun hlower => ?_⟩
  obtain rfl | ⟨-, -, h⟩ := tables.lower_eq_lower_iff.mp hlower
  · exact hsmall rfl
  · exact hsmall h

/-- Forms and small forms, with the lists settling what they differ on. -/
theorem isForm_iff : IsForm c d ↔ (c.toNat, d.toNat) ∈ classOnly ∨
    (c.toNat, d.toNat) ∉ literalOnly ∧ lower c = lower d := by
  constructor
  · intro hform
    obtain hlower | hlisted := tables.lower_eq_of_form hform
    · exact .inr ⟨fun hmem => (tables.lower_eq_of_mem_literalOnly hmem).2 hform, hlower⟩
    · exact .inl hlisted
  · rintro (hlisted | ⟨hmem, hlower⟩)
    · exact (tables.form_of_mem_classOnly hlisted).1
    · exact (tables.forms_of_lower_eq hlower).resolve_right hmem

end CaseTables

end Text

open Text (literalOnly classOnly caseTables)

/-- A class of single characters that ignores case. -/
theorem CharClass.accepts_singles (cs : List Char) (d : Char) :
    (CharClass.mk (cs.map .single) false true).accepts d = true ↔ ∃ c ∈ cs, Text.IsForm c d := by
  have hlists (e : Char) : (CharClass.mk (cs.map .single) false true).lists e = true ↔ e ∈ cs := by
    simp [CharClass.lists, ClassPart.contains]
  have hform (es : List Char) :
      (CharClass.mk (cs.map .single) false true).listsForm es = true ↔ ∃ c ∈ cs, es = [c] := by
    obtain _ | ⟨e, _ | _⟩ := es <;> simp [CharClass.listsForm, hlists]
  simp only [CharClass.accepts, CharClass.listsCased, Bool.bne_false, Bool.or_eq_true,
    Bool.and_eq_true, true_and, hlists, hform, Text.IsForm]
  grind

/-- A literal of one character that ignores case. -/
theorem State.literal_singleton {s : State} {d : Char} {rest : List Char}
    (hs : s.cursor.ahead = d :: rest) (c : Char) (description : String) :
    (s.literal (String.singleton c) true description).1.isSome = true ↔
      Text.lower c = Text.lower d := by
  by_cases h : Text.lower d = Text.lower c
  · simp [State.literal, State.agreement, State.agree, hs, h]
  · simp [State.literal, State.agreement, State.agree, hs, h, Ne.symm h]

/-- Ignoring case as a class does and as a literal does. A class of single characters accepts the
next character if the literal of one of them matches there, except for the pairs in one list, and
accepts in addition those in the other. No entry of the lists is idle: the literal and the class of
a listed character do differ on the character it is listed with. -/
theorem CharClass.accepts_singles_iff {s : State} {d : Char} {rest : List Char}
    (hs : s.cursor.ahead = d :: rest) (cs : List Char) (description : String) :
    ((CharClass.mk (cs.map .single) false true).accepts d = true ↔
      ∃ c ∈ cs, (c.toNat, d.toNat) ∈ classOnly ∨
        (c.toNat, d.toNat) ∉ literalOnly ∧
          (s.literal (String.singleton c) true description).1.isSome = true) ∧
    ∀ c : Char,
      ((c.toNat, d.toNat) ∈ literalOnly →
        (s.literal (String.singleton c) true description).1.isSome = true ∧
          (CharClass.mk [.single c] false true).accepts d = false) ∧
      ((c.toNat, d.toNat) ∈ classOnly →
        (s.literal (String.singleton c) true description).1.isSome = false ∧
          (CharClass.mk [.single c] false true).accepts d = true) := by
  have hclass (c : Char) : (CharClass.mk [.single c] false true).accepts d = true ↔
      Text.IsForm c d := by
    simpa using accepts_singles [c] d
  simp only [accepts_singles, caseTables.isForm_iff, State.literal_singleton hs, true_and]
  refine fun c => ⟨fun hlisted => ?_, fun hlisted => ?_⟩
  · obtain ⟨hlower, hform⟩ := caseTables.lower_eq_of_mem_literalOnly hlisted
    exact ⟨hlower, by rwa [← Bool.not_eq_true, hclass]⟩
  · obtain ⟨hform, hlower⟩ := caseTables.form_of_mem_classOnly hlisted
    exact ⟨by rwa [← Bool.not_eq_true, State.literal_singleton hs], (hclass c).mpr hform⟩

/-- The Kelvin sign in the text is a `k` for classes and for literals, and a capital `K` for
literals only. -/
theorem CharClass.accepts_singles_iff_kelvin :
    (CharClass.mk [.single 'z', .single 'k'] false true).accepts '\u212a' = true ∧
      ((State.start false false ['\u212a']).literal "K" true "").1.isSome = true ∧
      (CharClass.mk [.single 'K'] false true).accepts '\u212a' = false := by
  have h := accepts_singles_iff (s := State.start false false ['\u212a']) rfl ['z', 'k'] ""
  obtain ⟨hlower, -⟩ :=
    caseTables.lower_eq_of_mem_literalOnly (c := '\u212a') (d := 'k') (by decide)
  refine ⟨h.1.mpr ⟨'k', by decide, .inr ⟨by decide, ?_⟩⟩, (h.2 'K').1 (by decide)⟩
  exact (State.literal_singleton rfl 'k' "").mpr hlower.symm

/-- A literal of the Kelvin sign matches `k`, and the class of it does not accept `k`. -/
theorem CharClass.kelvin_not_accepted :
    ¬((CharClass.mk (['\u212a'].map .single) false true).accepts 'k' = true ↔
      ∃ c ∈ ['\u212a'],
        ((State.start false false ['k']).literal (String.singleton c) true "").1.isSome =
          true) := by
  obtain ⟨hlower, hform⟩ :=
    caseTables.lower_eq_of_mem_literalOnly (c := '\u212a') (d := 'k') (by decide)
  intro h
  have hliteral :=
    (State.literal_singleton (s := State.start false false ['k']) rfl '\u212a' "").mpr hlower
  obtain ⟨c, hc, haccepts⟩ :=
    (accepts_singles _ _).mp (h.mpr ⟨_, List.mem_singleton_self _, hliteral⟩)
  obtain rfl := List.mem_singleton.mp hc
  exact hform haccepts

end Packrat
