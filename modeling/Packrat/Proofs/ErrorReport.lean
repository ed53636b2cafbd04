import Packrat.Proofs.Memory

/-!
# Error reports

A syntax error is made from what the state of a parse has at its end: the summary of the failures
that were reported and the place of the cursor. `SyntaxError.Exact` says what the error must be in
terms of all the failures of a parse, as the journal lists them, with no word about how a parse
keeps count of them. A failure under a suspension is not reported and not in the journal; a hit in
the memory reports nothing again.

The summary is right at every time (`State.Sound`), whatever was given up, silenced or remembered on
the way, so nothing is left to do here but to read the report off the last state.

## Main results

* `State.Sound.exact_error`: the error of a sound state is exact
* `parse_error_exact`: so is the error that a parse ends with
-/

namespace Packrat

open Text (byteLength)

/-- The error reports on these failures, of a parse of the text that ended at the place. -/
structure SyntaxError.Exact (text : List Char) (place : Nat) (failures : List (Nat × String))
    (e : SyntaxError) : Prop where
  /-- The furthest place that a failure was reported at or the parse ended at. -/
  offset : e.offset = (failures.map Prod.fst).foldr max place
  expected (d : String) : d ∈ e.expected ↔ (e.offset, d) ∈ failures
  /-- In ascending order, and each once. -/
  ordered : e.expected.Pairwise (· < ·)
  /-- A parse that went on past every failure expected nothing but the end of the text. -/
  past : (∀ f ∈ failures, f.1 < place) → e.expected = []
  found : ∃ before after, text = before ++ after ∧ e.offset = byteLength before ∧
    e.found = after.head?.map String.singleton
  atEnd : e.found = none ↔ e.offset = byteLength text
  /-- The line and the column are those that counting from the beginning of the text gives. -/
  lineColumn : (Position.at? text e.offset).bind Position.lineColumn = some (e.line, e.column)

/-! ### The furthest of all places -/

section

variable {places : List Nat} {place bound x : Nat}

theorem foldr_max_le (hplace : place ≤ bound) (h : ∀ x ∈ places, x ≤ bound) :
    places.foldr max place ≤ bound := by
  induction places with
  | nil => exact hplace
  | cons x xs ih =>
    obtain ⟨hx, hxs⟩ := List.forall_mem_cons.mp h
    exact max_le hx (ih hxs)

theorem le_foldr_max (h : x = place ∨ x ∈ places) : x ≤ places.foldr max place := by
  induction places with
  | nil => exact (h.resolve_right nofun).le
  | cons y ys ih =>
    rw [List.foldr_cons]
    rcases h with h | h
    · exact (ih (.inl h)).trans (le_max_right ..)
    · rcases List.mem_cons.mp h with rfl | h
      · exact le_max_left ..
      · exact (ih (.inr h)).trans (le_max_right ..)

end

/-- A summary does not depend on the order of the failures. -/
theorem Summarizes.congr {furthest : Nat} {expected : List String}
    {failures failures' : List (Nat × String)} (h : Summarizes furthest expected failures)
    (hset : ∀ f, f ∈ failures' ↔ f ∈ failures) : Summarizes furthest expected failures' where
  furthest f hf := h.furthest f ((hset f).mp hf)
  reached hfurthest := (h.reached hfurthest).imp fun _ => (hset _).mpr
  expected d := (h.expected d).trans (hset _).symm

/-- The place of a summary is the furthest of the failures. -/
theorem Summarizes.foldr_max {furthest : Nat} {expected : List String}
    {failures : List (Nat × String)} (h : Summarizes furthest expected failures) (place : Nat) :
    (failures.map Prod.fst).foldr max place = max place furthest := by
  refine le_antisymm (foldr_max_le (le_max_left ..) ?_) (max_le (le_foldr_max (.inl rfl)) ?_)
  · rintro x hx
    obtain ⟨f, hf, rfl⟩ := List.mem_map.mp hx
    exact (h.furthest f hf).trans (le_max_right ..)
  · by_cases hzero : furthest = 0
    · exact hzero ▸ Nat.zero_le _
    · obtain ⟨d, hd⟩ := h.reached hzero
      exact le_foldr_max (.inr (List.mem_map_of_mem hd))

/-! ### The report -/

section

variable {tracked : Bool} {text : List Char} {s : State}

/-- A report on the furthest place, with the descriptions of the failures there. -/
theorem exact_of_cursor {c : Cursor} {expected : List String} {place : Nat}
    {failures : List (Nat × String)} {lineColumn : Nat × Nat} (hc : c.Within tracked text)
    (hfurthest : c.offset = (failures.map Prod.fst).foldr max place)
    (hexpected : ∀ d, d ∈ expected ↔ (c.offset, d) ∈ failures)
    (hlineColumn : lineColumn = c.position.lineColumn.getD (Position.lineColumnAt text c.offset)) :
    (SyntaxError.of expected (c.ahead.head?.map String.singleton) c.offset
      lineColumn.1 lineColumn.2).Exact text place failures := by
  obtain ⟨before, htext, hoffset⟩ := hc.exists_before
  have hmem : ∀ d, d ∈ orderedDescriptions expected ↔ (c.offset, d) ∈ failures :=
    fun d => mem_orderedDescriptions.trans (hexpected d)
  refine ⟨hfurthest, hmem, pairwise_orderedDescriptions _, ?_,
    ⟨before, c.ahead, htext, hoffset, rfl⟩, ?_, ?_⟩
  · intro hpast
    refine List.eq_nil_iff_forall_not_mem.mpr fun d hd => ?_
    have hbehind : c.offset < place := hpast _ ((hmem d).mp hd)
    have hreached : place ≤ c.offset := hfurthest ▸ le_foldr_max (.inl rfl)
    omega
  · have hlength : byteLength text = c.offset + byteLength c.ahead := by
      rw [htext, Text.byteLength_append, hoffset]
    calc c.ahead.head?.map String.singleton = none
      _ ↔ c.ahead = [] := by rw [Option.map_eq_none_iff, List.head?_eq_none_iff]
      _ ↔ byteLength c.ahead = 0 := Text.byteLength_eq_zero_iff.symm
      _ ↔ c.offset = byteLength text := by omega
  · rw [hlineColumn]
    exact hc.lineColumn

/-- The error of a sound state is exact, whatever the order of the failures. -/
theorem State.Sound.exact_error (h : s.Sound tracked text) {failures : List (Nat × String)}
    (hset : ∀ f, f ∈ failures ↔ f ∈ s.failures) : s.error.Exact text s.offset failures := by
  have hsummary := h.summary.congr hset
  have hmax := hsummary.foldr_max s.offset
  unfold State.error
  rw [h.text_eq]
  split_ifs with hlt
  · refine exact_of_cursor h.cursor ?_ ?_ rfl
    · rw [hmax]
      exact (max_eq_left hlt.le).symm
    · intro d
      have hnone : (s.cursor.offset, d) ∉ failures :=
        fun hmem => hlt.not_ge (hsummary.furthest _ hmem)
      simp [hnone]
  · refine exact_of_cursor h.failure ?_ hsummary.expected rfl
    rw [hmax]
    exact (max_eq_right (not_lt.mp hlt)).symm

end

/-! ### Parses -/

section

variable {m : Matcher} {fuel rule : Nat} {input : String} {start : Option String}

/-- A parse ends in a sound state, whether it remembers results or not. -/
theorem sound_of_runRule {text : List Char} {result : Option Value} {fr : Frame}
    (h : m.runRule fuel text rule = .ok result fr) : fr.state.Sound m.options.trackLines text := by
  have hstart := caching_start m m.options.trackLines m.options.cache text
  have hleads := caching_leads m fuel rule (related_blank hstart 0)
  rw [Matcher.runRule, Matcher.initialFrame] at h
  rw [h] at hleads
  obtain ⟨hR, -, -, -⟩ | _ | _ := hleads
  exact hR.state.soundLeft

/-- A start that no rule has is no mismatch. -/
theorem startIndex_ne_mismatch (m : Matcher) (start : Option String) (e : SyntaxError) :
    m.startIndex start ≠ .error (.mismatch e) := by
  unfold Matcher.startIndex
  repeat' split
  all_goals rintro ⟨⟩

/-- A parse that ends in a syntax error has run its rule to an end, not to that of the text with a
match, and made the error of what it had there. -/
theorem exists_run_of_mismatch {e : SyntaxError}
    (h : (m.parse fuel input start).result = .error (.parse (.mismatch e))) :
    ∃ rule result fr, m.startIndex start = .ok rule ∧
      m.runRule fuel input.toList rule = .ok result fr ∧ fr.state.error = e ∧
        (result.isSome → fr.state.cursor.ahead ≠ []) := by
  cases hstart : m.startIndex start with
  | error other =>
    simp only [Matcher.parse, hstart] at h
    obtain rfl : other = .mismatch e := by simpa using h
    exact absurd hstart (startIndex_ne_mismatch m start e)
  | ok rule =>
    rw [Matcher.result_parse hstart] at h
    cases hrun : m.runRule fuel input.toList rule with
    | error halt fr =>
      rw [hrun] at h
      cases halt <;> cases h
    | ok result fr =>
      rw [hrun, Matcher.verdict] at h
      refine ⟨rule, result, fr, rfl, hrun, ?_⟩
      unfold State.finish at h
      split at h
      · split at h
        · cases h
        · next hend =>
          have hahead : fr.state.cursor.ahead ≠ [] := fun hnil => hend (List.isEmpty_iff.mpr hnil)
          exact ⟨by simpa [Except.mapError] using h, fun _ => hahead⟩
      · exact ⟨by simpa [Except.mapError] using h, by rintro ⟨⟩⟩

/-- The journal of a parse is the one of its last state, oldest first. -/
theorem journal_parse {e : Ending (Option Value)} (hstart : m.startIndex start = .ok rule)
    (hrun : m.runRule fuel input.toList rule = e) :
    (m.parse fuel input start).journal = (Matcher.finalFrame e).state.journal.reverse := by
  simp only [Matcher.parse, hstart, hrun]

/-- The error that a parse ends with is exact, for the failures in its journal and the place where
it ended. -/
theorem parse_error_exact {e : SyntaxError}
    (h : (m.parse fuel input start).result = .error (.parse (.mismatch e))) :
    ∃ rule result fr, m.startIndex start = .ok rule ∧
      m.runRule fuel input.toList rule = .ok result fr ∧
        e.Exact input.toList fr.state.offset
          ((m.parse fuel input start).journal.filterMap Event.failure?) := by
  obtain ⟨rule, result, fr, hstart, hrun, rfl, -⟩ := exists_run_of_mismatch h
  refine ⟨rule, result, fr, hstart, hrun, ?_⟩
  refine (sound_of_runRule hrun).exact_error fun f => ?_
  rw [journal_parse hstart hrun, List.filterMap_reverse, List.mem_reverse]
  rfl

/-- A sequence that is given up in favour of the alternative behind it. -/
def branchingText : String := "s='a' 'b'/."

theorem branching_program : ((checkedGrammar branchingText).toOption.bind fun g =>
    g.removeProxies.1.assignSlots.lower.toOption) = some
      { initializer := none
        rules := #[⟨"s", 4, .choice 0 [.sequence 0 1
          [.literal 2 "a" false "\"a\"", .literal 3 "b" false "\"b\""], .any 0]⟩]
        start := 0
        code := #[] } := by
  have hparse : Grammar.parse branchingText = .ok ⟨none, [
      ⟨⟨0, 11⟩, "s", .choice ⟨⟨2, 11⟩, none, none⟩ [
        .sequence ⟨⟨2, 9⟩, none, none⟩ [.literal ⟨⟨2, 6⟩, none, none⟩ "a" false,
          .literal ⟨⟨6, 9⟩, none, none⟩ "b" false],
        .any ⟨⟨10, 11⟩, none, none⟩], 0⟩], "s"⟩ := by
    decide +kernel
  rw [checkedGrammar, hparse]
  cbv

/-- The failure of the alternative that was given up is the one that is reported. -/
theorem parse_error_exact_branching : ∃ m, buildMatcher branchingText .passthrough {} = .ok m ∧
    ∃ e, e.expected = ["\"b\""] ∧ (m.parse 1 "ac" none).result = .error (.parse (.mismatch e)) ∧
      ∃ rule result fr, m.startIndex none = .ok rule ∧
        m.runRule 1 ['a', 'c'] rule = .ok result fr ∧ e.Exact ['a', 'c'] fr.state.offset
          ((m.parse 1 "ac" none).journal.filterMap Event.failure?) := by
  obtain ⟨m, hm, hparse⟩ : ∃ m, buildMatcher branchingText .passthrough {} = .ok m ∧
      (m.parse 1 "ac" none).result =
        .error (.parse (.mismatch ⟨["\"b\""], some "c", 1, 1, 2⟩)) := by
    obtain ⟨source, hm⟩ := buildMatcher_of_program (h := .passthrough) branching_program rfl {}
    exact ⟨_, hm, by cbv⟩
  exact ⟨m, hm, _, rfl, hparse, parse_error_exact hparse⟩

end

end Packrat
