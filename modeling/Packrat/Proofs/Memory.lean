import Mathlib.Data.List.Sublists
import Packrat.Proofs.Building
import Packrat.Proofs.Failures
import Packrat.Proofs.Outcome

/-!
# Remembering is not observable

A hit in the memory skips the body of a rule: nothing is evaluated, no failure is reported, no code
block is called. Three facts make up for it. An outcome depends on the cursor and on whether
failures are reported, and on nothing else (`Parallel`). A result found while failures were reported
had all its failures reported at that time, and the summary of failures forgets both repetitions and
order. And a result found in silence stands in for silent outcomes only, which report nothing.

`Caching` relates a parse that may remember to one that does not: same cursor, same suspension, same
set of reported failures, and every remembered result is what a run without a memory gives
(`Recalled`), with failures that were reported before. Each of the two parses then does what the
other one does. Nothing is asked of the program.

## Main results

* `parallel_leads`: an outcome depends on the cursor and the reporting alone
* `caching_leads`, `leads_caching`: a parse that remembers and one that does not follow each other
* `gives_iff_of_forgetful`: the memory changes no result
-/

namespace Packrat

open Filter Run

variable {tracked : Bool} {text : List Char}

/-! ### Outcomes depend on the place alone -/

/-- Two parses without a memory that came from `b` and `c` by the same steps. -/
structure Parallel (tracked : Bool) (text : List Char) (b c s t : State) : Prop where
  left : s.memory = none
  right : t.memory = none
  sound : t.Sound tracked text
  cursor : s.cursor = t.cursor
  reporting : s.reporting = t.reporting
  journal : ∃ Δ, s.journal = Δ ++ b.journal ∧ t.journal = Δ ++ c.journal

theorem parallel_start {s t : State} (left : s.memory = none) (right : t.memory = none)
    (sound : t.Sound tracked text) (cursor : s.cursor = t.cursor)
    (reporting : s.reporting = t.reporting) : Parallel tracked text s t s t :=
  ⟨left, right, sound, cursor, reporting, [], rfl, rfl⟩

/-- One more event on both sides. -/
theorem Parallel.note {b c s t : State} (h : Parallel tracked text b c s t) (e : Event)
    (hsound : (t.note e).Sound tracked text) :
    Parallel tracked text b c (s.note e) (t.note e) := by
  obtain ⟨Δ, hs, ht⟩ := h.journal
  exact ⟨h.left, h.right, hsound, h.cursor, h.reporting, e :: Δ, congrArg _ hs, congrArg _ ht⟩

theorem State.reporting_resume {s₀ s : State} (h : s.suspended = s₀.suspended + 1) :
    s.resume.reporting = s₀.reporting := by
  simp [reporting, resume, h]

theorem steady_parallel (b c : State) : Steady (Parallel tracked text b c) where
  cursor h := h.cursor
  moveTo h hc := by
    obtain ⟨s, t, hst, rfl⟩ := hc
    exact ⟨h.left, h.right, h.sound.moveTo (hst.cursor ▸ hst.sound.cursor), rfl, h.reporting,
      h.journal⟩
  skip n h := ⟨h.left, h.right, h.cursor ▸ h.sound.skip n, rfl, h.reporting, h.journal⟩
  failAt {s t} n d h := by
    have hplace : (s.cursor.skip n).Within tracked text := h.cursor ▸ h.sound.cursor.skip n
    refine ⟨?_, ?_, h.sound.failAt hplace d, ?_, ?_, ?_⟩
    · rw [State.memory_failAt, h.left]
    · rw [State.memory_failAt, h.right]
    · rw [State.cursor_failAt, State.cursor_failAt, h.cursor]
    · rw [State.reporting_failAt, State.reporting_failAt, h.reporting]
    · obtain ⟨Δ, hs, ht⟩ := h.journal
      rw [State.journal_failAt, State.journal_failAt, ← h.reporting]
      split
      · exact ⟨.failed (s.cursor.skip n).offset d :: Δ, congrArg _ hs, congrArg _ ht⟩
      · exact ⟨Δ, hs, ht⟩
  suspend h := ⟨h.left, h.right, h.sound.suspend _, h.cursor, rfl, h.journal⟩
  resume {s₀ t₀ s t} h₀ h hs ht := by
    refine ⟨h.left, h.right, h.sound.suspend _, h.cursor, ?_, h.journal⟩
    rw [State.reporting_resume hs, State.reporting_resume ht, h₀.reporting]
  called site cx h := h.note _ (h.sound.called ..)

theorem forgetful_parallel (b c : State) : Forgetful (Parallel tracked text b c) where
  left h := h.left
  right h := h.right

/-- Both enter a rule at one place. -/
theorem Parallel.entering {b c s t : State} (h : Parallel tracked text b c s t) (rule : Nat) :
    Parallel tracked text b c (s.entering rule) (t.entering rule) := by
  have hoffset : s.offset = t.offset := congrArg Cursor.offset h.cursor
  rw [State.entering, State.entering, hoffset, h.reporting]
  exact h.note _ (h.sound.entered ..)

variable (m : Matcher)

/-- Without a memory, an outcome depends on the cursor and on whether failures are reported, and
what it adds to a state depends on nothing else either. -/
theorem parallel_leads (b c : State) (fuel rule : Nat) :
    Leads (Parallel tracked text b c) (Parallel tracked text b c) (m.call fuel rule)
      (fun n => m.call n rule) := by
  induction fuel generalizing rule with
  | zero => exact .outOfFuel _
  | succ fuel ih =>
    cases hr : m.program.rules[rule]? with
    | none => exact call_leads_of_missing le_rfl (forgetful_parallel b c) hr hr
    | some r =>
      exact call_leads_of_body (forgetful_parallel b c) (fun _ _ h => h.entering rule) hr hr rfl
        (ruleBody_leads_self m le_rfl (steady_parallel b c) ih r)

/-! ### Memories that tell the truth -/

/-- What a run of a rule without a memory does, from any state that a remembered result stands in
for: it ends behind that result and reports failures of the given list only. -/
structure Replays (tracked : Bool) (text : List Char) (reported : List (Nat × String))
    (after : Cursor) (t t' : State) : Prop where
  forgetful : t'.memory = none
  sound : t'.Sound tracked text
  cursor : t'.cursor = after
  suspended : t'.suspended = t.suspended
  journal : ∃ Δ, t'.journal = Δ ++ t.journal ∧ ∀ f ∈ Δ.filterMap Event.failure?, f ∈ reported

/-- A remembered result is the one that a run without a memory gives, whenever its rule is tried at
its offset with its reporting. -/
def Recalled (tracked : Bool) (text : List Char) (reported : List (Nat × String)) (key : MemoKey)
    (entry : MemoEntry) : Prop :=
  ∀ t : State, t.memory = none → t.Sound tracked text → t.offset = key.offset →
    t.reporting = key.reporting → ∃ t', Replays tracked text reported entry.after t t' ∧
      ∀ registers, ∀ᶠ n in atTop,
        m.call n key.rule ⟨t, registers⟩ = .ok entry.result ⟨t', registers⟩

variable {m} in
/-- More failures may have been reported. -/
theorem Recalled.mono {reported reported' : List (Nat × String)} {key : MemoKey} {entry : MemoEntry}
    (h : Recalled m tracked text reported key entry) (hsub : ∀ f ∈ reported, f ∈ reported') :
    Recalled m tracked text reported' key entry := by
  intro t hmemory hsound hoffset hreporting
  obtain ⟨t', hreplay, hrun⟩ := h t hmemory hsound hoffset hreporting
  obtain ⟨Δ, hΔ, hreported⟩ := hreplay.journal
  exact ⟨t', { hreplay with journal := ⟨Δ, hΔ, fun f hf => hsub f (hreported f hf)⟩ }, hrun⟩

/-- A parse that may remember results beside one that does not. -/
structure Caching (tracked : Bool) (text : List Char) (s t : State) : Prop where
  soundLeft : s.Sound tracked text
  soundRight : t.Sound tracked text
  forgetful : t.memory = none
  cursor : s.cursor = t.cursor
  suspended : s.suspended = t.suspended
  failures : ∀ f, f ∈ s.failures ↔ f ∈ t.failures
  calls : s.calls.Sublist t.calls
  memory : ∀ memory, s.memory = some memory → ∀ key entry, memory[key]? = some entry →
    Recalled m tracked text s.failures key entry

variable {m} in
theorem Caching.reporting {s t : State} (h : Caching m tracked text s t) :
    s.reporting = t.reporting := by
  rw [State.reporting, State.reporting, h.suspended]

theorem steady_caching : Steady (Caching m tracked text) where
  cursor h := h.cursor
  moveTo h hc := by
    obtain ⟨s, t, hst, rfl⟩ := hc
    exact ⟨h.soundLeft.moveTo hst.soundLeft.cursor, h.soundRight.moveTo hst.soundLeft.cursor,
      h.forgetful, rfl, h.suspended, h.failures, h.calls, h.memory⟩
  skip n h :=
    ⟨h.soundLeft.skip n, h.cursor ▸ h.soundRight.skip n, h.forgetful, rfl, h.suspended, h.failures,
      h.calls, h.memory⟩
  failAt {s t} n d h := by
    have hplace : (s.cursor.skip n).Within tracked text := h.soundLeft.cursor.skip n
    refine ⟨h.soundLeft.failAt hplace d, h.soundRight.failAt hplace d, ?_, ?_, ?_, ?_, ?_, ?_⟩
    · rw [State.memory_failAt, h.forgetful]
    · rw [State.cursor_failAt, State.cursor_failAt, h.cursor]
    · rw [State.suspended_failAt, State.suspended_failAt, h.suspended]
    · intro f
      rw [State.failures_failAt, State.failures_failAt, ← h.reporting]
      split
      · simp only [List.mem_cons]
        exact or_congr_right (h.failures f)
      · exact h.failures f
    · rw [State.calls_failAt, State.calls_failAt]
      exact h.calls
    · intro memory hmemory key entry hentry
      rw [State.memory_failAt] at hmemory
      refine (h.memory memory hmemory key entry hentry).mono fun f hf => ?_
      rw [State.failures_failAt]
      split
      · exact List.mem_cons_of_mem _ hf
      · exact hf
  suspend h :=
    ⟨h.soundLeft.suspend _, h.soundRight.suspend _, h.forgetful, h.cursor,
      congrArg (· + 1) h.suspended, h.failures, h.calls, h.memory⟩
  resume h₀ h hs ht :=
    ⟨h.soundLeft.suspend _, h.soundRight.suspend _, h.forgetful, h.cursor,
      congrArg (· - 1) h.suspended, h.failures, h.calls, h.memory⟩
  called site cx h :=
    ⟨h.soundLeft.called .., h.soundRight.called .., h.forgetful, h.cursor, h.suspended, h.failures,
      h.calls.cons_cons (site, cx), h.memory⟩

/-! ### Hits and stores -/

variable {m} {s t s' t' u : State} {rule : Nat} {result : Option Value}

/-- A run of a rule that has an ending has it whatever the registers around it are. -/
theorem eventually_call {n : Nat} {registers registers' : Registers Cursor}
    (h : m.call n rule ⟨t, registers⟩ = .ok result ⟨t', registers'⟩) (other : Registers Cursor) :
    ∀ᶠ n in atTop, m.call n rule ⟨t, other⟩ = .ok result ⟨t', other⟩ :=
  call_eventually (Matcher.call_ok_registers h other)

/-- A hit gives what the parse without a memory comes to. -/
theorem Caching.hit (hst : Caching m tracked text s t)
    (hu : s.lookUp rule = some (result, u)) :
    ∃ t', (∀ registers, ∀ᶠ n in atTop, m.call n rule ⟨t, registers⟩ = .ok result ⟨t', registers⟩) ∧
      Caching m tracked text u t' ∧ t'.suspended = t.suspended ∧
        ∃ Δ, t'.journal = Δ ++ t.journal := by
  obtain ⟨memory, entry, hmemory, hentry, rfl, rfl⟩ := State.lookUp_eq_some_iff.mp hu
  have hoffset : t.offset = s.offset := by
    rw [State.offset, State.offset, hst.cursor]
  obtain ⟨t', hreplay, hrun⟩ := hst.memory memory hmemory _ entry hentry t hst.forgetful
    hst.soundRight hoffset hst.reporting.symm
  obtain ⟨Δ, hΔ, hreported⟩ := hreplay.journal
  refine ⟨t', hrun, ?_, hreplay.suspended, Δ, hΔ⟩
  refine ⟨hst.soundLeft.moveTo (hreplay.cursor ▸ hreplay.sound.cursor), hreplay.sound,
    hreplay.forgetful, hreplay.cursor.symm, hst.suspended.trans hreplay.suspended.symm, ?_, ?_,
    hst.memory⟩
  · intro f
    rw [State.failures_moveTo, State.failures, State.failures, hΔ, List.filterMap_append,
      List.mem_append]
    refine (hst.failures f).trans ⟨Or.inr, fun hf => hf.elim (fun hf => ?_) id⟩
    exact (hst.failures f).mp (hreported f hf)
  · rw [State.calls, State.calls, hΔ, List.filterMap_append]
    exact hst.calls.trans (List.sublist_append_right ..)

/-- What a run without a memory did, it does again from any state at the same place. -/
theorem Replays.of_run (hst : Caching m tracked text s t) (hst' : Caching m tracked text s' t')
    {n : Nat} (hrun : m.call n rule ⟨t, .blank 0⟩ = .ok result ⟨t', .blank 0⟩) {c : State}
    (hforget : c.memory = none) (hsound : c.Sound tracked text) (hoffset : c.offset = s.offset)
    (hreporting : c.reporting = s.reporting) :
    ∃ c', Replays tracked text s'.failures s'.cursor c c' ∧
      ∀ registers, ∀ᶠ n in atTop,
        m.call n rule ⟨c, registers⟩ = .ok result ⟨c', registers⟩ := by
  have hcursor : t.cursor = c.cursor := by
    refine hst.soundRight.cursor.eq_of_offset hsound.cursor ?_
    rw [← hst.cursor]
    exact hoffset.symm
  have hreporting' : t.reporting = c.reporting := hst.reporting.symm.trans hreporting.symm
  have hlead := parallel_leads m t c n rule
    (related_blank (parallel_start hst.forgetful hforget hsound hcursor hreporting') 0)
  rw [hrun] at hlead
  obtain @⟨_, _, ⟨c', registers⟩, _, hP, -, hsuspended, hc'⟩ | _ | _ := hlead
  obtain ⟨Δ, hΔt, hΔc⟩ := hP.state.journal
  obtain ⟨n', hn'⟩ := hc'.exists
  refine ⟨c', ⟨hP.state.right, hP.state.sound, ?_, hsuspended, Δ, hΔc, ?_⟩, ?_⟩
  · exact hP.state.cursor.symm.trans hst'.cursor.symm
  · intro f hf
    rw [hst'.failures, State.failures, hΔt, List.filterMap_append]
    exact List.mem_append_left _ hf
  · exact fun other => eventually_call hn' other

/-- A result may be stored behind a run that the parse without a memory has made as well. -/
theorem Caching.store (hst : Caching m tracked text s t) (hst' : Caching m tracked text s' t')
    (hsuspended : s'.suspended = s.suspended) {n : Nat}
    (hrun : m.call n rule ⟨t, .blank 0⟩ = .ok result ⟨t', .blank 0⟩) :
    Caching m tracked text (s'.remember rule s.cursor result) t' := by
  refine ⟨hst'.soundLeft.remember .., hst'.soundRight, hst'.forgetful, hst'.cursor,
    hst'.suspended, hst'.failures, hst'.calls, ?_⟩
  intro memory hmemory key entry hentry
  rw [State.failures_remember]
  obtain ⟨rfl, rfl⟩ | ⟨before, hbefore, hentry⟩ := State.entry_of_remember hmemory hentry
  · intro c hforget hsound hoffset hreporting
    refine Replays.of_run hst hst' hrun hforget hsound hoffset ?_
    rw [hreporting]
    change (s'.suspended == 0) = (s.suspended == 0)
    rw [hsuspended]
  · exact hst'.memory before hbefore key entry hentry

theorem Caching.entering (hst : Caching m tracked text s t) (rule : Nat) :
    Caching m tracked text (s.entering rule) (t.entering rule) :=
  ⟨hst.soundLeft.entered .., hst.soundRight.entered .., hst.forgetful, hst.cursor, hst.suspended,
    hst.failures, hst.calls, hst.memory⟩

/-! ### Each parse does what the other does -/

/-- Behind a body that both parses have run, the result may be stored. -/
theorem Caching.storeBoth {r : RuleProgram} (hr : m.program.rules[rule]? = some r)
    (hst : Caching m tracked text s t) {after after' : Frame}
    (hst' : Caching m tracked text after.state after'.state)
    (hsuspended : after.state.suspended = s.suspended) {fuel : Nat}
    (hbody : m.ruleBody (m.call fuel) fuel r ⟨t.entering rule, .blank r.registers⟩ =
      .ok result after') :
    Caching m tracked text (after.state.remember rule s.cursor result)
      (after'.state.remember rule t.cursor result) := by
  rw [State.remember_of_forgetful hst'.forgetful]
  have hrun : m.call (fuel + 1) rule ⟨t, .blank 0⟩ = .ok result ⟨after'.state, .blank 0⟩ := by
    rw [Matcher.call_of_miss (State.lookUp_of_forgetful hst.forgetful _) hr, hbody]
    change EStateM.Result.ok _ (⟨after'.state.remember _ _ _, _⟩ : Frame) = _
    rw [State.remember_of_forgetful hst'.forgetful]
  exact hst.store hst' hsuspended hrun

variable (m)

/-- A parse without a memory does what one that remembers does. -/
theorem caching_leads (fuel rule : Nat) :
    Leads (Caching m tracked text) (Caching m tracked text) (m.call fuel rule)
      (fun n => m.call n rule) := by
  induction fuel generalizing rule with
  | zero => exact .outOfFuel _
  | succ fuel ih =>
    rintro ⟨s, registers⟩ ⟨t, _⟩ hR
    obtain rfl : registers = _ := hR.registers
    have hst : Caching m tracked text s t := hR.state
    cases hs : s.lookUp rule with
    | some hit =>
      obtain ⟨result, u⟩ := hit
      obtain ⟨t', hrun, hut, hsuspended, -⟩ := hst.hit hs
      rw [Matcher.call_of_hit hs]
      refine .ok (hR.withState hut) ?_ hsuspended (hrun registers)
      exact hut.suspended.trans (hsuspended.trans hst.suspended.symm)
    | none =>
      refine Follows.succ ?_
      have ht := State.lookUp_of_forgetful hst.forgetful rule
      cases hr : m.program.rules[rule]? with
      | none =>
        simp only [Matcher.call_of_missing ht hr, Matcher.call_of_missing hs hr]
        exact .error nofun hst (.of_forall fun _ => ⟨_, rfl⟩)
      | some r =>
        simp only [Matcher.call_of_miss ht hr, Matcher.call_of_miss hs hr]
        have hbody := ruleBody_leads_self m le_rfl (steady_caching m) ih r
        have hblank := related_blank (hst.entering rule) r.registers
        refine (hbody hblank).after _ _ ?_ fun _ _ h _ _ => h
        intro result after after' hR' hs' ht' _ hn
        obtain ⟨n, hn⟩ := hn.exists
        exact ⟨hR.withState (hst.storeBoth hr hR'.state hs' hn), hs', ht'⟩

/-- A parse that remembers does what one without a memory does. -/
theorem leads_caching (fuel rule : Nat) :
    Leads (flip (Caching m tracked text)) (flip (Caching m tracked text)) (m.call fuel rule)
      (fun n => m.call n rule) := by
  induction fuel generalizing rule with
  | zero => exact .outOfFuel _
  | succ fuel ih =>
    rintro ⟨t, registers⟩ ⟨s, _⟩ hR
    obtain rfl : registers = _ := hR.registers
    have hst : Caching m tracked text s t := hR.state
    refine Follows.succ ?_
    cases hs : s.lookUp rule with
    | some hit =>
      obtain ⟨result, u⟩ := hit
      obtain ⟨t', hrun, hut, hsuspended, -⟩ := hst.hit hs
      simp only [Matcher.call_of_hit hs]
      -- both runs of the parse without a memory end alike, so the remembered result is the one
      have hself := call_leads_self m (fuel + 1) rule (related_eq ⟨t, registers⟩)
      cases ht : m.call (fuel + 1) rule ⟨t, registers⟩ with
      | ok a after =>
        obtain ⟨n, hn, hn'⟩ := ((call_eventually ht).and (hrun registers)).exists
        obtain ⟨rfl, rfl⟩ := EStateM.Result.ok.inj (hn.symm.trans hn')
        refine .ok (hR.withState hut) hsuspended ?_ (.of_forall fun _ => rfl)
        exact hut.suspended.trans (hsuspended.trans hst.suspended.symm)
      | error e after =>
        rw [ht] at hself
        obtain _ | ⟨-, -, hn⟩ | _ := hself
        · obtain ⟨n, ⟨_, hn⟩, hn'⟩ := (hn.and (hrun registers)).exists
          nomatch hn.symm.trans hn'
        · exact .outOfFuel
    | none =>
      have ht := State.lookUp_of_forgetful hst.forgetful rule
      cases hr : m.program.rules[rule]? with
      | none =>
        simp only [Matcher.call_of_missing hs hr, Matcher.call_of_missing ht hr]
        exact .error nofun hR.state (.of_forall fun _ => ⟨_, rfl⟩)
      | some r =>
        simp only [Matcher.call_of_miss hs hr, Matcher.call_of_miss ht hr]
        have hbody := ruleBody_leads_self m le_rfl (steady_caching m).flip ih r
        have hentering : flip (Caching m tracked text) (t.entering rule) (s.entering rule) :=
          hst.entering rule
        refine (hbody (related_blank hentering r.registers)).after _ _ ?_ fun _ _ h _ _ => h
        intro result after' after hR' ht' hs' hn _
        exact ⟨hR.withState (hst.storeBoth hr hR'.state hs' hn), ht', hs'⟩

/-! ### Results -/

/-- An empty memory remembers nothing wrong. -/
theorem caching_start (tracked remembers : Bool) (text : List Char) :
    Caching m tracked text (State.start tracked remembers text)
      (State.start tracked false text) where
  soundLeft := State.sound_start ..
  soundRight := State.sound_start ..
  forgetful := rfl
  cursor := rfl
  suspended := rfl
  failures _ := Iff.rfl
  calls := .refl _
  memory memory hmemory key entry hentry := by
    obtain rfl : memory = ∅ := by
      simp only [State.start] at hmemory
      split at hmemory
      · exact (Option.some.inj hmemory).symm
      · cases hmemory
    simp at hentry

theorem Caching.finish_eq {s t : State} (h : Caching m tracked text s t) (result : Option Value) :
    s.finish result = t.finish result :=
  h.soundLeft.finish_eq h.soundRight h.cursor h.failures result

namespace Matcher

/-- Whether a matcher remembers results decides neither whether a parse ends nor with what. -/
theorem gives_iff_of_forgetful {m m' : Matcher} (hprogram : m.program = m'.program)
    (hbindings : m.bindings = m'.bindings)
    (htracked : m.options.trackLines = m'.options.trackLines) (hforget : m'.options.cache = false)
    (text : String) (start : Option String) (r : Except Failure Value) :
    m.Gives text start r ↔ m'.Gives text start r := by
  have hindex : m.startIndex start = m'.startIndex start := by
    unfold startIndex
    rw [hprogram]
  have hstart : Caching m m.options.trackLines text.toList
      (State.start m.options.trackLines m.options.cache text.toList)
      (State.start m'.options.trackLines m'.options.cache text.toList) := by
    rw [← htracked, hforget]
    exact caching_start m ..
  have hcall := call_congr hprogram hbindings
  cases h : m.startIndex start with
  | error e =>
    have h' := hindex ▸ h
    simp [Gives, parse, h, h']
  | ok rule =>
    have h' := hindex ▸ h
    constructor
    · intro hr
      have hlead : ∀ fuel, Leads (Caching m m.options.trackLines text.toList)
          (Caching m m.options.trackLines text.toList) (m.call fuel rule)
          (fun n => m'.call n rule) := by
        intro fuel
        simp only [← hcall]
        exact caching_leads m fuel rule
      exact hr.of_leads h h' hstart hlead fun _ _ hst => Caching.finish_eq m hst
    · intro hr
      have hlead : ∀ fuel, Leads (flip (Caching m m.options.trackLines text.toList))
          (flip (Caching m m.options.trackLines text.toList)) (m'.call fuel rule)
          (fun n => m.call n rule) := by
        intro fuel
        rw [← hcall]
        exact leads_caching m fuel rule
      refine hr.of_leads h' h hstart hlead ?_
      intro t s hst result
      exact (Caching.finish_eq m hst result).symm

end Matcher

/-- Built from the same text and host functions, a matcher that remembers and one that does not give
the same results. -/
theorem remembering_gives_iff {text : String} {h : Actions} {trackLines : Bool} {m : Matcher}
    (hm : buildMatcher text h { cache := true, trackLines } = .ok m) :
    ∃ m', buildMatcher text h { cache := false, trackLines } = .ok m' ∧
      ∀ input start r, m.Gives input start r ↔ m'.Gives input start r := by
  have hm' := buildMatcher_options hm { cache := false, trackLines }
  refine ⟨_, hm', ?_⟩
  intro input start r
  refine Matcher.gives_iff_of_forgetful ?_ ?_ ?_ ?_ input start r
  · rfl
  · rfl
  · rw [options_of_buildMatcher hm]
  · rfl

theorem remembering_gives_iff_small :
    ∃ m, buildMatcher smallText .passthrough { cache := true, trackLines := true } = .ok m ∧
      ∃ m', buildMatcher smallText .passthrough { cache := false, trackLines := true } = .ok m' ∧
        ∀ input start r, m.Gives input start r ↔ m'.Gives input start r := by
  obtain ⟨m, hm⟩ := small_builds { cache := true, trackLines := true }
  exact ⟨m, hm, remembering_gives_iff hm⟩

end Packrat
