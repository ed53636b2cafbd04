import Packrat.Proofs.Backtracking
import Packrat.Proofs.ErrorReport

/-!
# Failures that nothing reports

An error with an empty list of expectations reads as if the text should have ended. Most often that
is what happened: the start rule matched, went past every failure on the way, and stopped in front
of more text. But an empty list is also what a parse has before the first report, and not every
failure is reported. A lookahead runs its body in silence and says nothing itself, nor does a
predicate, nor an action whose answer undoes the match. A start rule that fails on nothing but these
leaves an error at the beginning of the text which claims that the text should have ended there.

`Op.Vocal` collects the operations that cannot do so: whenever they fail while failures are
reported, something has been reported. It is a condition on the program and on which actions may
undo a match, closed under calls. For a parse that begins with a vocal rule the reading of the empty
list is the right one. Memory takes no part in this, because an outcome that is remembered had its
failures reported when it was found, so the argument goes through a parse that remembers nothing.

## Main results

* `eval_voices`: a vocal operation that fails has reported a failure
* `Matcher.Vocal.failures_ne_nil`: so has a parse whose rule is vocal
* `parse_error_unexpecting`: what an error without expectations means
-/

namespace Packrat

open Run

/-! ### Reports are never taken back -/

/-- Every failure of the state will be reported, whatever was found out before. -/
structure State.Audible (s : State) : Prop where
  forgetful : s.memory = none
  suspended : s.suspended = 0

theorem kept_forgetful : Kept fun s => s.memory = none where
  moveTo _ h := h
  failAt place d h := by rw [State.memory_failAt, h]
  suspend h := h
  resume _ h _ := h
  called _ _ h := h
  entering _ h := h
  remember rule begun result h := by rw [State.remember_of_forgetful h, h]

theorem kept_failures_ne_nil : Kept fun s => s.failures ≠ [] where
  moveTo _ h := h
  failAt place d h := by
    rw [State.failures_failAt]
    split
    · exact List.cons_ne_nil _ _
    · exact h
  suspend h := h
  resume _ h _ := h
  called _ _ h := h
  entering _ h := h
  remember _ _ _ h := h

theorem State.Audible.failures_failAt_ne_nil {s : State} (h : s.Audible) (place : Cursor)
    (d : String) : (s.failAt place d).failures ≠ [] := by
  have hreporting : s.reporting = true := by rw [State.reporting, h.suspended]; rfl
  rw [State.failures_failAt, if_pos hreporting]
  exact List.cons_ne_nil _ _

section

variable {m : Matcher} {n r place site : Nat} {slots : List Nat} {body o : Op} {items : List Op}
  {fr fr' : Frame}

theorem audible_of_eval (h : m.eval (m.call n) n o fr = .ok () fr') (hfr : fr.state.Audible) :
    fr'.state.Audible :=
  ⟨kept_forgetful.of_eval h hfr.forgetful, (suspended_of_eval h).trans hfr.suspended⟩

/-! ### Operations that report -/

/-- Behind a failure of the operation, some failure has been reported. -/
def Voices (m : Matcher) (n : Nat) (o : Op) : Prop :=
  ∀ {fr fr' : Frame}, m.eval (m.call n) n o fr = .ok () fr' → fr.state.Audible →
    fr'.registers.matchAt o.result = none → fr'.state.failures ≠ []

/-- An outcome that was put into a slot is the one that is found there. -/
theorem matchAt_of_setOutcome {v : Option Value} (h : setOutcome r v fr = .ok () fr') :
    fr'.registers.matchAt r = v ∧ fr'.state = fr.state := by
  obtain ⟨hlt, rfl⟩ := of_setOutcome h
  refine ⟨?_, rfl⟩
  rw [Registers.matchAt_put hlt, if_pos rfl]
  rfl

theorem voices_terminal {f : State → Option Value × State} (hf : Takes f)
    (h : (Run.step f >>= setOutcome r) fr = .ok () fr') (hfr : fr.state.Audible)
    (hnone : fr'.registers.matchAt r = none) : fr'.state.failures ≠ [] := by
  obtain ⟨v, fr₁, hstep, h⟩ := of_bind h
  obtain ⟨hv, hstate⟩ := matchAt_of_setOutcome h
  obtain rfl : none = v := hnone.symm.trans hv
  rw [step_apply] at hstep
  rcases hf fr.state with ⟨k, heq⟩ | ⟨at_, d, heq⟩
  · rw [heq] at hstep
    nomatch (EStateM.Result.ok.inj hstep).1
  · rw [heq] at hstep
    obtain ⟨-, rfl⟩ := EStateM.Result.ok.inj hstep
    rw [hstate]
    exact hfr.failures_failAt_ne_nil _ _

/-- A named expression reports its own failure, whatever it is made of. -/
theorem voices_named {description : String} : Voices m n (.named r description body) := by
  intro fr fr' h hfr hnone
  rw [Matcher.eval] at h
  obtain ⟨_, _, hsilent, h⟩ := of_bind h
  obtain ⟨fr₁, hbody, rfl⟩ := of_silently hsilent
  obtain ⟨v, hv, h⟩ | ⟨-, h⟩ := of_bind_isMatch h
  · obtain ⟨-, rfl⟩ := EStateM.Result.ok.inj h
    cases hv.symm.trans hnone
  · obtain ⟨-, rfl⟩ := EStateM.Result.ok.inj h
    have haudible : fr₁.state.resume.Audible := by
      refine ⟨kept_forgetful.of_eval hbody hfr.forgetful, ?_⟩
      have hsuspended : fr₁.state.suspended = fr.state.suspended + 1 := suspended_of_eval hbody
      rw [State.resume, hsuspended, hfr.suspended]
    exact haudible.failures_failAt_ne_nil _ _

theorem voices_optional : Voices m n (.optional r body) := by
  intro fr fr' h _ hnone
  rw [Matcher.eval] at h
  obtain ⟨_, fr₁, _, h⟩ := of_bind h
  obtain ⟨v, hv, h⟩ | ⟨-, h⟩ := of_bind_isMatch h
  · obtain ⟨-, rfl⟩ := EStateM.Result.ok.inj h
    cases hv.symm.trans hnone
  · cases (matchAt_of_setOutcome h).1.symm.trans hnone

/-- If no alternative matches, the one that reports has been tried. -/
theorem firstMatch_voices (hresult : ∀ x ∈ items, x.result = r) (ho : o ∈ items)
    (hvoices : Voices m n o) (h : m.firstMatch (m.call n) n r items fr = .ok () fr')
    (hfr : fr.state.Audible) (hnone : fr'.registers.matchAt r = none) :
    fr'.state.failures ≠ [] := by
  induction items generalizing fr with
  | nil => cases ho
  | cons x xs ih =>
    rw [Matcher.firstMatch] at h
    obtain ⟨_, fr₁, hfirst, h⟩ := of_bind h
    obtain ⟨v, hv, h⟩ | ⟨hv, h⟩ := of_bind_isMatch h
    · obtain ⟨-, rfl⟩ := EStateM.Result.ok.inj h
      cases hv.symm.trans hnone
    · have hrest : m.firstMatch (m.call n) n r xs fr₁ = .ok () fr' := h
      obtain rfl | ho := List.mem_cons.mp ho
      · have hfailed := hvoices hfirst hfr ((hresult o List.mem_cons_self).symm ▸ hv)
        have hchoice : m.eval (m.call n) n (.choice r xs) fr₁ = .ok () fr' := by
          rw [Matcher.eval, hrest]
        exact kept_failures_ne_nil.of_eval hchoice hfailed
      · exact ih (fun x hx => hresult x (List.mem_cons_of_mem _ hx)) ho hrest
          (audible_of_eval hfirst hfr)

/-- If not all elements match, the last one tried has failed. -/
theorem allMatch_voices (hvoices : ∀ x ∈ items, Voices m n x)
    (h : m.allMatch (m.call n) n items fr = .ok false fr') (hfr : fr.state.Audible) :
    fr'.state.failures ≠ [] := by
  induction items generalizing fr with
  | nil =>
    rw [Matcher.allMatch] at h
    cases (EStateM.Result.ok.inj h).1
  | cons x xs ih =>
    rw [Matcher.allMatch] at h
    obtain ⟨_, fr₁, hfirst, h⟩ := of_bind h
    obtain ⟨v, -, h⟩ | ⟨hv, h⟩ := of_bind_isMatch h
    · exact ih (fun x hx => hvoices x (List.mem_cons_of_mem _ hx)) h (audible_of_eval hfirst hfr)
    · obtain ⟨-, rfl⟩ := EStateM.Result.ok.inj h
      exact hvoices x List.mem_cons_self hfirst hfr hv

theorem voices_sequence (hvoices : ∀ x ∈ items, Voices m n x) :
    Voices m n (.sequence r place items) := by
  intro fr fr' h hfr hnone
  rw [Matcher.eval] at h
  obtain ⟨_, _, hsave, h⟩ := of_bind h
  obtain ⟨-, rfl⟩ := of_savePlace hsave
  obtain ⟨b, fr₁, hall, h⟩ := of_bind h
  cases b with
  | true =>
    obtain ⟨vs, _, -, h⟩ := of_bind h
    cases (matchAt_of_setOutcome h).1.symm.trans hnone
  | false =>
    have hfailed := allMatch_voices hvoices hall hfr
    obtain ⟨_, _, hset, h⟩ := of_bind h
    obtain ⟨-, rfl⟩ := of_setOutcome hset
    obtain ⟨begun, _, hread, h⟩ := of_bind h
    obtain ⟨-, rfl⟩ := of_place hread
    obtain ⟨-, rfl⟩ := EStateM.Result.ok.inj h
    exact hfailed

/-- An action that never undoes a match fails only with its body. -/
theorem voices_action (hresult : body.result = r) (hbody : Voices m n body)
    (hanswers : ∀ handler, m.bindings[site]? = some (.action handler) → ∀ cx v,
      handler.run cx = .ok v → v.isNull = false) :
    Voices m n (.action r place site slots body) := by
  intro fr fr' h hfr hnone
  rw [Matcher.eval] at h
  obtain ⟨_, _, hsave, h⟩ := of_bind h
  obtain ⟨-, rfl⟩ := of_savePlace hsave
  obtain ⟨_, fr₁, heval, h⟩ := of_bind h
  obtain ⟨v, -, h⟩ | ⟨hv, h⟩ := of_bind_isMatch h
  · obtain ⟨begun, _, hread, h⟩ := of_bind h
    obtain ⟨matched, _, hvalue, h⟩ := of_bind h
    obtain ⟨cx, _, hcontext, h⟩ := of_bind h
    obtain ⟨answer, _, hanswer, h⟩ := of_bind h
    obtain ⟨handler, hbinding, hrun, -⟩ := Matcher.of_runAction hanswer
    rw [hanswers handler hbinding cx answer hrun] at h
    cases (matchAt_of_setOutcome h).1.symm.trans hnone
  · obtain ⟨-, rfl⟩ := EStateM.Result.ok.inj h
    exact hbody heval hfr (hresult ▸ hv)

/-- A repetition without items has failed in its first pass. -/
theorem voices_repeated (hbody : Voices m n body) {nonempty : Bool} :
    Voices m n (.repeated r nonempty body) := by
  intro fr fr' h hfr hnone
  rw [Matcher.eval] at h
  obtain ⟨vs, fr₁, hcollect, h⟩ := of_bind h
  obtain ⟨hv, hstate⟩ := matchAt_of_setOutcome h
  have hempty : vs = [] := by
    by_contra hne
    have hfalse : vs.isEmpty = false := by simpa using hne
    rw [hfalse, Bool.and_false] at hv
    cases hv.symm.trans hnone
  subst hempty
  rw [hstate]
  cases n with
  | zero => cases hcollect
  | succ n =>
    rw [Matcher.collect] at hcollect
    obtain ⟨before, _, hcursor, hcollect⟩ := of_bind hcollect
    obtain ⟨rfl, rfl⟩ := EStateM.Result.ok.inj hcursor
    obtain ⟨_, fr₂, heval, hcollect⟩ := of_bind hcollect
    obtain ⟨taken, _, htake, hcollect⟩ := of_bind hcollect
    obtain ⟨-, htaken, rfl⟩ := of_take htake
    cases taken with
    | none =>
      obtain ⟨-, rfl⟩ := EStateM.Result.ok.inj hcollect
      have hfailed : fr₂.state.failures ≠ [] := hbody heval hfr htaken
      exact hfailed
    | some item =>
      obtain ⟨after, _, -, hcollect⟩ := of_bind hcollect
      split at hcollect
      · cases (EStateM.Result.ok.inj hcollect).1
      · obtain ⟨rest, _, -, hcollect⟩ := of_bind hcollect
        cases (EStateM.Result.ok.inj hcollect).1

end

/-! ### Vocal operations and rules -/

/-- The operation cannot fail without a report, if the rules in `S` cannot. A lookahead and a
predicate can; an action can if it may undo a match. -/
inductive Op.Vocal (m : Matcher) (S : Nat → Prop) : Op → Prop
  | named {r : Nat} {description : String} {body : Op} : Vocal m S (.named r description body)
  | choice {r : Nat} {items : List Op} {o : Op} : o ∈ items → Vocal m S o →
      Vocal m S (.choice r items)
  | action {r place site : Nat} {slots : List Nat} {body : Op} : Vocal m S body →
      (∀ handler, m.bindings[site]? = some (.action handler) → ∀ cx v, handler.run cx = .ok v →
        v.isNull = false) → Vocal m S (.action r place site slots body)
  | sequence {r place : Nat} {items : List Op} : (∀ o ∈ items, Vocal m S o) →
      Vocal m S (.sequence r place items)
  | optional {r : Nat} {body : Op} : Vocal m S (.optional r body)
  /-- A repetition that may be empty never fails. -/
  | repeated {r : Nat} {nonempty : Bool} {body : Op} : (nonempty = true → Vocal m S body) →
      Vocal m S (.repeated r nonempty body)
  | call {r rule : Nat} : S rule → Vocal m S (.call r rule)
  | literal {r : Nat} {text : String} {ignoreCase : Bool} {description : String} :
      Vocal m S (.literal r text ignoreCase description)
  | charClass {r : Nat} {members : CharClass} {description : String} :
      Vocal m S (.charClass r members description)
  | any {r : Nat} : Vocal m S (.any r)

/-- The rule belongs to rules with vocal bodies that call vocally only each other. -/
def Matcher.Vocal (m : Matcher) (rule : Nat) : Prop :=
  ∃ S : Nat → Prop, S rule ∧
    ∀ (i : Nat) (r : RuleProgram), S i → m.program.rules[i]? = some r → r.body.Vocal m S

section

variable {m : Matcher} {S : Nat → Prop} {n : Nat}

theorem eval_voices (hcall : ∀ {rule fr fr'}, S rule → m.call n rule fr = .ok none fr' →
    fr.state.Audible → fr'.state.failures ≠ []) {o : Op} (ho : o.Orderly) (h : o.Vocal m S) :
    Voices m n o := by
  induction h with
  | named => exact voices_named
  | choice hmem _ ih =>
    intro fr fr' h hfr hnone
    rw [Matcher.eval] at h
    exact firstMatch_voices ho.guarded.2 hmem (ih (ho.child hmem)) h hfr hnone
  | action _ hanswers ih =>
    exact voices_action ho.guarded.1 (ih (ho.child List.mem_cons_self)) hanswers
  | sequence _ ih => exact voices_sequence fun x hx => ih x hx (ho.child hx)
  | optional => exact voices_optional
  | @repeated r nonempty body _ ih =>
    cases nonempty with
    | true => exact voices_repeated (ih rfl (ho.child List.mem_cons_self))
    | false =>
      intro fr fr' h _ hnone
      rw [Matcher.eval] at h
      obtain ⟨vs, fr₁, -, h⟩ := of_bind h
      cases (matchAt_of_setOutcome h).1.symm.trans hnone
  | call hrule =>
    intro fr fr' h hfr hnone
    rw [Matcher.eval] at h
    obtain ⟨result, fr₁, hresult, h⟩ := of_bind h
    obtain ⟨hv, hstate⟩ := matchAt_of_setOutcome h
    obtain rfl : none = result := hnone.symm.trans hv
    rw [hstate]
    exact hcall hrule hresult hfr
  | literal =>
    intro fr fr' h hfr hnone
    rw [Matcher.eval] at h
    exact voices_terminal (takes_literal _ _ _) h hfr hnone
  | charClass =>
    intro fr fr' h hfr hnone
    rw [Matcher.eval] at h
    exact voices_terminal (takes_charValue _ _) h hfr hnone
  | any =>
    intro fr fr' h hfr hnone
    rw [Matcher.eval] at h
    exact voices_terminal (takes_charValue _ _) h hfr hnone

/-- A vocal rule that fails has reported a failure. -/
theorem call_voices (hp : m.program.Orderly)
    (hbodies : ∀ (i : Nat) (r : RuleProgram), S i → m.program.rules[i]? = some r → r.body.Vocal m S)
    {rule : Nat} {fr fr' : Frame} (hrule : S rule) (h : m.call n rule fr = .ok none fr')
    (hfr : fr.state.Audible) : fr'.state.failures ≠ [] := by
  induction n generalizing rule fr fr' with
  | zero => nomatch h
  | succ n ih =>
    have hmiss := State.lookUp_of_forgetful hfr.forgetful rule
    obtain ⟨t, hlook, -⟩ | ⟨r, fr₁, hr, heval, hnone, rfl⟩ := Matcher.of_call h
    · nomatch hmiss.symm.trans hlook
    · have hvoices : Voices m n r.body := eval_voices ih (hp rule r hr) (hbodies rule r hrule hr)
      have hfailed : fr₁.state.failures ≠ [] :=
        hvoices heval ⟨hfr.forgetful, hfr.suspended⟩ hnone
      exact hfailed

/-- A parse in which a vocal rule fails has reported a failure, whether it remembers results or
not. -/
theorem Matcher.Vocal.failures_ne_nil {rule : Nat} (hrule : m.Vocal rule) (hp : m.program.Orderly)
    {text : List Char} {fr : Frame} (h : m.runRule n text rule = .ok none fr) :
    fr.state.failures ≠ [] := by
  obtain ⟨S, hS, hbodies⟩ := hrule
  have hstart := caching_start m m.options.trackLines m.options.cache text
  have hleads := caching_leads m n rule (related_blank hstart 0)
  rw [Matcher.runRule, Matcher.initialFrame] at h
  rw [h] at hleads
  obtain @⟨_, _, fr', _, hR, -, -, hforgetful⟩ | _ | _ := hleads
  obtain ⟨k, hk⟩ := hforgetful.exists
  obtain ⟨f, hf⟩ := List.exists_mem_of_ne_nil _ (call_voices hp hbodies hS hk ⟨rfl, rfl⟩)
  exact List.ne_nil_of_mem ((hR.state.failures f).mpr hf)

end

/-! ### Errors without expectations -/

/-- An error that lists nothing was made where the parse ended, in front of which all its failures
were. -/
theorem SyntaxError.Exact.of_expected_eq_nil {text : List Char} {place : Nat}
    {failures : List (Nat × String)} {e : SyntaxError} (h : e.Exact text place failures)
    (hexpected : e.expected = []) : e.offset = place ∧ ∀ f ∈ failures, f.1 < place := by
  have hnone (d : String) : (e.offset, d) ∉ failures := by
    rw [← h.expected, hexpected]
    exact List.not_mem_nil
  have hbound : ∀ f ∈ failures, f.1 < e.offset := by
    rintro ⟨place', d⟩ hf
    have hle : place' ≤ e.offset :=
      h.offset ▸ le_foldr_max (.inr (List.mem_map_of_mem (f := Prod.fst) hf))
    exact lt_of_le_of_ne hle fun heq => hnone d (heq ▸ hf)
  have hplace : place ≤ e.offset := h.offset ▸ le_foldr_max (.inl rfl)
  have hoffset : e.offset = place := by
    by_contra hne
    have hle : e.offset ≤ e.offset - 1 := by
      conv_lhs => rw [h.offset]
      refine foldr_max_le (by omega) fun x hx => ?_
      obtain ⟨f, hf, rfl⟩ := List.mem_map.mp hx
      exact Nat.le_sub_one_of_lt (hbound f hf)
    omega
  exact ⟨hoffset, hoffset ▸ hbound⟩

/-- What an error means that lists nothing expected. Either the start rule matched and stopped at
the offset of the error, in front of more text; or it failed without any report, and then the error
is at the beginning of the text and the rule is not vocal. -/
theorem parse_error_unexpecting {grammar : String} {h : Actions} {options : Options} {m : Matcher}
    (hm : buildMatcher grammar h options = .ok m) {fuel : Nat} {input : String}
    {start : Option String} {e : SyntaxError}
    (he : (m.parse fuel input start).result = .error (.parse (.mismatch e)))
    (hexpected : e.expected = []) :
    ∃ rule result fr, m.startIndex start = .ok rule ∧
      m.runRule fuel input.toList rule = .ok result fr ∧ fr.state.offset = e.offset ∧
        ((∃ v, result = some v) ∧ e.offset < Text.byteLength input.toList ∨
          result = none ∧ e.offset = 0 ∧
            (m.parse fuel input start).journal.filterMap Event.failure? = [] ∧ ¬m.Vocal rule) := by
  obtain ⟨rule, result, fr, hstart, hrun, rfl, hahead⟩ := exists_run_of_mismatch he
  obtain ⟨rule', _, _, hstart', hrun', hexact⟩ := parse_error_exact he
  obtain rfl := Except.ok.inj (hstart.symm.trans hstart')
  obtain ⟨rfl, rfl⟩ := EStateM.Result.ok.inj (hrun.symm.trans hrun')
  obtain ⟨hoffset, hbound⟩ := hexact.of_expected_eq_nil hexpected
  refine ⟨rule, result, fr, hstart, hrun, hoffset.symm, ?_⟩
  have hsound := sound_of_runRule hrun
  cases result with
  | some v =>
    obtain ⟨before, htext, hpassed⟩ := hsound.cursor.exists_before
    refine .inl ⟨⟨v, rfl⟩, ?_⟩
    have hrest : Text.byteLength fr.state.cursor.ahead ≠ 0 :=
      fun hzero => hahead rfl (Text.byteLength_eq_zero_iff.mp hzero)
    have hlength : Text.byteLength input.toList =
        fr.state.cursor.offset + Text.byteLength fr.state.cursor.ahead := by
      rw [htext, Text.byteLength_append, hpassed]
    rw [hoffset, State.offset, hlength]
    omega
  | none =>
    have hp := orderly_of_buildMatcher hm
    obtain ⟨-, hback⟩ := call_contract (describes_true m) hp fuel hrun
      (consistent_start m.options.trackLines m.options.cache input.toList)
    have hzero : fr.state.offset = 0 := by
      rw [State.offset, show fr.state.cursor = _ from hback]
      rfl
    have hnone : (m.parse fuel input start).journal.filterMap Event.failure? = [] := by
      refine List.eq_nil_iff_forall_not_mem.mpr fun f hf => ?_
      exact Nat.not_lt_zero _ (hzero ▸ hbound f hf)
    refine .inr ⟨rfl, hoffset.trans hzero, hnone, fun hvocal => ?_⟩
    rw [journal_parse hstart hrun, List.filterMap_reverse, List.reverse_eq_nil_iff] at hnone
    exact hvocal.failures_ne_nil hp hrun hnone

/-- A rule that matches one letter. -/
def letterText : String := "s='a'"

theorem letter_program : ((checkedGrammar letterText).toOption.bind fun g =>
    g.removeProxies.1.assignSlots.lower.toOption) = some
      { initializer := none
        rules := #[⟨"s", 1, .literal 0 "a" false "\"a\""⟩]
        start := 0
        code := #[] } := by
  have hparse : Grammar.parse letterText =
      .ok ⟨none, [⟨⟨0, 5⟩, "s", .literal ⟨⟨2, 5⟩, none, none⟩ "a" false, 0⟩], "s"⟩ := by
    decide +kernel
  rw [checkedGrammar, hparse]
  cbv

/-- The rule is vocal, so an empty list means that it matched and stopped in front of more text. -/
theorem parse_error_unexpecting_letter : ∃ m, buildMatcher letterText .passthrough {} = .ok m ∧
    m.Vocal 0 ∧ ∃ e, (m.parse 1 "ab" none).result = .error (.parse (.mismatch e)) ∧
      e.expected = [] ∧ ∃ v fr, m.runRule 1 ['a', 'b'] 0 = .ok (some v) fr ∧
        fr.state.offset = e.offset ∧ e.offset < Text.byteLength ['a', 'b'] := by
  obtain ⟨m, hm, hzero, hvocal, hresult⟩ : ∃ m, buildMatcher letterText .passthrough {} = .ok m ∧
      m.startIndex none = .ok 0 ∧ m.Vocal 0 ∧ (m.parse 1 "ab" none).result =
        .error (.parse (.mismatch ⟨[], some "b", 1, 1, 2⟩)) := by
    obtain ⟨source, hm⟩ := buildMatcher_of_program (h := .passthrough) letter_program rfl {}
    refine ⟨_, hm, rfl, ⟨fun _ => True, trivial, fun i r _ hr => ?_⟩, by cbv⟩
    cases i with
    | zero =>
      obtain rfl := Option.some.inj hr
      exact .literal
    | succ i => cases hr
  refine ⟨m, hm, hvocal, _, hresult, rfl, ?_⟩
  obtain ⟨rule, result, fr, hstart, hrun, hoffset, hmeans⟩ :=
    parse_error_unexpecting hm hresult rfl
  obtain rfl := Except.ok.inj (hzero.symm.trans hstart)
  obtain ⟨⟨v, rfl⟩, hlt⟩ | ⟨-, -, -, hmute⟩ := hmeans
  · exact ⟨v, fr, hrun, hoffset, hlt⟩
  · exact absurd hvocal hmute

/-- A rule that looks ahead. -/
def lookingText : String := "s=&."

theorem looking_program : ((checkedGrammar lookingText).toOption.bind fun g =>
    g.removeProxies.1.assignSlots.lower.toOption) = some
      { initializer := none
        rules := #[⟨"s", 2, .lookahead 0 1 false (.any 0)⟩]
        start := 0
        code := #[] } := by
  have hparse : Grammar.parse lookingText =
      .ok ⟨none, [⟨⟨0, 4⟩, "s", .lookahead ⟨⟨2, 4⟩, none, none⟩ false
        (.any ⟨⟨3, 4⟩, none, none⟩), 0⟩], "s"⟩ := by
    decide +kernel
  rw [checkedGrammar, hparse]
  cbv

/-- On the empty text the rule fails, and the error says that the end was expected. -/
theorem parse_error_looking : ∃ m, buildMatcher lookingText .passthrough {} = .ok m ∧
    m.startIndex none = .ok 0 ∧ (∃ fr, m.runRule 1 [] 0 = .ok none fr) ∧
      ∃ e, (m.parse 1 "" none).result = .error (.parse (.mismatch e)) ∧ e.expected = [] ∧
        e.message = "Expected end of input but end of input found." := by
  obtain ⟨source, hm⟩ := buildMatcher_of_program (h := .passthrough) looking_program rfl {}
  refine ⟨_, hm, rfl, ⟨_, rfl⟩, ⟨[], none, 0, 1, 1⟩, by cbv, rfl, by cbv⟩

end Packrat
