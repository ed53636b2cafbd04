import Packrat.Proofs.Simulation

/-!
# Outcomes of rules

The outcome of a rule is the one of its body, wrapped in the memory: a remembered outcome is handed
out without running the body, any other one is stored. This module takes the wrapper off, so that a
simulation of bodies becomes one of rules.

Outcomes are read with as much fuel as they need. `Matcher.Gives` says that a text gives a result
with some amount of fuel; the result is then the same with every larger amount.

## Main results

* `Kept.of_eval`: an operation keeps what every step keeps
* `call_leads_self`: an ending does not depend on the fuel that was left over
* `Gives.of_leads`: what a simulation of rules says about results
* `Gives.unique`: a text gives at most one result
-/

namespace Packrat

open Filter Run

/-! ### Memory -/

namespace State

variable {s t : State} {rule : Nat} {result : Option Value}

/-- A hit puts the cursor behind the remembered match. -/
theorem lookUp_eq_some_iff :
    s.lookUp rule = some (result, t) ↔ ∃ memory entry, s.memory = some memory ∧
      memory[s.memoKey rule s.offset]? = some entry ∧ entry.result = result ∧
        s.moveTo entry.after = t := by
  simp only [lookUp, Option.bind_eq_bind, Option.pure_def, Option.bind_eq_some_iff,
    Option.some.injEq, Prod.mk.injEq]
  grind

/-- A state without a memory has nothing to look up. -/
theorem lookUp_of_forgetful (h : s.memory = none) (rule : Nat) : s.lookUp rule = none := by
  simp [lookUp, h]

/-- A state without a memory stores nothing. -/
theorem remember_of_forgetful (h : s.memory = none) (rule : Nat) (c : Cursor)
    (result : Option Value) : s.remember rule c result = s := by
  cases s
  simp_all [remember]

/-- The state with an entry of a rule in its journal. -/
def entering (s : State) (rule : Nat) : State := s.note (.entered rule s.offset s.reporting)

end State

namespace Matcher

variable {m m' : Matcher} {s : State} {rule : Nat} {result : Option Value}

theorem call_of_hit {t : State} (h : s.lookUp rule = some (result, t)) (fuel : Nat)
    (registers : Registers Cursor) :
    m.call (fuel + 1) rule ⟨s, registers⟩ = .ok result ⟨t, registers⟩ := by
  rw [call, get_bind_apply]
  dsimp only
  rw [h]
  rfl

theorem call_of_missing (h : s.lookUp rule = none) (hr : m.program.rules[rule]? = none)
    (fuel : Nat) (registers : Registers Cursor) :
    m.call (fuel + 1) rule ⟨s, registers⟩ =
      .error (.fault (.noSuchRuleIndex rule)) ⟨s, registers⟩ := by
  rw [call, get_bind_apply]
  dsimp only
  rw [h]
  dsimp only
  rw [hr]
  rfl

/-- An outcome that is not remembered comes from the body and is stored. -/
theorem call_of_miss {r : RuleProgram} (h : s.lookUp rule = none)
    (hr : m.program.rules[rule]? = some r) (fuel : Nat) (registers : Registers Cursor) :
    m.call (fuel + 1) rule ⟨s, registers⟩ = Ending.after
      (fun result after => ⟨after.state.remember rule s.cursor result, registers⟩)
      (m.ruleBody (m.call fuel) fuel r ⟨s.entering rule, .blank r.registers⟩) := by
  rw [call, get_bind_apply]
  dsimp only
  rw [h]
  dsimp only
  rw [hr]
  change (m.ruleBody (m.call fuel) fuel r >>= _) ⟨s.entering rule, .blank r.registers⟩ = _
  rw [bind_apply]
  cases m.ruleBody (m.call fuel) fuel r ⟨s.entering rule, .blank r.registers⟩ <;> rfl

/-- The registers around a call of a rule take no part in it. -/
theorem call_registers (m : Matcher) (n rule : Nat) (s : State) :
    (∃ result t, ∀ registers, m.call n rule ⟨s, registers⟩ = .ok result ⟨t, registers⟩) ∨
      ∃ e t, ∀ registers, ∃ last, m.call n rule ⟨s, registers⟩ = .error e ⟨t, last⟩ := by
  cases n with
  | zero => exact .inr ⟨_, _, fun _ => ⟨_, rfl⟩⟩
  | succ n =>
    cases hs : s.lookUp rule with
    | some hit =>
      obtain ⟨result, t⟩ := hit
      exact .inl ⟨result, t, call_of_hit hs n⟩
    | none =>
      cases hr : m.program.rules[rule]? with
      | none => exact .inr ⟨_, _, fun registers => ⟨_, call_of_missing hs hr n registers⟩⟩
      | some r =>
        have hcall := fun registers => call_of_miss hs hr n registers
        cases hb : m.ruleBody (m.call n) n r ⟨s.entering rule, .blank r.registers⟩ with
        | ok result after =>
          simp only [hb] at hcall
          exact .inl ⟨_, _, hcall⟩
        | error e after =>
          simp only [hb] at hcall
          exact .inr ⟨_, _, fun registers => ⟨_, hcall registers⟩⟩

theorem call_ok_registers {n : Nat} {s t : State} {registers registers' : Registers Cursor}
    (h : m.call n rule ⟨s, registers⟩ = .ok result ⟨t, registers'⟩) (other : Registers Cursor) :
    m.call n rule ⟨s, other⟩ = .ok result ⟨t, other⟩ := by
  rcases m.call_registers n rule s with ⟨found, u, hcall⟩ | ⟨e, u, hcall⟩
  · obtain ⟨rfl, heq⟩ := EStateM.Result.ok.inj (h.symm.trans (hcall registers))
    obtain ⟨rfl, -⟩ := Frame.mk.inj heq
    exact hcall other
  · obtain ⟨last, hcall⟩ := hcall registers
    nomatch h.symm.trans hcall

end Matcher

/-! ### Bodies and calls -/

variable {R E : State → State → Prop} {m m' : Matcher}

/-- Bodies that are renumberings of one operation follow one another when the outcomes of their
rules do. -/
theorem ruleBody_leads (hE : R ≤ E) (hcode : m.program.code = m'.program.code)
    (hbindings : m.bindings = m'.bindings) (hS : Steady R) {call : Nat → Run (Option Value)}
    {follow : Nat → Nat → Run (Option Value)} {σ ρ : Nat → Nat}
    (hcall : ∀ rule, Leads R E (call (σ rule)) (fun n => follow n (ρ rule))) (fuel : Nat)
    {r r' : RuleProgram} {o : Op} (hbody : r.body = o.renumber σ)
    (hbody' : r'.body = o.renumber ρ) :
    Leads R E (m.ruleBody call fuel r) (fun n => m'.ruleBody (follow n) n r') := by
  have heval := eval_leads σ ρ hE hcode hbindings hS hcall fuel o
  unfold Matcher.ruleBody
  simp only [hbody, hbody', Op.result_renumber]
  exact heval.bind fun _ => .take hE _

/-- A body follows itself when the outcomes of the rules do. -/
theorem ruleBody_leads_self (m : Matcher) (hE : R ≤ E) (hS : Steady R) {fuel : Nat}
    (hcall : ∀ rule, Leads R E (m.call fuel rule) (fun n => m.call n rule)) (r : RuleProgram) :
    Leads R E (m.ruleBody (m.call fuel) fuel r) (fun n => m.ruleBody (m.call n) n r) := by
  have hbody : r.body = r.body.renumber id := (Op.renumber_id r.body).symm
  exact ruleBody_leads hE rfl rfl hS hcall fuel hbody hbody

/-- Related states have no memory. -/
structure Forgetful (R : State → State → Prop) : Prop where
  left {s t : State} : R s t → s.memory = none
  right {s t : State} : R s t → t.memory = none

/-- What was entered does not matter to related states. -/
structure Oblivious (R : State → State → Prop) : Prop extends Forgetful R where
  enteringLeft {s t : State} (rule : Nat) : R s t → R (s.entering rule) t
  enteringRight {s t : State} (rule : Nat) : R s t → R s (t.entering rule)

/-- Fresh registers hold no place. -/
theorem related_blank {s t : State} (h : R s t) (count : Nat) :
    Related R ⟨s, .blank count⟩ ⟨t, .blank count⟩ := by
  refine ⟨h, rfl, ?_⟩
  intro slot c hc
  exact absurd hc (Registers.get?_blank_ne_place count slot c)

theorem Follows.succ {α : Type} {fr₀ fr₀' : Frame} {r : Ending α} {f : Nat → Ending α}
    (h : Follows R E fr₀ fr₀' r fun n => f (n + 1)) : Follows R E fr₀ fr₀' r f := by
  refine (h.lag 1).congr ?_
  filter_upwards [eventually_gt_atTop 0] with n hn
  rw [Nat.sub_add_cancel hn]

/-- Without a memory, rules follow one another when their bodies do. -/
theorem call_leads_of_body (hF : Forgetful R) {fuel rule rule' : Nat} {r r' : RuleProgram}
    (hentering : ∀ s t, R s t → R (s.entering rule) (t.entering rule'))
    (hr : m.program.rules[rule]? = some r) (hr' : m'.program.rules[rule']? = some r')
    (hregisters : r.registers = r'.registers)
    (hbody : Leads R E (m.ruleBody (m.call fuel) fuel r)
      (fun n => m'.ruleBody (m'.call n) n r')) :
    Leads R E (m.call (fuel + 1) rule) (fun n => m'.call n rule') := by
  rintro ⟨s, registers⟩ ⟨t, _⟩ hR
  obtain rfl : registers = _ := hR.registers
  refine Follows.succ ?_
  simp only [Matcher.call_of_miss (State.lookUp_of_forgetful (hF.left hR.state) _) hr,
    Matcher.call_of_miss (State.lookUp_of_forgetful (hF.right hR.state) _) hr', ← hregisters]
  have hblank := related_blank (hentering _ _ hR.state) r.registers
  refine (hbody hblank).after _ _ ?_ fun _ _ h _ _ => h
  intro result after after' hR' hs ht _ _
  rw [State.remember_of_forgetful (hF.left hR'.state),
    State.remember_of_forgetful (hF.right hR'.state)]
  exact ⟨hR.withState hR'.state, hs, ht⟩

/-- Without a memory, rules that are missing on both sides break the same rule of use. -/
theorem call_leads_of_missing (hE : R ≤ E) (hF : Forgetful R) {fuel rule : Nat}
    (hr : m.program.rules[rule]? = none) (hr' : m'.program.rules[rule]? = none) :
    Leads R E (m.call (fuel + 1) rule) (fun n => m'.call n rule) := by
  rintro ⟨s, registers⟩ ⟨t, _⟩ hR
  refine Follows.succ ?_
  simp only [Matcher.call_of_missing (State.lookUp_of_forgetful (hF.left hR.state) _) hr,
    Matcher.call_of_missing (State.lookUp_of_forgetful (hF.right hR.state) _) hr']
  exact .error nofun (hE _ _ hR.state) (.of_forall fun _ => ⟨_, rfl⟩)

/-! ### What every step keeps -/

/-- A property of states that no step of a parse breaks, wherever the cursor goes. -/
structure Kept (P : State → Prop) : Prop where
  moveTo {s : State} (c : Cursor) : P s → P (s.moveTo c)
  failAt {s : State} (place : Cursor) (d : String) : P s → P (s.failAt place d)
  suspend {s : State} : P s → P s.suspend
  resume {s₀ s : State} : P s₀ → P s → s.suspended = s₀.suspended + 1 → P s.resume
  called {s : State} (site : Nat) (cx : Context) : P s → P (s.note (.called site cx))
  entering {s : State} (rule : Nat) : P s → P (s.entering rule)
  remember {s : State} (rule : Nat) (begun : Cursor) (result : Option Value) : P s →
    P (s.remember rule begun result)

/-- A state beside itself, with the property. -/
def Holding (P : State → Prop) (s t : State) : Prop := s = t ∧ P s

namespace Kept

variable {P : State → Prop}

theorem steady (hP : Kept P) : Steady (Holding P) where
  cursor h := h.1 ▸ rfl
  moveTo h _ := ⟨h.1 ▸ rfl, hP.moveTo _ h.2⟩
  skip _ h := ⟨h.1 ▸ rfl, hP.moveTo _ h.2⟩
  failAt _ _ h := ⟨h.1 ▸ rfl, hP.failAt _ _ h.2⟩
  suspend h := ⟨h.1 ▸ rfl, hP.suspend h.2⟩
  resume h₀ h hs _ := ⟨h.1 ▸ rfl, hP.resume h₀.2 h.2 hs⟩
  called _ _ h := ⟨h.1 ▸ rfl, hP.called _ _ h.2⟩

/-- Every frame is related to itself. -/
theorem related (hP : Kept P) {fr : Frame} (h : P fr.state) : Related (Holding P) fr fr :=
  ⟨⟨rfl, h⟩, rfl, fun _ c _ => ⟨fr.state.moveTo c, _, ⟨rfl, hP.moveTo c h⟩, rfl⟩⟩

/-- An ending does not depend on the fuel that was left over, and the property still holds there. -/
theorem call_leads (hP : Kept P) (m : Matcher) (fuel rule : Nat) :
    Leads (Holding P) (Holding P) (m.call fuel rule) (fun n => m.call n rule) := by
  induction fuel generalizing rule with
  | zero => exact .outOfFuel _
  | succ fuel ih =>
    rintro ⟨s, registers⟩ ⟨_, _⟩ hR
    obtain ⟨rfl, hs⟩ : Holding P s _ := hR.state
    obtain rfl : registers = _ := hR.registers
    refine Follows.succ ?_
    cases hlook : s.lookUp rule with
    | some hit =>
      obtain ⟨result, t⟩ := hit
      obtain ⟨memory, entry, -, -, -, rfl⟩ := State.lookUp_eq_some_iff.mp hlook
      simp only [Matcher.call_of_hit hlook]
      exact .ok (hR.withState ⟨rfl, hP.moveTo _ hs⟩) rfl rfl (.of_forall fun _ => rfl)
    | none =>
      cases hr : m.program.rules[rule]? with
      | none =>
        simp only [Matcher.call_of_missing hlook hr]
        exact .error nofun ⟨rfl, hs⟩ (.of_forall fun _ => ⟨_, rfl⟩)
      | some r =>
        simp only [Matcher.call_of_miss hlook hr]
        have hbody := ruleBody_leads_self m le_rfl hP.steady ih r
        have hentering : Holding P (s.entering rule) (s.entering rule) := ⟨rfl, hP.entering rule hs⟩
        refine (hbody (related_blank hentering r.registers)).after _ _ ?_ fun _ _ h _ _ => h
        intro result after after' hR' hs' ht' _ _
        obtain ⟨heq, hafter⟩ := hR'.state
        exact ⟨hR.withState ⟨by rw [heq], hP.remember rule _ _ hafter⟩, hs', ht'⟩

/-- An operation follows itself from a frame with the property. -/
theorem eval_follows (hP : Kept P) (m : Matcher) (n : Nat) (o : Op) {fr : Frame}
    (hfr : P fr.state) : Follows (Holding P) (Holding P) fr fr (m.eval (m.call n) n o fr)
      (fun k => m.eval (m.call k) k o fr) := by
  have hself : Leads (Holding P) (Holding P) (m.eval (m.call n) n (o.renumber id))
      (fun k => m.eval (m.call k) k (o.renumber id)) :=
    eval_leads id id le_rfl rfl rfl hP.steady (hP.call_leads m n) n o
  have hleads := hself (hP.related hfr)
  rwa [Op.renumber_id] at hleads

/-- An operation keeps what every step keeps. -/
theorem of_eval (hP : Kept P) {m : Matcher} {n : Nat} {o : Op} {fr fr' : Frame}
    (h : m.eval (m.call n) n o fr = .ok () fr') (hfr : P fr.state) : P fr'.state := by
  have hleads := hP.eval_follows m n o hfr
  rw [h] at hleads
  obtain ⟨hR, -, -, -⟩ | _ | _ := hleads
  exact hR.state.2

end Kept

/-! ### More fuel -/

theorem kept_true : Kept fun _ => True :=
  ⟨fun _ _ => trivial, fun _ _ _ => trivial, fun _ => trivial, fun _ _ _ => trivial,
    fun _ _ _ => trivial, fun _ _ => trivial, fun _ _ _ _ => trivial⟩

/-- Behind an operation, reporting is suspended as often as before. -/
theorem suspended_of_eval {m : Matcher} {n : Nat} {o : Op} {fr fr' : Frame}
    (h : m.eval (m.call n) n o fr = .ok () fr') : fr'.state.suspended = fr.state.suspended := by
  have hleads : Follows (Holding fun _ => True) _ fr fr _ _ := kept_true.eval_follows m n o trivial
  rw [h] at hleads
  obtain ⟨-, hsuspended, -, -⟩ | _ | _ := hleads
  exact hsuspended

theorem holding_true : Holding (fun _ => True) = Eq := by
  funext s t
  simp [Holding]

/-- An ending does not depend on the fuel that was left over. -/
theorem call_leads_self (m : Matcher) (fuel rule : Nat) :
    Leads Eq Eq (m.call fuel rule) (fun n => m.call n rule) := by
  have hself := kept_true.call_leads m fuel rule
  rwa [holding_true] at hself

/-- Every frame is related to itself. -/
theorem related_eq (fr : Frame) : Related Eq fr fr := by
  have hself : Related (Holding fun _ => True) fr fr := kept_true.related trivial
  rwa [holding_true] at hself

theorem call_eventually {m : Matcher} {fuel rule : Nat} {fr fr' : Frame} {result : Option Value}
    (h : m.call fuel rule fr = .ok result fr') :
    ∀ᶠ n in atTop, m.call n rule fr = .ok result fr' := by
  have hself := call_leads_self m fuel rule (related_eq fr)
  rw [h] at hself
  obtain @⟨_, _, ⟨_, _⟩, _, hR, -, -, hn⟩ | _ | _ := hself
  obtain rfl : fr'.state = _ := hR.state
  obtain rfl : fr'.registers = _ := hR.registers
  exact hn

/-! ### What a run depends on -/

section

variable (hcode : m.program.code = m'.program.code) (hbindings : m.bindings = m'.bindings)

include hcode in
theorem context_congr : m.context = m'.context := by
  funext site slots begun matched
  unfold Matcher.context
  rw [hcode]

include hbindings in
theorem runAction_congr : m.runAction = m'.runAction := by
  funext site cx
  unfold Matcher.runAction
  rw [hbindings]

include hcode hbindings

theorem runPredicate_congr : m.runPredicate = m'.runPredicate := by
  funext site slots
  unfold Matcher.runPredicate
  rw [context_congr hcode, hbindings]

/-- An operation sees nothing of a matcher but its code sites and their functions. -/
theorem eval_congr (call : Nat → Run (Option Value)) (fuel : Nat) (o : Op) :
    m.eval call fuel o = m'.eval call fuel o := by
  induction o using Op.inductionOn with
  | choice r items ih =>
    simp only [Matcher.eval]
    induction items with
    | nil => rfl
    | cons o os ihos =>
      simp only [Matcher.firstMatch, ih o List.mem_cons_self,
        ihos fun o ho => ih o (List.mem_cons_of_mem _ ho)]
  | sequence r place items ih =>
    have hall : m.allMatch call fuel items = m'.allMatch call fuel items := by
      induction items with
      | nil => rfl
      | cons o os ihos =>
        simp only [Matcher.allMatch, ih o List.mem_cons_self,
          ihos fun o ho => ih o (List.mem_cons_of_mem _ ho)]
    simp only [Matcher.eval, hall]
  | action r place site slots body ih =>
    simp only [Matcher.eval, ih, context_congr hcode, runAction_congr hbindings]
  | predicate r negated site slots =>
    simp only [Matcher.eval, runPredicate_congr hcode hbindings]
  | named _ _ _ ih | lookahead _ _ _ _ ih | optional _ _ ih | repeated _ _ _ ih =>
    simp only [Matcher.eval, ih]
  | _ => simp only [Matcher.eval]

end

/-- A rule sees nothing of a matcher but its program and the functions of the code sites. -/
theorem call_congr (hprogram : m.program = m'.program) (hbindings : m.bindings = m'.bindings)
    (fuel : Nat) : m.call fuel = m'.call fuel := by
  induction fuel with
  | zero => rfl
  | succ fuel ih =>
    funext rule
    have hbody : ∀ r, m.ruleBody (m.call fuel) fuel r = m'.ruleBody (m'.call fuel) fuel r := by
      intro r
      unfold Matcher.ruleBody
      rw [ih, eval_congr (congrArg _ hprogram) hbindings]
    simp only [Matcher.call, hbody, hprogram]

/-! ### Results -/

namespace Matcher

/-- A text gives a result, with some amount of fuel. -/
def Gives (m : Matcher) (text : String) (start : Option String) (r : Except Failure Value) : Prop :=
  r ≠ .error .outOfFuel ∧ ∃ fuel, (m.parse fuel text start).result = r

variable {text : String} {start start' : Option String} {r r' : Except Failure Value}

theorem result_parse {rule : Nat} (h : m.startIndex start = .ok rule) (fuel : Nat) :
    (m.parse fuel text start).result = verdict (m.runRule fuel text.toList rule) := by
  simp [parse, h]

/-- Verdicts follow one another as the endings do. -/
theorem verdict_of_follows {fr₀ fr₀' : Frame} {e : Ending (Option Value)}
    {f : Nat → Ending (Option Value)} (hf : Follows R E fr₀ fr₀' e f)
    (hfinish : ∀ s t, R s t → ∀ result : Option Value, s.finish result = t.finish result)
    (he : verdict e ≠ .error .outOfFuel) : ∀ᶠ n in atTop, verdict (f n) = verdict e := by
  cases hf with
  | ok hR _ _ hn =>
    filter_upwards [hn] with n hn
    rw [hn, verdict, verdict, hfinish _ _ hR.state]
  | @error e' _ _ _ _ _ hn =>
    filter_upwards [hn] with n hn
    obtain ⟨registers, hn⟩ := hn
    rw [hn]
    cases e' <;> rfl
  | outOfFuel => exact absurd rfl he

/-- Results carry over to a matcher whose rules follow those of another. -/
theorem Gives.of_leads {rule rule' : Nat} (h : m.Gives text start r)
    (hstart : m.startIndex start = .ok rule) (hstart' : m'.startIndex start' = .ok rule')
    (hR : R (State.start m.options.trackLines m.options.cache text.toList)
      (State.start m'.options.trackLines m'.options.cache text.toList))
    (hlead : ∀ fuel, Leads R E (m.call fuel rule) (fun n => m'.call n rule'))
    (hfinish : ∀ s t, R s t → ∀ result : Option Value, s.finish result = t.finish result) :
    m'.Gives text start' r := by
  obtain ⟨hne, fuel, hfuel⟩ := h
  rw [result_parse hstart] at hfuel
  have hv := verdict_of_follows (hlead fuel (related_blank hR 0)) hfinish (hfuel ▸ hne)
  obtain ⟨n, hn⟩ := hv.exists
  refine ⟨hne, n, ?_⟩
  rw [result_parse hstart', ← hfuel]
  exact hn

/-- A text gives at most one result. -/
theorem Gives.unique (h : m.Gives text start r) (h' : m.Gives text start r') : r = r' := by
  obtain ⟨hne, fuel, hfuel⟩ := h
  obtain ⟨hne', fuel', hfuel'⟩ := h'
  cases hstart : m.startIndex start with
  | error e =>
    simp only [parse, hstart] at hfuel hfuel'
    exact hfuel.symm.trans hfuel'
  | ok rule =>
    rw [result_parse hstart] at hfuel hfuel'
    have hself := fun fuel => call_leads_self m fuel rule (related_eq (m.initialFrame text.toList))
    have hfinish : ∀ s t : State, s = t → ∀ result : Option Value,
        s.finish result = t.finish result := fun _ _ hst _ => hst ▸ rfl
    have hv := verdict_of_follows (hself fuel) hfinish (hfuel ▸ hne)
    have hv' := verdict_of_follows (hself fuel') hfinish (hfuel' ▸ hne')
    obtain ⟨n, hn, hn'⟩ := (hv.and hv').exists
    calc r = verdict (m.call n rule (m.initialFrame text.toList)) := hfuel.symm.trans hn.symm
      _ = r' := hn'.trans hfuel'

end Matcher

end Packrat
