import Packrat.Proofs.Lossless

/-!
# The backtracking contract

What every operation promises to the ones around it, wherever a parse has come to: reporting is
suspended as often as before; without a match the cursor is back, with the count of lines and the
half of a line end that it may stand behind; with a match it stands further on, and the text between
the two places can be cut out, because both are places between characters. A lookahead and a
predicate never move the cursor at all. Under a suspension nothing is reported, however many rules
are called.

`Obeys` is that promise for one run of one operation. It is not only made along the way of a parse:
any operation of any rule may be tried in any state that a parse comes to, on any registers. The
place that an action goes back to, and its text begins at, is the one it was tried at.

## Main results

* `eval_obeys`: every orderly operation keeps the promise from a consistent state
* `buildMatcher_backtracks`: so does every operation of a built matcher, wherever a parse has come
  to
-/

namespace Packrat

open Text (byteLength)

/-! ### Places between characters -/

/-- The characters `cs` of the text stand between two cursors and can be cut out. -/
structure Cursor.Encloses (text : List Char) (c : Cursor) (cs : List Char) (d : Cursor) : Prop where
  le : c.offset ≤ d.offset
  split : ∃ before after, text = before ++ cs ++ after ∧ c.offset = byteLength before ∧
    d.offset = byteLength (before ++ cs)
  cut : c.advance? (d.offset - c.offset) = some (cs, d)

theorem Cursor.Between.encloses {tracked : Bool} {text cs : List Char} {c d : Cursor}
    (h : c.Between cs d) (hc : c.Within tracked text) : c.Encloses text cs d := by
  obtain ⟨before, after, htext, hbegun, hended⟩ := h.split hc
  have hlength : d.offset = c.offset + byteLength cs := by
    rw [hended, hbegun, Text.byteLength_append]
  refine ⟨by omega, ⟨before, after, htext, hbegun, hended⟩, ?_⟩
  have hcut : Text.splitAtByte? (d.offset - c.offset) c.ahead = some (cs, d.ahead) := by
    rw [hlength, Nat.add_sub_cancel_left, h.ahead]
    exact Text.splitAtByte?_append cs d.ahead
  rw [advance?, hcut]
  show some (cs, (⟨c.position.advance cs, d.ahead⟩ : Cursor)) = some (cs, d)
  rw [← h.position]

/-! ### Silence -/

/-- The state says about failures what another one does, and goes on not to report any. -/
structure State.Hushed (s₀ s : State) : Prop where
  suspended : s.suspended ≠ 0
  failure : s.failure = s₀.failure
  expected : s.expected = s₀.expected
  failures : s.failures = s₀.failures

theorem kept_hushed (s₀ : State) : Kept s₀.Hushed where
  moveTo _ h := ⟨h.suspended, h.failure, h.expected, h.failures⟩
  failAt place d h := by
    rw [State.failAt_of_suspended h.suspended]
    exact h
  suspend h := ⟨Nat.succ_ne_zero _, h.failure, h.expected, h.failures⟩
  resume {s₁ s} h₁ h hsuspended := by
    have hback : s.resume.suspended = s₁.suspended := Nat.sub_eq_of_eq_add hsuspended
    exact ⟨hback ▸ h₁.suspended, h.failure, h.expected, h.failures⟩
  called _ _ h := ⟨h.suspended, h.failure, h.expected, h.failures⟩
  entering _ h := ⟨h.suspended, h.failure, h.expected, h.failures⟩
  remember _ _ _ h := ⟨h.suspended, h.failure, h.expected, h.failures⟩

/-! ### The promise -/

/-- Operations that only look. -/
def Op.Looks : Op → Prop
  | .lookahead .. | .predicate .. => True
  | _ => False

/-- What an operation promises for its run between two frames, in a parse of the text. -/
structure Obeys (text : List Char) (o : Op) (fr fr' : Frame) : Prop where
  suspended : fr'.state.suspended = fr.state.suspended
  unmoved : fr'.registers.matchAt o.result = none → fr'.state.cursor = fr.state.cursor
  moved (v : Value) : fr'.registers.matchAt o.result = some v →
    ∃ cs, fr.state.cursor.Encloses text cs fr'.state.cursor
  looks : o.Looks → fr'.state.cursor = fr.state.cursor
  hushed : fr.state.suspended ≠ 0 → fr.state.Hushed fr'.state

section

variable {m : Matcher} {tracked : Bool} {text : List Char} {n : Nat} {o : Op} {fr fr' : Frame}

/-- Whatever a matcher does, its values may say nothing about the text. -/
theorem describes_true (m : Matcher) : m.Describes fun _ _ => True :=
  ⟨fun _ => trivial, fun _ _ => trivial, fun _ _ _ _ _ _ _ => trivial⟩

/-- What only looks does not move. -/
theorem cursor_of_looks (hp : m.program.Orderly) (ho : o.Orderly) (hlooks : o.Looks)
    (h : m.eval (m.call n) n o fr = .ok () fr')
    (hfr : fr.state.Consistent tracked text fun _ _ => True) :
    fr'.state.cursor = fr.state.cursor := by
  have hm := describes_true m
  cases o with
  | lookahead r place negated body =>
    obtain ⟨hresult, hplace⟩ := ho.guarded
    have hbody : Contract tracked text (fun _ _ => True) m (m.call n) n body :=
      eval_contract hm (call_contract hm hp n) body (ho.child List.mem_cons_self)
    exact (lookahead_lands hm hresult hplace hbody h hfr).2
  | predicate r negated site slots =>
    rw [Matcher.eval] at h
    obtain ⟨answer, fr₁, hanswer, h⟩ := Run.of_bind h
    obtain ⟨cx, rfl⟩ := Matcher.of_runPredicate hanswer
    obtain ⟨-, rfl⟩ := Run.of_setOutcome h
    rfl
  | _ => exact hlooks.elim

/-- Every orderly operation keeps its promise, from any consistent state and on any registers. -/
theorem eval_obeys (hp : m.program.Orderly) (ho : o.Orderly)
    (h : m.eval (m.call n) n o fr = .ok () fr')
    (hfr : fr.state.Consistent tracked text fun _ _ => True) : Obeys text o fr fr' := by
  have hm := describes_true m
  have hlands := eval_contract hm (call_contract hm hp n) o ho h hfr
  have hconsumes := hlands.consumes
  refine ⟨hlands.suspended, ?_, ?_, fun hlooks => cursor_of_looks hp ho hlooks h hfr, ?_⟩
  · intro hnone
    rw [hnone] at hconsumes
    exact hconsumes
  · intro v hv
    rw [hv] at hconsumes
    obtain ⟨cs, hbetween, -⟩ := hconsumes
    exact ⟨cs, hbetween.encloses hfr.within⟩
  · intro hsuspended
    exact (kept_hushed fr.state).of_eval h ⟨hsuspended, rfl, rfl, rfl⟩

/-- When an action has had its body run and match, the place that was kept for it is the one it was
tried at, and its text can be cut out between that place and the cursor. -/
theorem action_encloses {r place site : Nat} {slots : List Nat} {body : Op}
    (hp : m.program.Orderly) (ho : (Op.action r place site slots body).Orderly) {fr₁ fr₂ : Frame}
    {v : Value} (hsave : Run.savePlace place fr = .ok () fr₁)
    (hbody : m.eval (m.call n) n body fr₁ = .ok () fr₂) (hmatch : fr₂.registers.matchAt r = some v)
    (hfr : fr.state.Consistent tracked text fun _ _ => True) :
    Run.place place fr₂ = .ok fr.state.cursor fr₂ ∧
      ∃ cs, fr.state.cursor.Encloses text cs fr₂.state.cursor := by
  have hm := describes_true m
  obtain ⟨hresult, hplace⟩ := ho.guarded
  obtain ⟨hlt, rfl⟩ := Run.of_savePlace hsave
  have hlands := eval_contract hm (call_contract hm hp n) body (ho.child List.mem_cons_self)
    hbody hfr
  obtain ⟨hlands, hbegun⟩ := hlands.behind_place (o := .action r place site slots body) hlt
    (List.mem_cons_of_mem _ List.mem_cons_self) List.mem_cons_self hplace hfr
  have hconsumes := hlands.consumes
  rw [hresult, hmatch] at hconsumes
  obtain ⟨cs, hbetween, -⟩ := hconsumes
  refine ⟨?_, cs, hbetween.encloses hfr.within⟩
  exact place_content (Registers.lt_of_content (hbegun ▸ nofun)) hbegun fr₂.state

end

/-! ### Wherever a parse comes to -/

/-- The operation belongs to one of the rules. -/
def Program.Has (p : Program) (o : Op) : Prop :=
  ∃ (i : Nat) (r : RuleProgram), p.rules[i]? = some r ∧ o.Inside r.body

theorem Program.Orderly.of_has {p : Program} (hp : p.Orderly) {o : Op} (h : p.Has o) :
    o.Orderly := by
  obtain ⟨i, r, hr, hinside⟩ := h
  exact (hp i r hr).inside hinside

namespace Matcher

variable {m : Matcher} {fuel rule : Nat} {text : List Char} {stage stage' : Stage}

/-- A parse that begins with a rule comes to a state: an operation begins there, or ends. -/
def Reaches (m : Matcher) (fuel : Nat) (text : List Char) (rule : Nat) (s : State) : Prop :=
  ∃ stage, (stage = ⟨fuel, .call 0 rule, m.initialFrame text⟩ ∨ m.Visits fuel text rule stage) ∧
    (stage.frame.state = s ∨ ∃ fr', m.runStage stage = .ok () fr' ∧ fr'.state = s)

theorem Reaches.consistent {Q : List Char → Value → Prop} (hm : m.Describes Q)
    (hp : m.program.Orderly) {s : State} (h : m.Reaches fuel text rule s) :
    s.Consistent m.options.trackLines text Q := by
  obtain ⟨stage, hstage, hs⟩ := h
  have hsound : stage.Sound m.options.trackLines text Q := by
    rcases hstage with rfl | hvisits
    · exact sound_initialStage m fuel text rule
    · exact hvisits.sound hm hp
  rcases hs with rfl | ⟨fr', hrun, rfl⟩
  · exact hsound.consistent
  · exact (hsound.lands hm hp hrun).consistent

/-- An operation enters its own parts, or the body of a rule. -/
theorem Enters.child_or_has (h : m.Enters stage stage') :
    stage'.op ∈ stage.op.children ∨ m.program.Has stage'.op := by
  cases h with
  | call _ hr => exact .inr ⟨_, _, hr, .self⟩
  | choice | sequence => exact .inl (List.mem_append_right _ List.mem_cons_self)
  | named | action | lookahead | optional | repeated => exact .inl List.mem_cons_self

/-- All operations on the way of a parse belong to rules. -/
theorem Visits.has (h : m.Visits fuel text rule stage) : m.program.Has stage.op := by
  induction h with
  | single henters => exact henters.child_or_has.resolve_left nofun
  | tail _ henters ih =>
    obtain ⟨i, r, hr, hinside⟩ := ih
    rcases henters.child_or_has with hchild | hhas
    · exact ⟨i, r, hr, hinside.of_child hchild⟩
    · exact hhas

end Matcher

theorem orderly_of_buildMatcher {grammar : String} {h : Actions} {options : Options} {m : Matcher}
    (hm : buildMatcher grammar h options = .ok m) : m.program.Orderly := by
  obtain ⟨g, hg, hmatcher⟩ := buildMatcher_eq_ok_iff_matcher.mp hm
  have hparse := (checkedGrammar_eq_ok_iff.mp hg).1
  have hchoosable := (Grammar.wellFormed_of_parse hparse).choosable_removeProxies
  intro i r hr
  exact Grammar.orderly_of_lower (Grammar.parts_of_matcher hmatcher).1 hchoosable hr

/-- All operations that a parse comes to belong to the rules of the program, and in every state that
it comes to each operation of the program keeps its promise; an action, moreover, is called with the
text between the place it was tried at and the cursor. -/
theorem buildMatcher_backtracks {grammar : String} {h : Actions} {options : Options} {m : Matcher}
    (hm : buildMatcher grammar h options = .ok m) (fuel : Nat) (input : String) (rule : Nat) :
    (∀ stage, m.Visits fuel input.toList rule stage → m.program.Has stage.op) ∧
      ∀ s, m.Reaches fuel input.toList rule s → ∀ o, m.program.Has o → ∀ n registers,
        (∀ fr', m.eval (m.call n) n o ⟨s, registers⟩ = .ok () fr' →
          Obeys input.toList o ⟨s, registers⟩ fr') ∧
        ∀ r place site slots body, o = .action r place site slots body → ∀ fr₁ fr₂ v,
          Run.savePlace place ⟨s, registers⟩ = .ok () fr₁ →
            m.eval (m.call n) n body fr₁ = .ok () fr₂ → fr₂.registers.matchAt r = some v →
              Run.place place fr₂ = .ok s.cursor fr₂ ∧
                ∃ cs, s.cursor.Encloses input.toList cs fr₂.state.cursor := by
  have hp := orderly_of_buildMatcher hm
  refine ⟨fun _ hvisits => hvisits.has, ?_⟩
  intro s hs o ho n registers
  have hconsistent := hs.consistent (describes_true m) hp
  have horderly := hp.of_has ho
  constructor
  · intro fr' hrun
    exact eval_obeys hp horderly hrun hconsistent
  · rintro r place site slots body rfl fr₁ fr₂ v hsave hbody hmatch
    exact action_encloses hp horderly hsave hbody hmatch hconsistent

/-- Tried at the beginning of `x`, the action of the first rule matches and has all of it for its
text. -/
theorem buildMatcher_backtracks_small : ∃ m, buildMatcher smallText .passthrough {} = .ok m ∧
    ∃ stage, m.Visits 3 ['x'] 0 stage ∧ m.program.Has stage.op ∧
      (∃ fr', m.runStage stage = .ok () fr' ∧ Obeys ['x'] stage.op stage.frame fr') ∧
        ∃ place fr₂, Run.place place fr₂ = .ok stage.frame.state.cursor fr₂ ∧
          ∃ cs, stage.frame.state.cursor.Encloses ['x'] cs fr₂.state.cursor := by
  obtain ⟨source, hm⟩ := small_matcher {}
  obtain ⟨hhas, hkeeps⟩ := buildMatcher_backtracks hm 3 "x" 0
  let r : RuleProgram := ⟨"s", 2, .action 0 1 0 [0] (.call 0 1)⟩
  let s := (State.start false false ['x']).entering 0
  let stage : Stage := ⟨2, r.body, ⟨s, .blank 2⟩⟩
  have hvisits : (smallMatcher {} source).Visits 3 ['x'] 0 stage := .single (.call (r := r) rfl rfl)
  obtain ⟨hobeys, htext⟩ := hkeeps s ⟨stage, .inr hvisits, .inl rfl⟩ stage.op (hhas stage hvisits)
    2 (.blank 2)
  refine ⟨_, hm, stage, hvisits, hhas stage hvisits, ⟨_, rfl, hobeys _ rfl⟩, ?_⟩
  exact ⟨_, _, htext 0 1 0 [0] (.call 0 1) rfl _ _ _ rfl rfl rfl⟩

end Packrat
