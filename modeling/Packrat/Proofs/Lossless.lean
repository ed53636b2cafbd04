import Packrat.Proofs.Contract

/-!
# Parsing loses no text

With actions that hand on what was matched, every value is a tree of strings whose leaves, from left
to right, are the text that was consumed. That holds of the value of a whole parse, and of every
operation that matches on the way there, also under a lookahead and in an alternative that is given
up later.

What happens on the way is said by `Matcher.Visits`: the operations that a run comes to, each with
the frame it is begun in. An operation enters the operations inside it, from frames in which those
before them have run, and a call enters the body of its rule unless the result is remembered. The
relation looks at regular endings only, so it also speaks of what happens before a run halts.

## Main results

* `Matcher.Visits.sound`: what holds of the beginning of a run holds wherever it comes to
* `passthrough_lossless`: the values of a parse spell the text
-/

namespace Packrat

/-! ### On the way of a run -/

/-- An operation that is about to run, with the fuel that is left. -/
structure Stage where
  fuel : Nat
  op : Op
  frame : Frame

namespace Matcher

open Run

variable (m : Matcher)

/-- Runs the operation of a stage. -/
def runStage (stage : Stage) : Ending Unit :=
  m.eval (m.call stage.fuel) stage.fuel stage.op stage.frame

/-- Passes of a repetition that matched and consumed something, one after the other. -/
inductive Passes (n : Nat) (body : Op) (fr : Frame) : Nat → Frame → Prop
  | nil : Passes n body fr 0 fr
  | next {k : Nat} {fr₁ fr₂ fr₃ : Frame} {item : Value} : Passes n body fr k fr₁ →
      m.eval (m.call n) n body fr₁ = .ok () fr₂ → take body.result fr₂ = .ok (some item) fr₃ →
        fr₃.state.offset ≠ fr₁.state.offset → Passes n body fr (k + 1) fr₃

/-- The run of one operation begins the run of another. -/
inductive Enters : Stage → Stage → Prop
  | named {n r : Nat} {description : String} {body : Op} {fr : Frame} :
      Enters ⟨n, .named r description body, fr⟩ ⟨n, body, { fr with state := fr.state.suspend }⟩
  | choice {n r : Nat} {before after : List Op} {o : Op} {fr fr' : Frame} :
      m.firstMatch (m.call n) n r before fr = .ok () fr' →
        (before ≠ [] → fr'.registers.matchAt r = none) →
          Enters ⟨n, .choice r (before ++ o :: after), fr⟩ ⟨n, o, fr'⟩
  | action {n r place site : Nat} {slots : List Nat} {body : Op} {fr fr' : Frame} :
      savePlace place fr = .ok () fr' →
        Enters ⟨n, .action r place site slots body, fr⟩ ⟨n, body, fr'⟩
  | sequence {n r place : Nat} {before after : List Op} {o : Op} {fr fr₁ fr' : Frame} :
      savePlace place fr = .ok () fr₁ → m.allMatch (m.call n) n before fr₁ = .ok true fr' →
        Enters ⟨n, .sequence r place (before ++ o :: after), fr⟩ ⟨n, o, fr'⟩
  | lookahead {n r place : Nat} {negated : Bool} {body : Op} {fr fr' : Frame} :
      savePlace place fr = .ok () fr' →
        Enters ⟨n, .lookahead r place negated body, fr⟩
          ⟨n, body, { fr' with state := fr'.state.suspend }⟩
  | optional {n r : Nat} {body : Op} {fr : Frame} :
      Enters ⟨n, .optional r body, fr⟩ ⟨n, body, fr⟩
  | repeated {n r k : Nat} {nonempty : Bool} {body : Op} {fr fr' : Frame} :
      m.Passes n body fr k fr' → k < n → Enters ⟨n, .repeated r nonempty body, fr⟩ ⟨n, body, fr'⟩
  | call {n slot rule : Nat} {r : RuleProgram} {fr : Frame} :
      fr.state.lookUp rule = none → m.program.rules[rule]? = some r →
        Enters ⟨n + 1, .call slot rule, fr⟩
          ⟨n, r.body, ⟨fr.state.entering rule, .blank r.registers⟩⟩

/-- A parse that begins with a rule comes to a stage, as if it began with a call. -/
def Visits (fuel : Nat) (text : List Char) (rule : Nat) (stage : Stage) : Prop :=
  Relation.TransGen m.Enters ⟨fuel, .call 0 rule, m.initialFrame text⟩ stage

end Matcher

section

variable {tracked : Bool} {text : List Char} {Q : List Char → Value → Prop} {m : Matcher}
  {stage stage' : Stage}

/-- What is true of every stage that a run comes to. -/
structure Stage.Sound (tracked : Bool) (text : List Char) (Q : List Char → Value → Prop)
    (stage : Stage) : Prop where
  orderly : stage.op.Orderly
  consistent : stage.frame.state.Consistent tracked text Q

/-- An operation that runs from a sound stage keeps the contract. -/
theorem Stage.Sound.lands (h : stage.Sound tracked text Q) (hm : m.Describes Q)
    (hp : m.program.Orderly) {fr' : Frame} (hrun : m.runStage stage = .ok () fr') :
    Lands tracked text Q stage.op.Touches stage.op.result stage.frame fr' :=
  eval_contract hm (call_contract hm hp stage.fuel) stage.op h.orderly hrun h.consistent

theorem consistent_of_passes (hm : m.Describes Q) (hp : m.program.Orderly) {n k : Nat} {body : Op}
    (hbody : body.Orderly) {fr fr' : Frame} (h : m.Passes n body fr k fr')
    (hfr : fr.state.Consistent tracked text Q) : fr'.state.Consistent tracked text Q := by
  induction h with
  | nil => exact hfr
  | next _ hrun htake _ ih =>
    obtain ⟨-, -, rfl⟩ := Run.of_take htake
    exact (eval_contract hm (call_contract hm hp n) body hbody hrun ih).consistent

theorem Stage.Sound.enters (h : stage.Sound tracked text Q) (hm : m.Describes Q)
    (hp : m.program.Orderly) (henters : m.Enters stage stage') : stage'.Sound tracked text Q := by
  obtain ⟨horderly, hconsistent⟩ := h
  have hcall : ∀ n, CallContract tracked text Q (m.call n) := call_contract hm hp
  cases henters with
  | named => exact ⟨horderly.child List.mem_cons_self, hconsistent.suspended _⟩
  | @choice n r before after o fr fr' hbefore hnone =>
    have hmem : ∀ x ∈ before, x ∈ before ++ o :: after := fun x => List.mem_append_left _
    refine ⟨horderly.child (List.mem_append_right _ List.mem_cons_self), ?_⟩
    cases before with
    | nil =>
      rw [Matcher.firstMatch] at hbefore
      obtain ⟨-, rfl⟩ := EStateM.Result.ok.inj hbefore
      exact hconsistent
    | cons x xs =>
      obtain ⟨-, hresult⟩ := horderly.guarded
      have hlands := firstMatch_lands
        (fun x hx => eval_contract hm (hcall n) x (horderly.child (hmem x hx)))
        (fun x hx => hresult x (hmem x hx)) (fun _ _ _ _ => trivial)
        (fun hnil => absurd hnil (List.cons_ne_nil x xs)) hbefore hconsistent
      exact hlands.consistent
  | action hsave =>
    obtain ⟨-, rfl⟩ := Run.of_savePlace hsave
    exact ⟨horderly.child List.mem_cons_self, hconsistent⟩
  | @sequence n r place before after o fr fr₁ fr' hsave hbefore =>
    obtain ⟨-, rfl⟩ := Run.of_savePlace hsave
    obtain ⟨-, -, hpairwise⟩ := horderly.guarded
    have hmem : ∀ x ∈ before, x ∈ before ++ o :: after := fun x => List.mem_append_left _
    obtain ⟨hfulfils, -⟩ := allMatch_spells
      (fun x hx => eval_contract hm (hcall n) x (horderly.child (hmem x hx)))
      (List.pairwise_append.mp hpairwise).1 hbefore hconsistent
    exact ⟨horderly.child (List.mem_append_right _ List.mem_cons_self), hfulfils.consistent⟩
  | lookahead hsave =>
    obtain ⟨-, rfl⟩ := Run.of_savePlace hsave
    exact ⟨horderly.child List.mem_cons_self, hconsistent.suspended _⟩
  | optional => exact ⟨horderly.child List.mem_cons_self, hconsistent⟩
  | repeated hpasses _ =>
    have hbody := horderly.child List.mem_cons_self
    exact ⟨hbody, consistent_of_passes hm hp hbody hpasses hconsistent⟩
  | call _ hr => exact ⟨hp _ _ hr, hconsistent.note _⟩

theorem consistent_start (tracked remembers : Bool) (text : List Char) :
    (State.start tracked remembers text).Consistent tracked text Q := by
  refine ⟨Cursor.within_start tracked text, ?_⟩
  intro memory hmemory key entry hentry
  have hempty : memory = ∅ := by
    cases remembers with
    | true => exact (Option.some.inj hmemory).symm
    | false => nomatch hmemory
  simp [hempty] at hentry

theorem sound_initialStage (m : Matcher) (fuel : Nat) (text : List Char) (rule : Nat) :
    Stage.Sound m.options.trackLines text Q ⟨fuel, .call 0 rule, m.initialFrame text⟩ :=
  ⟨Op.orderly_iff.mpr ⟨trivial, nofun⟩, consistent_start _ _ _⟩

/-- Whatever a parse comes to is sound. -/
theorem Matcher.Visits.sound (hm : m.Describes Q) (hp : m.program.Orderly) {fuel rule : Nat}
    (h : m.Visits fuel text rule stage) : stage.Sound m.options.trackLines text Q := by
  have hstart := sound_initialStage (Q := Q) m fuel text rule
  induction h with
  | single henters => exact hstart.enters hm hp henters
  | tail _ henters ih => exact ih.enters hm hp henters

end

/-! ### Values that spell the text -/

theorem textAll_map (parts : List (List Char × Value))
    (h : ∀ part ∈ parts, part.2.text = String.ofList part.1) :
    Value.textAll (parts.map Prod.snd) = String.ofList (parts.flatMap Prod.fst) := by
  induction parts with
  | nil => rfl
  | cons part parts ih =>
    obtain ⟨hpart, hrest⟩ := List.forall_mem_cons.mp h
    rw [List.map_cons, Value.textAll, hpart, ih hrest, List.flatMap_cons, String.ofList_append]

/-- Actions that hand on what was matched keep the text of a value. -/
theorem describes_text {m : Matcher} (h : m.Serves .passthrough) :
    m.Describes fun cs v => v.text = String.ofList cs where
  text _ := rfl
  list parts hparts := textAll_map parts hparts
  action := by
    intro i site handler hsite hbinding cx v cs hrun hmatched
    obtain ⟨b, hb, hbind⟩ := h i site hsite
    obtain rfl := Option.some.inj (hbinding.symm.trans hb)
    obtain ⟨_ | _, code, labels⟩ := site
    · obtain rfl := Binding.action.inj (Except.ok.inj hbind)
      obtain rfl := Except.ok.inj hrun
      exact hmatched
    · nomatch hbind

theorem Cursor.Between.split {tracked : Bool} {text cs : List Char} {c d : Cursor}
    (h : c.Between cs d) (hc : c.Within tracked text) : ∃ before after,
      text = before ++ cs ++ after ∧ c.offset = Text.byteLength before ∧
        d.offset = Text.byteLength (before ++ cs) := by
  obtain ⟨before, htext, hposition⟩ := hc
  have hended : d.position = (Position.start tracked).advance (before ++ cs) := by
    rw [h.position, hposition, ← Position.advance_append]
  refine ⟨before, d.ahead, ?_, offset_of_passed hposition, offset_of_passed hended⟩
  rw [htext, h.ahead, List.append_assoc]

/-- A parse has a value when its rule has matched and nothing is left of the text. -/
theorem exists_run_of_parse {m : Matcher} {fuel : Nat} {input : String} {start : Option String}
    {v : Value} (h : (m.parse fuel input start).result = .ok v) : ∃ rule fr,
      m.call fuel rule (m.initialFrame input.toList) = .ok (some v) fr ∧
        fr.state.cursor.ahead = [] := by
  cases hstart : m.startIndex start with
  | error e => simp [Matcher.parse, hstart] at h
  | ok rule =>
    rw [Matcher.result_parse hstart, Matcher.runRule] at h
    cases hrun : m.call fuel rule (m.initialFrame input.toList) with
    | error e fr =>
      rw [hrun] at h
      cases e <;> cases h
    | ok result fr =>
      rw [hrun, Matcher.verdict, mapError_eq_ok_iff] at h
      cases result with
      | none => cases h
      | some w =>
        unfold State.finish at h
        dsimp only at h
        split at h
        · next hend =>
          obtain rfl := Except.ok.inj h
          exact ⟨rule, fr, hrun, List.isEmpty_iff.mp hend⟩
        · cases h

/-- With actions that hand on what was matched, the strings of a parse's value make up the text, and
those of every match on the way make up what it consumed: the text between the place where its
operation began and the place where it ended, counted in bytes. -/
theorem passthrough_lossless {grammar : String} {options : Options} {m : Matcher}
    (hm : buildMatcher grammar .passthrough options = .ok m) (fuel : Nat) (input : String)
    (start : Option String) :
    (∀ v, (m.parse fuel input start).result = .ok v → v.text = input) ∧
      ∀ rule, m.startIndex start = .ok rule → ∀ stage, m.Visits fuel input.toList rule stage →
        ∀ fr' v, m.runStage stage = .ok () fr' → fr'.registers.matchAt stage.op.result = some v →
          ∃ before cs after, input.toList = before ++ cs ++ after ∧
            stage.frame.state.offset = Text.byteLength before ∧
              fr'.state.offset = Text.byteLength (before ++ cs) ∧ v.text = String.ofList cs := by
  obtain ⟨g, hg, hmatcher⟩ := buildMatcher_eq_ok_iff_matcher.mp hm
  have hparse := (checkedGrammar_eq_ok_iff.mp hg).1
  have hchoosable := (Grammar.wellFormed_of_parse hparse).choosable_removeProxies
  have hp : m.program.Orderly := fun i r hr =>
    Grammar.orderly_of_lower (Grammar.parts_of_matcher hmatcher).1 hchoosable hr
  have hdescribes := describes_text (Grammar.serves_of_matcher hmatcher)
  constructor
  · intro v hv
    obtain ⟨rule, fr, hrun, hend⟩ := exists_run_of_parse hv
    have hinitial := consistent_start (Q := fun cs v => v.text = String.ofList cs)
      m.options.trackLines m.options.cache input.toList
    obtain ⟨-, cs, hbetween, htext⟩ := call_contract hdescribes hp fuel hrun hinitial
    have hahead := hbetween.ahead
    rw [hend, List.append_nil] at hahead
    have hcs : input.toList = cs := hahead
    rw [htext, ← hcs, String.ofList_toList]
  · intro rule hstart stage hvisits fr' v hrun hmatch
    have hsound := hvisits.sound hdescribes hp
    have hlands := hsound.lands hdescribes hp hrun
    have hconsumes := hlands.consumes
    rw [hmatch] at hconsumes
    obtain ⟨cs, hbetween, htext⟩ := hconsumes
    obtain ⟨before, after, hinput, hbegun, hended⟩ := hbetween.split hsound.consistent.within
    exact ⟨before, cs, after, hinput, hbegun, hended, htext⟩

theorem passthrough_lossless_small : ∃ m, buildMatcher smallText .passthrough {} = .ok m ∧
    (∀ v, (m.parse 3 "x" none).result = .ok v → v.text = "x") ∧
      ∀ stage, m.Visits 3 ['x'] m.program.start stage → ∀ fr' v,
        m.runStage stage = .ok () fr' → fr'.registers.matchAt stage.op.result = some v →
          ∃ before cs after, ['x'] = before ++ cs ++ after ∧
            stage.frame.state.offset = Text.byteLength before ∧
              fr'.state.offset = Text.byteLength (before ++ cs) ∧ v.text = String.ofList cs := by
  obtain ⟨m, hm⟩ := small_builds {}
  obtain ⟨hvalue, hvisited⟩ := passthrough_lossless hm 3 "x" none
  exact ⟨m, hm, hvalue, hvisited m.program.start rfl⟩

end Packrat
