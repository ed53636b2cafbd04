import Packrat.Proofs.Faithful
import Packrat.Proofs.Memory

/-!
# Compilation keeps the meaning of a grammar

A matcher that was built from a text runs the program of its grammar; `Grammar.evaluate` evaluates
the grammar. Rule by rule the one goes the course of the other (`call_tracks`), by induction on the
fuel: the body of a rule is faithful as long as the calls in it are. So with any fuel both come to
the same verdict, after the same calls of code blocks.

## Main results

* `Grammar.call_tracks`: the call of a rule mirrors the outcome of the rule
* `buildMatcher_adequate`: what a built matcher does is what its grammar means
-/

namespace Packrat

open Run

/-! ### Rules in a program -/

section

variable {names : List String} {sites sites' : Array CodeSite} {rs : List RuleProgram}

theorem lowerRules_extends {rules : List Rule}
    (h : lowerRules names rules sites = .ok (rs, sites')) : Extends sites sites' :=
  .of_append (codeSites_of_lowerRules h)

/-- Where a rule stands, the program has its operation, and all of its sites. -/
theorem getElem?_of_lowerRules {rules : List Rule}
    (h : lowerRules names rules sites = .ok (rs, sites')) {i : Nat} {r : Rule}
    (hr : rules[i]? = some r) : ∃ b inner inner', r.body.lower names inner = .ok (b, inner') ∧
      Extends inner' sites' ∧ rs[i]? = some ⟨r.name, r.registers, b⟩ := by
  induction rules generalizing sites rs i with
  | nil => nomatch hr
  | cons first rules ih =>
    obtain ⟨b, inner, bs, hb, hbs, rfl⟩ := lowerRules_cons.mp h
    cases i with
    | zero =>
      obtain rfl := Option.some.inj hr
      exact ⟨b, sites, inner, hb, lowerRules_extends hbs, rfl⟩
    | succ i => exact ih hbs hr

end

namespace Grammar

variable {g : Grammar} {p : Program} {name : String} {i : Nat}

/-- A name that means a place means the rule that stands there. -/
theorem exists_rule_of_findIndex? (hi : g.findIndex? name = some i) :
    ∃ r, g.rules[i]? = some r ∧ g.find? name = some r ∧ g.number name = i := by
  obtain ⟨hlt, hindex⟩ := List.findIdx?_eq_some_iff_findIdx_eq.mp hi
  refine ⟨g.rules[i], List.getElem?_eq_getElem hlt, ?_, hindex⟩
  have hget : g.rules[i]? = g.rules.find? (·.name == name) := by
    rw [List.find?_eq_getElem?_findIdx, hindex]
  rw [find?, ← hget, List.getElem?_eq_getElem hlt]

theorem rule_of_lower (hp : g.assignSlots.lower = .ok p) {r : Rule} (hr : g.rules[i]? = some r) :
    ∃ b sites sites', r.assign.body.lower g.ruleNames sites = .ok (b, sites') ∧
      Extends sites' p.code ∧ p.rules[i]? = some ⟨r.name, r.assign.registers, b⟩ := by
  obtain ⟨rs, code, start, hrs, -, rfl⟩ := lower_eq_ok_iff.mp hp
  have hassigned : g.assignSlots.rules[i]? = some r.assign := by
    rw [assignSlots, List.getElem?_map, hr]
    rfl
  obtain ⟨b, inner, inner', hb, hsites, hrule⟩ := getElem?_of_lowerRules hrs hassigned
  rw [ruleNames_assignSlots] at hb
  refine ⟨b, inner, inner', hb, hsites, ?_⟩
  rw [List.getElem?_toArray]
  exact hrule

/-- Every rule of a program is the one of a rule of the grammar, in the same place. -/
theorem exists_rule_of_lower (hp : g.assignSlots.lower = .ok p) {r : RuleProgram}
    (hr : p.rules[i]? = some r) : ∃ rule sites sites', g.rules[i]? = some rule ∧
      rule.assign.body.lower g.ruleNames sites = .ok (r.body, sites') ∧ Extends sites' p.code ∧
        r = ⟨rule.name, rule.assign.registers, r.body⟩ := by
  obtain ⟨rs, code, start, hrs, -, rfl⟩ := lower_eq_ok_iff.mp hp
  have hlt : i < g.rules.length := by
    have hlength := congrArg List.length (names_of_lowerRules hrs)
    rw [List.length_map, List.length_map, assignSlots, List.length_map] at hlength
    rw [← hlength]
    exact (Array.getElem?_eq_some_iff.mp hr).1
  obtain ⟨b, sites, sites', hb, hsites, hrule⟩ := rule_of_lower hp (List.getElem?_eq_getElem hlt)
  obtain rfl := Option.some.inj (hr.symm.trans hrule)
  exact ⟨_, sites, sites', List.getElem?_eq_getElem hlt, hb, hsites, rfl⟩

end Grammar

/-! ### Functions for code sites -/

theorem getElem?_of_mapM {α β ε : Type} {f : α → Except ε β} {as : List α} {bs : List β}
    (h : as.mapM f = .ok bs) {i : Nat} {a : α} (ha : as[i]? = some a) :
    ∃ b, bs[i]? = some b ∧ f a = .ok b := by
  induction as generalizing bs i with
  | nil => nomatch ha
  | cons first as ih =>
    rw [List.mapM_cons, bind_eq_ok_iff] at h
    obtain ⟨b, hb, hrest⟩ := h
    obtain ⟨bs', hbs, heq⟩ := bind_eq_ok_iff.mp hrest
    obtain rfl := Except.ok.inj heq
    cases i with
    | zero =>
      obtain rfl := Option.some.inj ha
      exact ⟨b, rfl, hb⟩
    | succ i => exact ih hbs ha

theorem Grammar.serves_of_matcher {g : Grammar} {h : Actions} {options : Options} {m : Matcher}
    (hm : g.matcher h options = .ok m) : m.Serves h := by
  intro i site hsite
  obtain ⟨-, hbind, -⟩ := parts_of_matcher hm
  rw [← Array.getElem?_toList] at hsite ⊢
  exact getElem?_of_mapM hbind hsite

/-! ### The body of a rule -/

/-- A rule starts with one owned slot and an empty scope. -/
theorem Pool.accounts_root : (Pool.acquire {}).2.openScope.Accounts [(Pool.acquire {}).1] := by
  have hheld : ∀ x, (Pool.acquire {}).2.openScope.held x = if x = 0 then 1 else 0 := by
    intro x
    cases x <;> rfl
  refine ⟨?_, nofun⟩
  intro x
  rw [hheld]
  show _ = List.count x [0] + List.count x []
  cases x <;> simp

/-- A rule asks for as many registers as slots were ever acquired in it. -/
theorem Rule.registers_assign (r : Rule) : r.assign.registers =
    (r.body.assign (Pool.acquire {}).1 (Pool.acquire {}).2.openScope).2.holders.length :=
  (Pool.length_release ..).trans (Pool.length_closeScope _)

section

variable {m : Matcher} {h : Actions} {names : List String} {call : Nat → Run (Option Value)}
  {outcome : String → Parse (Option Value)} {fuel : Nat} {sites sites' : Array CodeSite} {b : Op}

/-- On blank registers, the body of a rule goes the course of its expression in an empty scope. -/
theorem Rule.body_tracks (r : Rule) (hr : Faithful m h names call outcome fuel r.body)
    (hlower : r.assign.body.lower names sites = .ok (b, sites'))
    (hsites : Extends sites' m.program.code) :
    Tracks m (.blank r.assign.registers) (fun v w _ => v = w ∧ v ≠ some .null)
      (m.ruleBody call fuel ⟨r.name, r.assign.registers, b⟩)
      (Parse.enclosed (r.body.meaning h outcome fuel) []) := by
  set slot := (Pool.acquire {}).1 with hslot
  set q := (r.body.assign slot (Pool.acquire {}).2.openScope).2 with hq
  have hsize : q.holders.length = r.assign.registers := r.registers_assign.symm
  have hready : Ready [slot] slot (Pool.acquire {}).2.openScope [[]]
      (.blank r.assign.registers) := by
    refine ⟨Pool.accounts_root, List.mem_cons_self, nofun, rfl, ?_⟩
    intro scope hscope
    obtain rfl := List.mem_singleton.mp hscope
    nofun
  have hlt : slot < r.assign.registers := by
    have hlt := lt_of_ready r.body hready (by simp [← hq, hsize])
    simpa using hlt
  have hresult : b.result = slot := Expr.result_of_lower r.body hlower
  refine .bind (hr.tracks hready hlower hsites (by simp [← hq, hsize])) ?_
  intro _ hit regs hsettled
  have htake : slot < regs.size := by
    rw [hsettled.size, Registers.size_blank]
    exact hlt
  show Tracks m regs _ (Run.take b.result) _
  rw [hresult]
  refine .last (take_matchAt htake) ⟨hsettled.outcome, ?_⟩
  rw [hsettled.outcome]
  intro heq
  obtain ⟨w, rfl, hw⟩ := Option.map_eq_some_iff.mp heq
  exact (hsettled.inner w.1 w.2 rfl).1 hw

end

/-! ### Calls -/

namespace Grammar

variable {g : Grammar} {h : Actions} {options : Options} {m : Matcher}

/-- A remembered outcome is found on both sides. -/
theorem outcome_of_hit {s t : State} {name : String} {r : Rule} {i : Nat} {result : Option Value}
    (hfind : g.find? name = some r) (hnumber : g.number name = i)
    (hhit : s.lookUp i = some (result, t)) (fuel : Nat) :
    g.outcome h (fuel + 1) name (m.course s) = .ok result (m.course t) := by
  obtain ⟨memory, entry, -, -, -, rfl⟩ := State.lookUp_eq_some_iff.mp hhit
  have hlook := Matcher.lookUp_course m s i
  rw [hhit] at hlook
  rw [outcome, hfind]
  dsimp only
  rw [hnumber]
  exact Parse.remembered_of_hit hlook

/-- An outcome that is not remembered comes from the body and is remembered. -/
theorem outcome_of_miss {s : State} {name : String} {r : Rule} {i : Nat}
    (hfind : g.find? name = some r) (hnumber : g.number name = i) (hmiss : s.lookUp i = none)
    (fuel : Nat) : g.outcome h (fuel + 1) name (m.course s) =
      (Parse.enclosed (r.body.meaning h (g.outcome h fuel) fuel) [] >>= fun result => do
        Parse.change (·.remember i s.cursor result)
        return result) (m.course (s.entering i)) := by
  have hlook := Matcher.lookUp_course m s i
  rw [hmiss] at hlook
  rw [outcome, hfind]
  dsimp only
  rw [hnumber]
  exact Parse.remembered_of_miss _ hlook

/-- The call of a rule mirrors the outcome of the rule. -/
theorem call_tracks (hm : g.matcher h options = .ok m)
    (hchoosable : ∀ r ∈ g.rules, r.body.choosable = true) (fuel : Nat) (name : String) (i : Nat)
    (hi : g.ruleNames.findIdx? (· == name) = some i) (regs : Registers Cursor) :
    Tracks m regs (fun a b r => a = b ∧ a ≠ some .null ∧ r = regs) (m.call fuel i)
      (g.outcome h fuel name) := by
  induction fuel generalizing name i regs with
  | zero => exact .outOfFuel
  | succ fuel ih =>
    rw [← findIndex?_eq] at hi
    obtain ⟨hlower, -, -⟩ := parts_of_matcher hm
    obtain ⟨r, hr, hfind, hnumber⟩ := exists_rule_of_findIndex? hi
    obtain ⟨b, sites, sites', hb, hsites, hrule⟩ := rule_of_lower hlower hr
    intro s hs
    cases hlook : s.lookUp i with
    | some hit =>
      obtain ⟨result, t⟩ := hit
      rw [Matcher.call_of_hit hlook, outcome_of_hit hfind hnumber hlook]
      obtain ⟨memory, entry, hmemory, hentry, rfl, rfl⟩ := State.lookUp_eq_some_iff.mp hlook
      have hnull := hs.memory memory hmemory _ entry hentry
      exact .ok ⟨rfl, hnull, rfl⟩ rfl (hs.update (f := (·.moveTo entry.after)) rfl)
    | none =>
      rw [Matcher.call_of_miss hlook hrule, outcome_of_miss hfind hnumber hlook]
      have hfaithful : Faithful m h g.ruleNames (m.call fuel) (g.outcome h fuel) fuel r.body :=
        faithful (serves_of_matcher hm) ih r.body (hchoosable r (List.mem_of_getElem? hr))
      have hbody := r.body_tracks hfaithful hb hsites
      have hclean : (m.course (s.entering i)).Clean :=
        hs.update (f := (·.note (.entered i s.cursor.offset s.reporting))) rfl
      have hrun := hbody (s.entering i) hclean
      rw [Parse.bind_apply]
      generalize m.ruleBody (m.call fuel) fuel ⟨r.name, r.assign.registers, b⟩
          ⟨s.entering i, .blank r.assign.registers⟩ = ending,
        Parse.enclosed (r.body.meaning h (g.outcome h fuel) fuel) []
          (m.course (s.entering i)) = ending' at hrun
      cases hrun with
      | @ok result _ t regs' hresult hsuspended hclean =>
        obtain ⟨rfl, hnull⟩ := hresult
        exact .ok ⟨rfl, hnull, rfl⟩ hsuspended (hclean.remember i s.cursor hnull)
      | raised hclean => exact .raised hclean
      | outOfFuel hclean => exact .outOfFuel hclean

/-! ### Parses -/

section

variable {P : Option Value → Option Value → Registers Cursor → Prop} {suspended : Nat}
  {x : Ending (Option Value)} {y : EStateM.Result Stop Course (Option Value)}

theorem verdict_of_mirrors {b : Option Value → Option Value → Registers Cursor → Prop}
    (hxy : Mirrors m suspended b x y) (hb : ∀ v w r, b v w r → v = w) :
    Matcher.verdict x = verdict y := by
  cases hxy with
  | @ok v w s r hP hsuspended hclean =>
    obtain rfl := hb v w r hP
    rfl
  | raised hclean => rfl
  | outOfFuel hclean => rfl

theorem calls_of_mirrors (hxy : Mirrors m suspended P x y) :
    (Matcher.finalFrame x).state.journal.reverse.filterMap m.hostCall? =
      (finalCourse y).calls.reverse := by
  rw [List.filterMap_reverse]
  cases hxy with
  | ok hP hsuspended hclean => rfl
  | raised hclean => rfl
  | outOfFuel hclean => rfl

theorem clean_of_mirrors (hxy : Mirrors m suspended P x y) : (finalCourse y).Clean := by
  cases hxy with
  | ok hP hsuspended hclean => exact hclean
  | raised hclean => exact hclean
  | outOfFuel hclean => exact hclean

end

theorem startIndex_of_matcher (hm : g.matcher h options = .ok m) (start : Option String) :
    m.startIndex start = match g.findIndex? (start.getD g.start) with
      | some i => .ok i
      | none => .error (.unknownStart (start.getD g.start)) := by
  obtain ⟨hlower, -, -⟩ := parts_of_matcher hm
  cases start with
  | none =>
    have hstart : g.findIndex? g.start = some m.program.start := by
      rw [← findIndex?_assignSlots]
      exact start_of_lower hlower
    simp [Matcher.startIndex, hstart]
  | some name =>
    rw [Matcher.startIndex, ruleIndex?_of_lower hlower, findIndex?_assignSlots]
    rfl

theorem clean_initialCourse (options : Options) (text : List Char) :
    (initialCourse options text).Clean := by
  refine ⟨?_, nofun⟩
  intro memory hmemory key entry hentry
  have hempty : memory = ∅ := by
    cases hcache : options.cache <;> simp_all [initialCourse, State.start]
  simp [hempty] at hentry

/-- With any fuel, a parse comes to the verdict of the evaluation, after the same calls, and no
label stood for `null` in any of them. -/
theorem parse_eq_evaluate (hm : g.matcher h options = .ok m)
    (hchoosable : ∀ r ∈ g.rules, r.body.choosable = true) (fuel : Nat) (text : String)
    (start : Option String) :
    (m.parse fuel text start).result = (g.evaluate h options fuel text start).result ∧
      (m.parse fuel text start).journal.filterMap m.hostCall? =
        (g.evaluate h options fuel text start).calls ∧
      ∀ call ∈ (g.evaluate h options fuel text start).calls,
        ∀ label ∈ call.context.labels, label.2 ≠ .null := by
  have hindex := startIndex_of_matcher hm start
  have hdefines := isSome_findIndex? g (start.getD g.start)
  cases hi : g.findIndex? (start.getD g.start) with
  | none =>
    have hundefined : g.defines (start.getD g.start) = false := by simp [← hdefines, hi]
    rw [hi] at hindex
    simp [Matcher.parse, evaluate, hindex, hundefined]
  | some i =>
    have hdefined : g.defines (start.getD g.start) = true := by simp [← hdefines, hi]
    rw [hi] at hindex
    obtain ⟨-, -, rfl⟩ := parts_of_matcher hm
    have hmirror := call_tracks hm hchoosable fuel _ i (findIndex?_eq g _ ▸ hi) (.blank 0)
      (State.start m.options.trackLines m.options.cache text.toList)
      (clean_initialCourse m.options text.toList)
    simp only [Matcher.parse, evaluate, hindex, if_pos hdefined]
    refine ⟨verdict_of_mirrors hmirror fun _ _ _ hP => hP.1, calls_of_mirrors hmirror, ?_⟩
    intro call hcall
    exact (clean_of_mirrors hmirror).calls call (List.mem_reverse.mp hcall)

/-- Other options give a matcher for the same program with the same functions. -/
theorem matcher_options (hm : g.matcher h options = .ok m) (options' : Options) :
    g.matcher h options' =
      .ok { m with options := options', source := m.program.source options' } := by
  obtain ⟨program, bindings, hp, hb, rfl⟩ := matcher_eq_ok_iff.mp hm
  exact matcher_eq_ok_iff.mpr ⟨program, bindings, hp, hb, rfl⟩

/-- A text has a value in a grammar or a reason for having none, by an evaluation that remembers
nothing. -/
def Means (g : Grammar) (h : Actions) (trackLines : Bool) (text : String) (start : Option String)
    (r : Except Matcher.Failure Value) : Prop :=
  r ≠ .error .outOfFuel ∧
    ∃ fuel, (g.evaluate h { cache := false, trackLines } fuel text start).result = r

theorem faultless_evaluate (g : Grammar) (h : Actions) (options : Options) (fuel : Nat)
    (text : String) (start : Option String) (f : Fault) :
    (g.evaluate h options fuel text start).result ≠ .error (.fault f) := by
  unfold evaluate
  dsimp only
  split
  · show verdict _ ≠ _
    generalize g.outcome h fuel (start.getD g.start) (initialCourse options text.toList) = ending
    cases ending with
    | ok result k =>
      show (k.state.finish result).mapError _ ≠ _
      cases k.state.finish result <;> nofun
    | error e k => cases e <;> nofun
  · nofun

end Grammar

/-- A matcher does what a grammar means. -/
structure Matcher.Adequate (m : Matcher) (g : Grammar) (h : Actions) : Prop where
  /-- The parse ends when the evaluation of the grammar does, and with the same result. -/
  gives (text : String) (start : Option String) (r : Except Matcher.Failure Value) :
    m.Gives text start r ↔ g.Means h m.options.trackLines text start r
  /-- Step by step, also with a memory: with the same fuel there is the same result. -/
  result (fuel : Nat) (text : String) (start : Option String) :
    (m.parse fuel text start).result = (g.evaluate h m.options fuel text start).result
  /-- The code blocks are called in the same order, and see the same: the labels in view. -/
  calls (fuel : Nat) (text : String) (start : Option String) :
    (m.parse fuel text start).journal.filterMap m.hostCall? =
      (g.evaluate h m.options fuel text start).calls
  /-- No label stands for `null`. -/
  labels (fuel : Nat) (text : String) (start : Option String) :
    ∀ call ∈ (m.parse fuel text start).journal.filterMap m.hostCall?,
      ∀ label ∈ call.context.labels, label.2 ≠ .null
  /-- No rule of use is broken. -/
  faultless (fuel : Nat) (text : String) (start : Option String) (f : Fault) :
    (m.parse fuel text start).result ≠ .error (.fault f)

theorem Grammar.adequate_of_matcher {g : Grammar} {h : Actions} {options : Options} {m : Matcher}
    (hm : g.matcher h options = .ok m) (hchoosable : ∀ r ∈ g.rules, r.body.choosable = true) :
    m.Adequate g h := by
  have hoptions : m.options = options := (parts_of_matcher hm).2.2
  have hm' := matcher_options hm { cache := false, trackLines := options.trackLines }
  refine ⟨?_, ?_, ?_, ?_, ?_⟩
  · intro text start r
    have hforget := @Matcher.gives_iff_of_forgetful m
      { m with
        options := { cache := false, trackLines := options.trackLines }
        source := m.program.source { cache := false, trackLines := options.trackLines } }
      rfl rfl (by rw [hoptions]) rfl text start r
    rw [hforget, Matcher.Gives, Means, hoptions]
    have hresult := fun fuel => (parse_eq_evaluate hm' hchoosable fuel text start).1
    simp only [hresult]
  · intro fuel text start
    rw [hoptions]
    exact (parse_eq_evaluate hm hchoosable fuel text start).1
  · intro fuel text start
    rw [hoptions]
    exact (parse_eq_evaluate hm hchoosable fuel text start).2.1
  · intro fuel text start
    obtain ⟨-, hcalls, hlabels⟩ := parse_eq_evaluate hm hchoosable fuel text start
    rw [hcalls]
    exact hlabels
  · intro fuel text start f
    rw [(parse_eq_evaluate hm hchoosable fuel text start).1]
    exact faultless_evaluate g h options fuel text start f

/-- What a built matcher does is what the grammar of the text means without its proxies. -/
theorem buildMatcher_adequate {text : String} {h : Actions} {options : Options} {m : Matcher}
    (hm : buildMatcher text h options = .ok m) :
    ∃ g, checkedGrammar text = .ok g ∧ m.options = options ∧ m.Adequate g.removeProxies.1 h := by
  obtain ⟨g, hg, hmatcher⟩ := buildMatcher_eq_ok_iff_matcher.mp hm
  refine ⟨g, hg, options_of_buildMatcher hm, ?_⟩
  have hparse := (checkedGrammar_eq_ok_iff.mp hg).1
  exact Grammar.adequate_of_matcher hmatcher
    (Grammar.wellFormed_of_parse hparse).choosable_removeProxies

theorem buildMatcher_adequate_small : ∃ m, buildMatcher smallText .passthrough {} = .ok m ∧
    ∃ g, checkedGrammar smallText = .ok g ∧ m.options = {} ∧
      m.Adequate g.removeProxies.1 .passthrough := by
  obtain ⟨m, hm⟩ := small_builds {}
  exact ⟨m, hm, buildMatcher_adequate hm⟩

end Packrat
