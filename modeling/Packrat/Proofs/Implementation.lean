import Packrat.Proofs.Fitting

/-!
# Emitted modules do what matchers do

Each function of an emitted module carries out its rule, by induction on the fuel: its statements do
what the body does as long as the functions that they call do what the rules do. Around the body,
the function looks a remembered outcome up and stores a new one, where the options ask for it; a
parser without a memory does neither, and a matcher without one does both in vain.

The function that a host calls picks the function of a rule by the rule's name, and comes to the
verdict of the parse.

## Main results

* `runFunction_eq`: the function of a rule does what the call of the rule does
* `compile_implements`: an emitted module implements the matcher of its program
-/

namespace Packrat.Emit

open Exec Run

/-! ### The functions of rules -/

section

variable {names : List String} {function : String} {i : Nat}

/-- No two rules have the same function, so a name leads back to its rule. -/
theorem findIdx?_ruleFunctions (h : (ruleFunctions names)[i]? = some function) :
    (ruleFunctions names).findIdx? (· == function) = some i := by
  obtain ⟨hlt, rfl⟩ := List.getElem?_eq_some_iff.mp h
  have hnodup : (ruleFunctions names).Nodup := nodup_distinct _ _
  rw [List.findIdx?_eq_some_iff_getElem]
  refine ⟨hlt, by simp, ?_⟩
  intro j hj heq
  have hij := (hnodup.getElem_inj_iff).mp (beq_iff_eq.mp heq)
  omega

/-- Each rule has a function. -/
theorem length_ruleFunctions (names : List String) :
    (ruleFunctions names).length = names.length := by
  simp [ruleFunctions]

end

/-! ### Behind the body -/

section

variable {e : Setting} {count : Nat} {m : Matcher} {call : Nat → Run (Option Value)}
  {r : RuleProgram} {i : Nat} {begun : Cursor} {locals : Locals}

/-- The body of a rule leaves its outcome in a variable. -/
theorem takeResult_carries (hcarried : Carried e count m call r.body) :
    Carries e.options count (m.ruleBody call e.fuel r)
      (execAll e ((statements e.functions r.body 1).1 ++ [.takeResult r.body.result])) locals
      fun result flow l => flow = .next ∧ ∃ new, l = (.result, .outcome result) :: new ++ locals ∧
        Variable.start ∉ new.map Prod.fst := by
  refine (hcarried 1 locals).append fun _ l hl => ?_
  obtain ⟨new, rfl, hnew⟩ := hl
  rw [execAll_singleton, ← bind_pure (take r.body.result)]
  refine .use_bind (plain_take r.body.result) fun result _ => ?_
  refine .right (declare_apply .result (.outcome result) · _) (.pure ⟨rfl, new, rfl, ?_⟩)
  intro hmem
  rcases hnew _ hmem with h | ⟨k, -, h⟩
  · nomatch h
  · nomatch h

/-- The outcome in a variable is stored where results are remembered, and returned. -/
theorem giveResult_carries {result : Option Value}
    (hresult : locals.lookup .result = some (.outcome result))
    (hstart : e.options.cache = true → locals.lookup .start = some (.cursor begun)) :
    Carries e.options count (change (·.remember i begun result) >>= fun _ => pure result)
      (execAll e ((if e.options.cache then [.store i] else []) ++ [.giveResult])) locals
      fun result flow _ => flow = .give result := by
  have hgive : Carries e.options count (pure result) (execAll e [.giveResult]) locals
      fun result flow _ => flow = .give result := by
    rw [execAll_singleton]
    exact .right (read_apply hresult rfl) (.pure rfl)
  cases hcache : e.options.cache with
  | false =>
    refine .left (A := fun _ => True) (fun fr hfr => ?_) fun _ _ => hgive
    refine ⟨(), ?_, trivial⟩
    rw [change_apply, State.remember_of_forgetful (hfr.state.forgetful hcache)]
  | true =>
    have hstore : Performs e count (change (·.remember i begun result)) (.store i) locals
        fun _ l => l = locals := by
      refine .right (read_apply (hstart hcache) rfl) (.right (read_apply hresult rfl) ?_)
      intro fr hfr
      exact .ok { fr with state := fr.state.remember i begun result } locals ⟨rfl, rfl⟩
        (hfr.withState (hfr.state.remember i begun result))
    refine hstore.cons ?_
    rintro _ _ rfl
    exact hgive

/-- From the registers on, a function does what the body of its rule does. -/
theorem rest_carries (hcarried : Carried e count m call r.body)
    (hstart : e.options.cache = true → locals.lookup .start = some (.cursor begun)) :
    Carries e.options count
      (m.ruleBody call e.fuel r >>= fun result =>
        change (·.remember i begun result) >>= fun _ => pure result)
      (execAll e ((statements e.functions r.body 1).1 ++ Stmt.takeResult r.body.result ::
        ((if e.options.cache then [.store i] else []) ++ [.giveResult]))) locals
      fun result flow _ => flow = .give result := by
  rw [List.append_cons]
  refine Does.append (takeResult_carries hcarried) ?_
  rintro result _ ⟨new, rfl, hnew⟩
  refine giveResult_carries List.lookup_cons_self fun hcache => ?_
  have hne : (Variable.start == .result) = false := beq_eq_false_iff_ne.mpr nofun
  rw [List.cons_append, List.lookup_cons, hne, lookup_append_of_notMem hnew]
  exact hstart hcache

end

/-! ### Whole functions -/

/-- The ending of a function that carried out a run to its result. -/
theorem returned_of_agrees {options : Options} {count : Nat} {x : Ending (Option Value)}
    {y : EStateM.Result Abort Machine Flow}
    (h : Agrees options count (fun result flow _ => flow = .give result) x y) :
    returned y = called x := by
  cases h with
  | ok fr l hflow hfr =>
    subst hflow
    rfl
  | error hstate => exact congrArg (EStateM.Result.error _) hstate

theorem suits_of_agrees {options : Options} {count : Nat} {P : Option Value → Flow → Locals → Prop}
    {x : Ending (Option Value)} {y : EStateM.Result Abort Machine Flow}
    (h : Agrees options count P x y) {result : Option Value} {fr : Frame} (hx : x = .ok result fr) :
    fr.state.Suits options := by
  cases h with
  | ok fr' l hP hfr' =>
    obtain ⟨-, rfl⟩ := EStateM.Result.ok.inj hx
    exact hfr'.state
  | error hstate => nomatch hx

section

variable {m : Matcher} {code : CodeFunctions} {s : State} {r : RuleProgram} {fuel i : Nat}

/-- The run of a rule on registers of its own, and what is stored of it. -/
theorem call_eq_after (hmiss : s.lookUp i = none) (hr : m.program.rules[i]? = some r)
    (registers : Registers Cursor) : m.call (fuel + 1) i ⟨s, registers⟩ =
      Ending.after (fun _ after => ⟨after.state, registers⟩)
        ((m.ruleBody (m.call fuel) fuel r >>= fun result =>
          change (·.remember i s.cursor result) >>= fun _ => pure result)
            ⟨s.entering i, .blank r.registers⟩) := by
  rw [Matcher.call_of_miss hmiss hr, bind_apply]
  cases m.ruleBody (m.call fuel) fuel r ⟨s.entering i, .blank r.registers⟩ <;> rfl

theorem called_after (x : Ending (Option Value)) (registers : Registers Cursor) :
    called (x.after fun _ after => ⟨after.state, registers⟩) = called x := by
  cases x <;> rfl

/-- A function begins with what it remembers. -/
theorem exec_recall (e : Setting) (i : Nat) (registers : Option (Registers Cursor))
    (locals : Locals) : exec e (.recall i) ⟨s.bare, registers, locals⟩ =
      match s.lookUp i with
      | some (result, t) => .ok (.give result) ⟨t.bare, registers, locals⟩
      | none => .ok .next ⟨s.bare, registers, locals⟩ := by
  show (match s.bare.lookUp i with
    | some (result, state) => (do
      set (⟨state, registers, locals⟩ : Machine)
      return .give result : Exec Flow)
    | none => pure .next) ⟨s.bare, registers, locals⟩ = _
  rw [State.lookUp_bare]
  cases s.lookUp i <;> rfl

/-- A function returns a remembered outcome at once. -/
theorem execAll_functionBody_of_hit {e : Setting} {result : Option Value} {t : State}
    (hcache : e.options.cache = true) (hhit : s.lookUp i = some (result, t)) :
    execAll e (functionBody e.options e.functions i r) ⟨s.bare, none, []⟩ =
      .ok (.give result) ⟨t.bare, none, []⟩ := by
  have hbody : ∃ ss, functionBody e.options e.functions i r = .recall i :: ss := by
    rw [functionBody, if_pos hcache]
    exact ⟨_, rfl⟩
  obtain ⟨ss, hbody⟩ := hbody
  rw [hbody, execAll_cons, exec_bind_apply, exec_recall, hhit]
  rfl

/-- Without one, it goes on with registers of its own. -/
theorem execAll_functionBody_of_miss {e : Setting} (hmiss : s.lookUp i = none) :
    execAll e (functionBody e.options e.functions i r) ⟨s.bare, none, []⟩ =
      execAll e ((statements e.functions r.body 1).1 ++ Stmt.takeResult r.body.result ::
          ((if e.options.cache then [.store i] else []) ++ [.giveResult]))
        (machine ⟨s.entering i, .blank r.registers⟩
          (if e.options.cache then [(.start, .cursor s.cursor)] else [])) := by
  cases hcache : e.options.cache with
  | false =>
    have hbody : functionBody e.options e.functions i r = .makeRegisters r.registers ::
        ((statements e.functions r.body 1).1 ++
          Stmt.takeResult r.body.result :: ([] ++ [.giveResult])) := by
      simp [functionBody, hcache]
    rw [hbody]
    rfl
  | true =>
    have hbody : functionBody e.options e.functions i r =
        .recall i :: .beginHere :: .makeRegisters r.registers ::
          ((statements e.functions r.body 1).1 ++ Stmt.takeResult r.body.result ::
            ([.store i] ++ [.giveResult])) := by
      simp [functionBody, hcache]
    rw [hbody, execAll_cons, exec_bind_apply, exec_recall, hmiss]
    rfl

end

/-- What the functions of the module of a matcher's program are executed in. -/
def settingOf (m : Matcher) (code : CodeFunctions) (fuel : Nat) : Setting :=
  ⟨m.options, m.program, code, runFunction m.options m.program code fuel, fuel⟩

section

variable {m : Matcher} {code : CodeFunctions} {function : String} {i : Nat}

/-- A function is run as long as there is fuel. -/
theorem runFunction_succ {r : RuleProgram}
    (hfunction : (ruleFunctions m.program.ruleNames)[i]? = some function)
    (hr : m.program.rules[i]? = some r) (fuel : Nat) (s : State) :
    runFunction m.options m.program code (fuel + 1) function s =
      returned (execAll (settingOf m code fuel)
        (functionBody (settingOf m code fuel).options (settingOf m code fuel).functions i r)
          ⟨s, none, []⟩) := by
  rw [runFunction, findIdx?_ruleFunctions hfunction]
  dsimp only
  rw [hr]
  rfl

/-- The function of a rule does what the call of the rule does: it gives the same outcome, at the
same place, with the same failures, and leaves the caller's registers alone. -/
theorem runFunction_eq (hcode : Interprets m code) (hfits : FitsRules m.program) (fuel : Nat)
    (hfunction : (ruleFunctions m.program.ruleNames)[i]? = some function) {s : State}
    (hs : s.Suits m.options) (registers : Registers Cursor) :
    runFunction m.options m.program code fuel function s.bare =
      called (m.call fuel i ⟨s, registers⟩) ∧
        ∀ result fr, m.call fuel i ⟨s, registers⟩ = .ok result fr →
          fr.state.Suits m.options ∧ fr.registers = registers := by
  induction fuel generalizing i function s registers with
  | zero => exact ⟨rfl, by rintro _ _ ⟨⟩⟩
  | succ fuel ih =>
    obtain ⟨r, hr⟩ : ∃ r, m.program.rules[i]? = some r := by
      have hlt := (List.getElem?_eq_some_iff.mp hfunction).1
      rw [length_ruleFunctions, Program.ruleNames, List.length_map, Array.length_toList] at hlt
      exact ⟨_, Array.getElem?_eq_getElem hlt⟩
    rw [runFunction_succ hfunction hr]
    cases hlook : s.lookUp i with
    | some hit =>
      obtain ⟨result, t⟩ := hit
      obtain ⟨memory, entry, hmemory, hentry, rfl, rfl⟩ := State.lookUp_eq_some_iff.mp hlook
      have hcache : m.options.cache = true := by
        by_contra hoff
        rw [hs.forgetful (Bool.eq_false_of_not_eq_true hoff)] at hmemory
        cases hmemory
      have hafter := hs.memory memory hmemory _ entry hentry
      rw [Matcher.call_of_hit hlook, execAll_functionBody_of_hit hcache hlook]
      refine ⟨rfl, ?_⟩
      rintro _ _ ⟨⟩
      exact ⟨hs.congr hafter rfl, rfl⟩
    | none =>
      have hcorresponds : Corresponds (settingOf m code fuel) m (m.call fuel) := by
        refine ⟨rfl, hcode, ?_⟩
        intro rule name hname fr hfr
        have hfunction : (ruleFunctions m.program.ruleNames)[rule]? = some name := by
          rw [← List.getElem?_toArray]
          exact hname
        exact ih hfunction hfr fr.registers
      have hcarried := statements_carry hcorresponds r.body (hfits i r hr)
      have hframe : Frame.Suits m.options r.registers ⟨s.entering i, .blank r.registers⟩ := by
        refine ⟨hs.congr hs.cursor rfl, Registers.size_blank _, ?_⟩
        intro slot c hc
        exact absurd hc (Registers.get?_blank_ne_place r.registers slot c)
      have hstart : m.options.cache = true →
          (if m.options.cache then [(Variable.start, Content.cursor s.cursor)] else []).lookup
            .start = some (.cursor s.cursor) := by
        intro hcache
        rw [if_pos hcache]
        rfl
      have hagrees := rest_carries (i := i) hcarried hstart _ hframe
      rw [call_eq_after hlook hr, called_after, execAll_functionBody_of_miss hlook]
      refine ⟨returned_of_agrees hagrees, ?_⟩
      intro result fr heq
      obtain ⟨after, hafter, rfl⟩ := Ending.after_eq_ok_iff.mp heq
      have hsuits : after.state.Suits m.options := suits_of_agrees hagrees hafter
      exact ⟨hsuits, rfl⟩

end

/-! ### The function that a host calls -/

theorem lookup_entryPoints (seen : List String) (pairs : List (String × String)) (name : String) :
    (entryPoints seen pairs).lookup name = if name ∈ seen then none else pairs.lookup name := by
  induction pairs generalizing seen with
  | nil => simp [entryPoints]
  | cons pair pairs ih =>
    obtain ⟨other, function⟩ := pair
    by_cases heq : name = other
    · subst heq
      by_cases hseen : name ∈ seen <;> simp [entryPoints, hseen, ih]
    · have hne : (name == other) = false := beq_eq_false_iff_ne.mpr heq
      by_cases hseen : other ∈ seen <;> simp [entryPoints, hseen, ih, List.lookup_cons, hne, heq]

theorem lookup_zip (names functions : List String) (name : String)
    (hlength : functions.length = names.length) :
    (names.zip functions).lookup name = (names.findIdx? (· == name)).bind (functions[·]?) := by
  induction names generalizing functions with
  | nil => rfl
  | cons first names ih =>
    cases functions with
    | nil => nomatch hlength
    | cons function functions =>
      have hrest := ih functions (Nat.succ.inj hlength)
      rw [List.zip_cons_cons, List.lookup_cons, List.findIdx?_cons]
      by_cases heq : name = first
      · simp [heq]
      · have hne : (name == first) = false := beq_eq_false_iff_ne.mpr heq
        have hne' : (first == name) = false := beq_eq_false_iff_ne.mpr (Ne.symm heq)
        rw [hne, hne', hrest]
        simp [Option.bind_map]

/-- A rule is entered through the function of its first rule of that name. -/
theorem lookup_entryPoints_ruleFunctions (program : Program) (name : String) :
    (entryPoints [] (program.ruleNames.zip (ruleFunctions program.ruleNames))).lookup name =
      (program.ruleIndex? name).bind ((ruleFunctions program.ruleNames)[·]?) := by
  rw [lookup_entryPoints, if_neg List.not_mem_nil, lookup_zip _ _ _ (length_ruleFunctions _),
    Program.ruleIndex?_eq]

theorem verdict?_called (x : Ending (Option Value)) :
    verdict? (called x) = some (Matcher.verdict x) := by
  cases x with
  | ok result fr => cases result <;> rfl
  | error h fr => cases h <;> rfl

section

variable {m : Matcher} {code : CodeFunctions}

/-- With any fuel, the module comes to the verdict of the parse. -/
theorem runModule_eq (hcode : Interprets m code) (hfits : FitsRules m.program)
    (hstart : m.program.ruleIndex? m.program.startName = some m.program.start) (fuel : Nat)
    (text : String) (start : Option String) :
    runModule m.options m.program code fuel text start = some (m.parse fuel text start).result := by
  have hindex : m.startIndex start = (m.program.ruleIndex? (start.getD m.program.startName)).elim
      (.error (.unknownStart (start.getD m.program.startName))) .ok := by
    cases start with
    | none => simp [Matcher.startIndex, hstart]
    | some name => rw [Matcher.startIndex, Option.getD_some]; split <;> simp [*]
  rw [runModule, Matcher.parse, hindex, lookup_entryPoints_ruleFunctions]
  cases hi : m.program.ruleIndex? (start.getD m.program.startName) with
  | none => rfl
  | some i =>
    have hlt : i < (ruleFunctions m.program.ruleNames).length := by
      rw [length_ruleFunctions]
      rw [Program.ruleIndex?_eq] at hi
      exact (List.findIdx?_eq_some_iff_findIdx_eq.mp hi).1
    have hfunction := List.getElem?_eq_getElem hlt
    obtain ⟨hrun, -⟩ := runFunction_eq hcode hfits fuel hfunction
      (State.suits_start m.options text.toList) (.blank 0)
    dsimp only [Option.bind_some]
    rw [hfunction]
    show verdict? (runFunction m.options m.program code fuel _
      (State.start m.options.trackLines m.options.cache text.toList).bare) = _
    rw [hrun, verdict?_called]
    rfl

end

/-! ### Implementations -/

/-- The emitted module of a matcher's program, with these code functions, does what the matcher
does. -/
structure Implements (m : Matcher) (code : CodeFunctions) : Prop where
  /-- The module is a program, and with the same fuel it comes to the verdict of the parse. -/
  parse (fuel : Nat) (text : String) (start : Option String) :
    runModule m.options m.program code fuel text start = some (m.parse fuel text start).result
  /-- It ends when the parse does, and with the same result. -/
  gives (text : String) (start : Option String) (r : Except Matcher.Failure Value) :
    m.Gives text start r ↔ r ≠ .error .outOfFuel ∧
      ∃ fuel, runModule m.options m.program code fuel text start = some r
  /-- The function of a rule leaves what the call of the rule leaves: the outcome or the error, the
  place, the failures and the memory. -/
  call (i : Nat) (function : String) : (ruleFunctions m.program.ruleNames)[i]? = some function →
    ∀ (fuel : Nat) (s : State) (registers : Registers Cursor), s.Suits m.options →
      runFunction m.options m.program code fuel function s.bare =
        called (m.call fuel i ⟨s, registers⟩)
  /-- A parse begins with a state that suits the options, and calls keep it so. -/
  begins (text : List Char) :
    (State.start m.options.trackLines m.options.cache text).Suits m.options
  keeps (i fuel : Nat) (s : State) (registers : Registers Cursor) (result : Option Value)
    (fr : Frame) : i < m.program.rules.size → s.Suits m.options →
      m.call fuel i ⟨s, registers⟩ = .ok result fr → fr.state.Suits m.options
  /-- Code functions are called with as many arguments as they have parameters. -/
  arity (i : Nat) (r : RuleProgram) : m.program.rules[i]? = some r →
    ∀ call ∈ codeCallsAll (functionBody m.options (ruleFunctions m.program.ruleNames).toArray i r),
      ∃ site, m.program.code[call.2.site]? = some site ∧ site.kind = call.1 ∧ ∀ place,
        (argumentList m.options place call.2.slots).length =
          (parameterList m.options site.labels).length

section

variable {m : Matcher} {code : CodeFunctions}

theorem implements_of_fits (hcode : Interprets m code) (hfits : FitsRules m.program)
    (hstart : m.program.ruleIndex? m.program.startName = some m.program.start) :
    Implements m code := by
  refine ⟨runModule_eq hcode hfits hstart, ?_, ?_, State.suits_start m.options, ?_, ?_⟩
  · intro text start r
    simp only [Matcher.Gives, runModule_eq hcode hfits hstart, Option.some.injEq]
  · intro i function hfunction fuel s registers hs
    exact (runFunction_eq hcode hfits fuel hfunction hs registers).1
  · intro i fuel s registers result fr hi hs heq
    obtain ⟨function, hfunction⟩ :
        ∃ function, (ruleFunctions m.program.ruleNames)[i]? = some function := by
      rw [← Array.length_toList, ← List.length_map, ← length_ruleFunctions] at hi
      exact ⟨_, List.getElem?_eq_getElem hi⟩
    exact ((runFunction_eq hcode hfits fuel hfunction hs registers).2 result fr heq).1
  · intro i r hr call hcall
    obtain ⟨site, hsite, hkind, hlength⟩ :=
      functionBody_accepted (hfits i r hr) m.options i call hcall
    exact ⟨site, hsite, hkind, length_argumentList hlength⟩

end

/-- A start rule is the first rule of its name. -/
theorem ruleIndex?_startName {g : Grammar} {program : Program} (hlower : g.lower = .ok program) :
    program.ruleIndex? program.startName = some program.start := by
  have hstart : program.ruleIndex? g.start = some program.start := by
    rw [Grammar.ruleIndex?_of_lower hlower]
    exact Grammar.start_of_lower hlower
  obtain ⟨hlt, hname, -⟩ := Array.findIdx?_eq_some_iff_getElem.mp hstart
  have hstartName : program.startName = g.start := by
    rw [Program.startName, Array.getElem?_eq_getElem hlt]
    exact beq_iff_eq.mp hname
  rw [hstartName, hstart]

/-- The module that is emitted for a compiled grammar does what a matcher for its program does, if
the code functions do the same in both. -/
theorem compile_implements {text : String} {options : Options} {c : Compiled}
    (hc : compile text options = .ok c) {m : Matcher} (hm : m.program = c.program)
    {code : CodeFunctions} (hcode : Interprets m code) : Implements m code := by
  obtain ⟨g, program, -, hlower, rfl⟩ := compile_eq_ok_iff.mp hc
  have hprogram : m.program = program := hm
  refine implements_of_fits hcode ?_ ?_
  · rw [hprogram]
    exact Grammar.fitsRules_of_lower hlower
  · rw [hprogram]
    exact ruleIndex?_startName hlower

/-- Functions for the sites of a program that do what code functions do. -/
def CodeFunctions.bindings (code : CodeFunctions) (program : Program) : Array Binding :=
  program.code.mapIdx fun i site =>
    match site.kind with
    | .action => .action ⟨.builtIn, fun cx => code.action i (.of cx)⟩
    | .predicate => .predicate ⟨.builtIn, fun cx => code.predicate i (.of cx)⟩

/-- Whatever code functions do, there is a matcher whose functions do the same. -/
theorem interprets_bindings (code : CodeFunctions) (program : Program) (options : Options)
    (source : String) : Interprets ⟨program, code.bindings program, options, source⟩ code := by
  refine ⟨?_, ?_⟩
  · intro i site hsite hkind
    refine ⟨⟨.builtIn, fun cx => code.action i (.of cx)⟩, ?_, fun _ => rfl⟩
    simp [CodeFunctions.bindings, hsite, hkind]
  · intro i site hsite hkind
    refine ⟨⟨.builtIn, fun cx => code.predicate i (.of cx)⟩, ?_, fun _ => rfl⟩
    simp [CodeFunctions.bindings, hsite, hkind]

/-- Actions answer with their first label, and predicates agree. -/
def firstLabels : CodeFunctions :=
  ⟨fun _ arguments => .ok (arguments.labels.headD .null), fun _ _ => .ok true⟩

theorem compile_implements_small : ∃ c, compile smallText {} = .ok c ∧
    Implements ⟨c.program, firstLabels.bindings c.program, {}, c.source⟩ firstLabels := by
  obtain ⟨g, program, hg, hlower, -⟩ := small_lowers
  obtain ⟨c, hc⟩ : ∃ c, compile smallText {} = .ok c :=
    ⟨_, compile_eq_ok_iff.mpr ⟨g, program, hg, hlower, rfl⟩⟩
  exact ⟨c, hc, compile_implements hc rfl (interprets_bindings firstLabels c.program {} c.source)⟩

end Packrat.Emit
