import Mathlib
import Packrat.Matcher

/-!
# Matchers built from grammar text

Compilation and binding are a chain of steps. `buildMatcher_eq_ok_iff` says when the chain succeeds
and what the matcher is then. Of the options, only the source of the emitted parser and the options
that the matcher keeps depend on them, so `buildMatcher_options` finds the same matcher under any
others.
-/

namespace Packrat

/-! ### Chains of steps that may fail -/

section

variable {ε ε' α β : Type}

theorem bind_eq_ok_iff {x : Except ε α} {f : α → Except ε β} {b : β} :
    (x >>= f) = .ok b ↔ ∃ a, x = .ok a ∧ f a = .ok b := by
  cases x with
  | error e =>
    constructor
    · intro h
      nomatch h
    · rintro ⟨_, h, -⟩
      nomatch h
  | ok a =>
    constructor
    · intro h
      exact ⟨a, rfl, h⟩
    · rintro ⟨_, ha, h⟩
      obtain rfl := Except.ok.inj ha
      exact h

theorem mapError_eq_ok_iff {x : Except ε α} {f : ε → ε'} {a : α} :
    x.mapError f = .ok a ↔ x = .ok a := by
  cases x <;> simp [Except.mapError]

end

/-! ### Compiling and binding -/

theorem checkedGrammar_eq_ok_iff {text : String} {g : Grammar} :
    checkedGrammar text = .ok g ↔
      Grammar.parse text = .ok g ∧ g.checkReferences = .ok () ∧ g.checkLeftRecursion = .ok () := by
  simp only [checkedGrammar, bind_eq_ok_iff]
  constructor
  · rintro ⟨g', hparse, _, href, _, hleft, heq⟩
    obtain rfl := Except.ok.inj heq
    exact ⟨hparse, href, hleft⟩
  · rintro ⟨hparse, href, hleft⟩
    exact ⟨g, hparse, (), href, (), hleft, rfl⟩

theorem Grammar.compile_eq_ok_iff {g : Grammar} {options : Options} {c : Compiled} :
    g.compile options = .ok c ↔ ∃ program, g.removeProxies.1.assignSlots.lower = .ok program ∧
      c = ⟨g.removeProxies.1.assignSlots, program, program.source options⟩ := by
  simp only [Grammar.compile, bind_eq_ok_iff]
  constructor
  · rintro ⟨program, hp, heq⟩
    exact ⟨program, hp, (Except.ok.inj heq).symm⟩
  · rintro ⟨program, hp, rfl⟩
    exact ⟨program, hp, rfl⟩

/-- A compiled grammar is a checked one without its proxies, with its slots and its program. -/
theorem compile_eq_ok_iff {text : String} {options : Options} {c : Compiled} :
    compile text options = .ok c ↔ ∃ g program, checkedGrammar text = .ok g ∧
      g.removeProxies.1.assignSlots.lower = .ok program ∧
        c = ⟨g.removeProxies.1.assignSlots, program, program.source options⟩ := by
  simp only [compile, bind_eq_ok_iff, mapError_eq_ok_iff, Grammar.compile_eq_ok_iff]
  constructor
  · rintro ⟨g, hg, program, hp, rfl⟩
    exact ⟨g, program, hg, hp, rfl⟩
  · rintro ⟨g, program, hg, hp, rfl⟩
    exact ⟨g, hg, program, hp, rfl⟩

/-- The matcher of a program and the functions for its code sites. -/
theorem bind_eq_ok {c : Compiled} {h : Actions} {options : Options} {m : Matcher} :
    Matcher.bind c h options = .ok m ↔ ∃ bindings : List Binding,
      c.program.code.toList.mapM (Matcher.bindSite h) = .ok bindings ∧
        m = ⟨c.program, bindings.toArray, options, c.source⟩ := by
  simp only [Matcher.bind, bind_eq_ok_iff]
  constructor
  · rintro ⟨bindings, hb, heq⟩
    exact ⟨bindings, hb, (Except.ok.inj heq).symm⟩
  · rintro ⟨bindings, hb, rfl⟩
    exact ⟨bindings, hb, rfl⟩

/-- A matcher is the program of a checked grammar without its proxies, with the functions that the
host offers for its code. -/
theorem buildMatcher_eq_ok_iff {text : String} {h : Actions} {options : Options} {m : Matcher} :
    buildMatcher text h options = .ok m ↔ ∃ g program, ∃ bindings : List Binding,
      checkedGrammar text = .ok g ∧ g.removeProxies.1.assignSlots.lower = .ok program ∧
        program.code.toList.mapM (Matcher.bindSite h) = .ok bindings ∧
          m = ⟨program, bindings.toArray, options, program.source options⟩ := by
  unfold buildMatcher
  constructor
  · intro hm
    cases hc : compile text options with
    | error e =>
      rw [hc] at hm
      cases e <;> nomatch hm
    | ok c =>
      obtain ⟨g, program, hg, hp, rfl⟩ := compile_eq_ok_iff.mp hc
      rw [hc] at hm
      obtain ⟨bindings, hb, rfl⟩ := bind_eq_ok.mp (mapError_eq_ok_iff.mp hm)
      exact ⟨g, program, bindings, hg, hp, hb, rfl⟩
  · rintro ⟨g, program, bindings, hg, hp, hb, rfl⟩
    rw [compile_eq_ok_iff.mpr ⟨g, program, hg, hp, rfl⟩]
    exact mapError_eq_ok_iff.mpr (bind_eq_ok.mpr ⟨bindings, hb, rfl⟩)

/-- Other options give a matcher for the same program with the same functions. -/
theorem buildMatcher_options {text : String} {h : Actions} {options : Options} {m : Matcher}
    (hm : buildMatcher text h options = .ok m) (options' : Options) :
    buildMatcher text h options' =
      .ok { m with options := options', source := m.program.source options' } := by
  obtain ⟨g, program, bindings, hg, hp, hb, rfl⟩ := buildMatcher_eq_ok_iff.mp hm
  exact buildMatcher_eq_ok_iff.mpr ⟨g, program, bindings, hg, hp, hb, rfl⟩

theorem options_of_buildMatcher {text : String} {h : Actions} {options : Options} {m : Matcher}
    (hm : buildMatcher text h options = .ok m) : m.options = options := by
  obtain ⟨g, program, bindings, -, -, -, rfl⟩ := buildMatcher_eq_ok_iff.mp hm
  rfl

/-! ### Grammars without their texts -/

namespace Grammar

variable {g : Grammar} {h : Actions} {options : Options} {m : Matcher} {program : Program}

/-- The matcher of a grammar as it stands, with all its rules. -/
def matcher (g : Grammar) (h : Actions) (options : Options) : Except BuildFailure Matcher :=
  match g.assignSlots.lower with
  | .error f => .error (.fault f)
  | .ok program =>
    (Matcher.bind ⟨g.assignSlots, program, program.source options⟩ h options).mapError .build

theorem matcher_of_lower (hp : g.assignSlots.lower = .ok program) (h : Actions)
    (options : Options) : g.matcher h options =
      ((program.code.toList.mapM (Matcher.bindSite h)).map fun bindings =>
        ⟨program, bindings.toArray, options, program.source options⟩).mapError .build := by
  unfold matcher
  rw [hp]
  change Except.mapError BuildFailure.build
    (program.code.toList.mapM (Matcher.bindSite h) >>= _) = _
  cases program.code.toList.mapM (Matcher.bindSite h) <;> rfl

theorem matcher_eq_ok_iff : g.matcher h options = .ok m ↔ ∃ program, ∃ bindings : List Binding,
    g.assignSlots.lower = .ok program ∧
      program.code.toList.mapM (Matcher.bindSite h) = .ok bindings ∧
        m = ⟨program, bindings.toArray, options, program.source options⟩ := by
  constructor
  · intro hm
    cases hp : g.assignSlots.lower with
    | error f =>
      rw [matcher, hp] at hm
      nomatch hm
    | ok program =>
      rw [matcher_of_lower hp, mapError_eq_ok_iff] at hm
      cases hb : program.code.toList.mapM (Matcher.bindSite h) with
      | error e =>
        rw [hb] at hm
        nomatch hm
      | ok bindings =>
        rw [hb] at hm
        exact ⟨program, bindings, rfl, hb, (Except.ok.inj hm).symm⟩
  · rintro ⟨program, bindings, hp, hb, rfl⟩
    rw [matcher_of_lower hp, hb]
    rfl

/-- A compiled grammar is bound to the matcher of the grammar without its proxies. -/
theorem bind_eq_ok_iff_matcher {c : Compiled} (hc : g.compile options = .ok c) :
    Matcher.bind c h options = .ok m ↔ g.removeProxies.1.matcher h options = .ok m := by
  obtain ⟨program, hp, rfl⟩ := compile_eq_ok_iff.mp hc
  rw [matcher, hp]
  exact mapError_eq_ok_iff.symm

/-- The parts of a matcher. -/
theorem parts_of_matcher (hm : g.matcher h options = .ok m) :
    g.assignSlots.lower = .ok m.program ∧
      m.program.code.toList.mapM (Matcher.bindSite h) = .ok m.bindings.toList ∧
        m.options = options := by
  obtain ⟨program, bindings, hp, hb, rfl⟩ := matcher_eq_ok_iff.mp hm
  exact ⟨hp, hb, rfl⟩

end Grammar

/-- A matcher for a text is the one of its grammar without the proxies. -/
theorem buildMatcher_eq_ok_iff_matcher {text : String} {h : Actions} {options : Options}
    {m : Matcher} : buildMatcher text h options = .ok m ↔
      ∃ g, checkedGrammar text = .ok g ∧ g.removeProxies.1.matcher h options = .ok m := by
  simp only [buildMatcher_eq_ok_iff, Grammar.matcher_eq_ok_iff]
  constructor
  · rintro ⟨g, program, bindings, hg, hp, hb, rfl⟩
    exact ⟨g, hg, program, bindings, hp, hb, rfl⟩
  · rintro ⟨g, hg, program, bindings, hp, hb, rfl⟩
    exact ⟨g, program, bindings, hg, hp, hb, rfl⟩

theorem toOption_eq_some_iff {ε α : Type} {x : Except ε α} {a : α} :
    x.toOption = some a ↔ x = .ok a := by
  cases x <;> simp [Except.toOption]

/-- What was found by evaluation for the grammar of a text. -/
theorem exists_checkedGrammar {text : String} {α : Type} {f : Grammar → α} {a : α}
    (h : (checkedGrammar text).toOption.map f = some a) :
    ∃ g, checkedGrammar text = .ok g ∧ f g = a := by
  obtain ⟨g, hg, ha⟩ := Option.map_eq_some_iff.mp h
  exact ⟨g, toOption_eq_some_iff.mp hg, ha⟩

/-- A program that was found by evaluation is the one of its text. -/
theorem lowers_of_program {text : String} {program : Program}
    (hp : ((checkedGrammar text).toOption.bind fun g =>
      g.removeProxies.1.assignSlots.lower.toOption) = some program) :
    ∃ g, checkedGrammar text = .ok g ∧ g.removeProxies.1.assignSlots.lower = .ok program := by
  obtain ⟨g, hg, hlower⟩ := Option.bind_eq_some_iff.mp hp
  exact ⟨g, toOption_eq_some_iff.mp hg, toOption_eq_some_iff.mp hlower⟩

/-- A matcher for a program that was found by evaluation. -/
theorem buildMatcher_of_program {text : String} {program : Program} {h : Actions}
    {bindings : List Binding}
    (hp : ((checkedGrammar text).toOption.bind fun g =>
      g.removeProxies.1.assignSlots.lower.toOption) = some program)
    (hbind : program.code.toList.mapM (Matcher.bindSite h) = .ok bindings) (options : Options) :
    ∃ source, buildMatcher text h options = .ok ⟨program, bindings.toArray, options, source⟩ := by
  obtain ⟨g, hg, hlower⟩ := lowers_of_program hp
  exact ⟨_, buildMatcher_eq_ok_iff.mpr ⟨g, program, bindings, hg, hlower, hbind, rfl⟩⟩

/-! ### A small grammar

Its text is read, checked and lowered by evaluation; the theorems about built matchers are tried on
it. -/

/-- A label under a code block, and a proxy in front of its target. -/
def smallText : String := "s=a:t\x7ba\x7d;t=u;u=."

def smallProgram : Program where
  initializer := none
  rules := #[⟨"s", 2, .action 0 1 0 [0] (.call 0 1)⟩, ⟨"u", 1, .any 0⟩]
  start := 0
  code := #[⟨.action, "a", ["a"]⟩]

theorem small_program : ((checkedGrammar smallText).toOption.bind fun g =>
    g.removeProxies.1.assignSlots.lower.toOption) = some smallProgram := by
  have hparse : Grammar.parse smallText = .ok ⟨none, [
      ⟨⟨0, 9⟩, "s", .action ⟨⟨2, 8⟩, none, none⟩ "a" [] (.labeled ⟨⟨2, 5⟩, none, none⟩ "a"
        (.ruleRef ⟨⟨4, 5⟩, none, none⟩ "t")), 0⟩,
      ⟨⟨9, 13⟩, "t", .ruleRef ⟨⟨11, 12⟩, none, none⟩ "u", 0⟩,
      ⟨⟨13, 16⟩, "u", .any ⟨⟨15, 16⟩, none, none⟩, 0⟩], "s"⟩ := by
    decide +kernel
  rw [checkedGrammar, hparse]
  cbv

theorem small_lowers : ∃ g program, checkedGrammar smallText = .ok g ∧
    g.removeProxies.1.assignSlots.lower = .ok program ∧
      program.code = #[⟨.action, "a", ["a"]⟩] := by
  obtain ⟨g, hg, hlower⟩ := lowers_of_program small_program
  exact ⟨g, _, hg, hlower, rfl⟩

/-- The code block hands on what was matched. -/
def smallMatcher (options : Options) (source : String) : Matcher :=
  ⟨smallProgram, #[.action ⟨.builtIn, fun cx => .ok cx.matched⟩], options, source⟩

theorem small_matcher (options : Options) :
    ∃ source, buildMatcher smallText .passthrough options = .ok (smallMatcher options source) :=
  buildMatcher_of_program small_program rfl options

theorem small_builds (options : Options) :
    ∃ m, buildMatcher smallText .passthrough options = .ok m := by
  obtain ⟨source, hm⟩ := small_matcher options
  exact ⟨_, hm⟩

end Packrat
