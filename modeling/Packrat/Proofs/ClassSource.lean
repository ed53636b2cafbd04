import Packrat.Proofs.ClassReading
import Packrat.Proofs.NormalForm
import Packrat.Proofs.Productions

/-!
# The source form of a class

Every class that is read keeps its normalized form, which stands for it in messages and is meant to
be grammar text itself. As the body of a rule it is read back as that class if and only if the class
is `Readable`, and two classes that are read have the same form only if a caret that begins the one
is the sign of the other.

So there are three kinds of classes whose form is no source of theirs (`parse_raw_broken`): in
`[\01]` a digit has come to stand behind the escape of the zero character, which is no escape then;
in `[^a]`, from `[\^a]`, the first member has become the sign of an inverted class; and a character
beyond `U+FFFF` comes back as two replacement characters.

That nothing else is read takes the productions once more, now in front of a bracket: what comes out
at every level is the class that its reader has read, or no class at all.

## Main results

* `Grammar.parse_raw`: which classes are read back from their form, and which share it
-/

namespace Packrat

/-! ### Classes of a grammar -/

namespace Expr

variable {v : Vocabulary}

theorem isNormal_of_mem_children {b c : Expr} (hc : c ∈ b.children) (h : b.isNormal v = true) :
    c.isNormal v = true := by
  cases b with
  | named _ _ _ => nomatch h
  | choice _ items | sequence _ items =>
    exact (areNormal_iff v).mp (Bool.and_eq_true_iff.mp h).2 c hc
  | action _ _ _ body | labeled _ _ body | lookahead _ _ body | optional _ body
  | repeated _ _ body =>
    obtain rfl := List.mem_singleton.mp hc
    exact (Bool.and_eq_true_iff.mp h).2
  | _ => nomatch hc

theorem isNormal_of_inside {e b : Expr} (he : e.Inside b) (h : b.isNormal v = true) :
    e.isNormal v = true := by
  induction he with
  | self => exact h
  | child hc _ ih => exact ih (isNormal_of_mem_children hc h)

/-- Below the display name everything is in normal form. -/
theorem isNormal_of_inside_body {e b : Expr} (he : e.Inside b) (h : b.isNormalBody v = true)
    (hnamed : ∀ i name body, e ≠ named i name body) : e.isNormal v = true := by
  cases b with
  | named i name body =>
    cases he with
    | self => exact absurd rfl (hnamed i name body)
    | child hc he =>
      obtain rfl := List.mem_singleton.mp hc
      exact isNormal_of_inside he (Bool.and_eq_true_iff.mp h).2
  | _ => exact isNormal_of_inside he h

end Expr

/-- The class occurs in a rule of the grammar, with its normalized form. -/
def Grammar.HasClass (g : Grammar) (k : CharClass) (raw : String) : Prop :=
  ∃ r ∈ g.rules, ∃ i, (Expr.charClass i k raw).Inside r.body

/-- What is known of a class that was read. -/
theorem Grammar.HasClass.spec {g : Grammar} {k : CharClass} {raw text : String}
    (h : Grammar.parse text = .ok g) (hk : g.HasClass k raw) :
    k.parts.all (·.isOrdered) = true ∧ raw = Notation.rawClass k := by
  obtain ⟨r, hr, i, hinside⟩ := hk
  have hnormal := Grammar.isNormal_of_parse Vocabulary.covers_ordered h
  simp only [Grammar.isNormal, Bool.and_eq_true, List.all_eq_true] at hnormal
  have hrule := hnormal.2 r hr
  simp only [Rule.isNormal, Bool.and_eq_true] at hrule
  have hclass := Expr.isNormal_of_inside_body hinside hrule.1.2 (by rintro _ _ _ ⟨⟩)
  simp only [Expr.isNormal, Bool.and_eq_true, beq_iff_eq] at hclass
  exact ⟨hclass.1.2, hclass.2⟩

/-! ### In front of a bracket -/

/-- If the expression is a class, `C` holds of it. -/
def Expr.ClassOf (C : CharClass → Prop) (e : Expr) : Prop :=
  ∀ i k raw, e = .charClass i k raw → C k

namespace Notation

open Reader

variable {inner : Reader Expr} {C : CharClass → Prop} {cs rest : List Char}

theorem gives_spanned {V : Expr → Prop} {begun : Cursor} {build : Info → Expr}
    (h : ∀ i, V (build i)) : (spanned begun build).Gives cs V :=
  .after fun span _ => .pure (h ⟨span, none, none⟩)

section

variable (h : charClass.Gives ('[' :: cs) C)

include h

theorem gives_primary : (primary inner).Gives ('[' :: cs) (Expr.ClassOf C) := by
  refine .still fun begun => (rejects_reference rfl).orGives
    ((rejects_literal (forall_head (by decide))).bind.orGives ?_)
  refine .orElse ?_ (failsInPlace_charClass.thenStill fun _ => still_spanned _ _)
    ((rejects_token rfl (forall_head (by decide))).bind.orGives ?_)
  · refine h.bind fun k hk _ => gives_spanned ?_
    rintro i _ _ _ ⟨⟩
    exact hk
  · exact (rejects_token rfl (forall_head (by decide))).bind.fails.attempt.gives

theorem gives_suffixed : (suffixed inner).Gives ('[' :: cs) (Expr.ClassOf C) := by
  have hoperator : ∀ ds, suffixOperator.Gives ds fun build =>
      ∀ e i, Expr.ClassOf C (build e i) := fun ds =>
    .orElse (.after fun _ _ => .pure nofun) (failsInPlace_operator _ _)
      (.orElse (.after fun _ _ => .pure nofun) (failsInPlace_operator _ _)
        (.after fun _ _ => .pure nofun))
  refine .still fun begun => (gives_primary h).bind fun e he ds => ?_
  refine (hoperator ds).option.bind fun operator hbuild _ => ?_
  cases operator with
  | none => exact .pure he
  | some build => exact gives_spanned fun i => hbuild build rfl e i

theorem gives_labeled : (labeled inner).Gives ('[' :: cs) (Expr.ClassOf C) := by
  have hlabel : (attempt do
      let begun ← cursor
      let label ← identifier
      token ":"
      let e ← prefixed inner
      spanned begun (.labeled · label e)).Rejects ('[' :: cs) :=
    Fails.attempt (.still fun _ => (rejects_identifier (forall_head rfl)).bind.fails)
  exact hlabel.orGives ((rejects_predicateOf rfl (forall_head (by decide))).orGives
    ((rejects_predicateOf rfl (forall_head (by decide))).orGives (gives_suffixed h)))

theorem gives_sequence : (sequence inner).Gives ('[' :: cs) (Expr.ClassOf C) := by
  have hclosing : ∀ begun e ds, Expr.ClassOf C e → (closing begun e).Gives ds (Expr.ClassOf C) := by
    refine fun begun e ds he => .after fun code _ => ?_
    cases code with
    | none => exact .pure he
    | some code => exact gives_spanned fun _ => nofun
  refine .still fun begun => (gives_labeled h).many.bind fun es hes ds => ?_
  split
  · next e => exact hclosing begun e ds (hes e rfl)
  · have hsequence : (spanned begun (.sequence · es)).Gives ds (Expr.ClassOf C) :=
      gives_spanned fun _ => nofun
    exact hsequence.bind fun e he ds => hclosing begun e ds he

theorem gives_choiceWith : (choiceWith inner).Gives ('[' :: cs) (Expr.ClassOf C) := by
  refine .still fun begun => (gives_sequence h).bind fun e he _ => .after fun es _ => ?_
  cases es with
  | nil => exact .pure he
  | cons e' es => exact gives_spanned fun _ => nofun

theorem gives_choice : choice.Gives ('[' :: cs) (Expr.ClassOf C) := by
  refine .still fun begun => ?_
  cases begun.ahead.length + 1 with
  | zero => exact rejects_fail.gives
  | succ depth => exact gives_choiceWith h

end

/-! ### The class as a rule -/

/-- A rule with the class as its body makes a grammar. -/
theorem accepts_grammar_class {k : CharClass} (h : charClass.Accepts ('[' :: cs) [] (· = k)) :
    grammar.Accepts (ruleText ('[' :: cs)) [] fun g =>
      ∃ r, g.rules = [r] ∧ ∃ i, r.body = .charClass i k (rawClass k) := by
  have hchoice : choice.Accepts ('[' :: cs) [] fun e => ∃ i, e = .charClass i k (rawClass k) :=
    accepts_choice_primary (fun _ => accepts_primary_class h fun span => ⟨_, rfl⟩) rfl (by decide)
  exact accepts_grammar_single hchoice (atToken_cons rfl rfl (by decide))

theorem gives_rule (h : charClass.Gives ('[' :: cs) C) :
    rule.Gives (ruleText ('[' :: cs)) fun r => r.body.ClassOf C := by
  have hname : identifier.Accepts (spaced "a".toList) (spaced ['='] ++ '[' :: cs) (· = "a") :=
    accepts_identifier rfl (atToken_cons rfl rfl (by decide))
  have hdisplay : (option string).Accepts [] (spaced ['='] ++ '[' :: cs) (· = none) :=
    (rejects_string (forall_head (by decide))).option
  have hequals : (token "=").Accepts (spaced ['=']) ('[' :: cs) anything :=
    accepts_token rfl (atToken_cons rfl rfl (by decide))
  refine .attempt (.still fun begun => hname.thenGives ?_)
  rintro _ rfl
  refine hdisplay.thenGives ?_
  rintro _ rfl
  refine hequals.thenGives fun _ _ => (gives_choice h).bind fun e he _ => ?_
  exact .after fun _ _ => .after fun span _ => .pure he

theorem gives_grammar (h : charClass.Gives ('[' :: cs) C) :
    grammar.Gives (ruleText ('[' :: cs)) fun g => ∀ r ∈ g.rules.head?, r.body.ClassOf C := by
  have hskip : skip.Accepts [] (ruleText ('[' :: cs)) anything :=
    accepts_skip rfl (atToken_cons rfl rfl (by decide))
  have hfront : (option initializer).Accepts [] (ruleText ('[' :: cs)) (· = none) :=
    (rejects_initializer (forall_head rfl)).option
  refine .attempt (hskip.thenGives fun _ _ => hfront.thenGives ?_)
  rintro _ rfl
  refine (gives_rule h).many.bind fun rules hrules _ => ?_
  cases rules with
  | nil => exact rejects_fail.gives
  | cons first rest => exact .pure hrules

end Notation

namespace Grammar

open Notation

/-- The text is read as a single rule with the class as its body. -/
def ReadsClass (text : String) (k : CharClass) (raw : String) : Prop :=
  ∃ g r i, Grammar.parse text = .ok g ∧ g.rules = [r] ∧ r.body = .charClass i k raw

/-- A class is read back from its normalized form if and only if it is readable. -/
theorem readsClass_rawClass_iff {k : CharClass} (hordered : k.parts.all (·.isOrdered) = true) :
    ReadsClass ("a = " ++ rawClass k) k (rawClass k) ↔ k.Readable := by
  have htext : ("a = " ++ rawClass k).toList = ruleText (k.spelled Text.escapeMember) := by
    rw [CharClass.rawClass_eq, String.toList_append]
    exact congrArg ("a = ".toList ++ ·) String.toList_ofList
  constructor
  · rintro ⟨g, r, i, hparse, hrules, hbody⟩
    obtain ⟨s, hrun, -⟩ := Reader.run_eq_ok_iff.mp hparse
    let begun : ReaderState := ⟨State.start false false ("a = " ++ rawClass k).toList, none⟩
    have hclass := gives_grammar (readable_of_gives hordered) begun g s htext hrun r
    exact hclass (by rw [hrules]; rfl) i k _ hbody rfl
  · intro hreadable
    have hclass : charClass.Accepts (k.spelled Text.escapeMember ++ []) [] (· = k) :=
      accepts_rawClass hordered hreadable (accepts_skip rfl atToken_nil) nofun
    rw [List.append_nil] at hclass
    obtain ⟨g, hparse, r, hrules, i, hbody⟩ :=
      Grammar.exists_parse (htext ▸ accepts_grammar_class hclass)
    exact ⟨g, r, i, hparse, hrules, hbody⟩

/-- A class that was read is read back from its normalized form if and only if it is readable, and
no other class that was read has the same form, but for a caret that begins the one and is the sign
of the other. -/
theorem parse_raw_iff {text raw : String} {g : Grammar} {k : CharClass}
    (h : Grammar.parse text = .ok g) (hk : g.HasClass k raw) :
    (ReadsClass ("a = " ++ raw) k raw ↔ k.Readable) ∧
      ∀ text' g' k', Grammar.parse text' = .ok g' → g'.HasClass k' raw →
        k' = k ∨ (k'.inverted = true ∧ k = k'.caretForm) ∨
          (k.inverted = true ∧ k' = k.caretForm) := by
  obtain ⟨hordered, rfl⟩ := hk.spec h
  refine ⟨readsClass_rawClass_iff hordered, fun text' g' k' h' hk' => ?_⟩
  obtain ⟨-, hraw⟩ := hk'.spec h'
  exact CharClass.rawClass_eq_iff.mp hraw.symm

/-- A class with an escaped dash, a caret that does not come first and a zero character that no
digit follows. -/
def dashClass : CharClass := ⟨[.range '+' '-', .single '^', .single '\x00'], true, true⟩

/-- A rule with the class inside its body. -/
def dashGrammar : Grammar where
  initializer := none
  rules := [⟨⟨0, 22⟩, "s", .sequence ⟨⟨4, 22⟩, none, none⟩
    [.literal ⟨⟨4, 8⟩, none, none⟩ "x" false,
      .repeated ⟨⟨8, 22⟩, none, none⟩ false
        (.charClass ⟨⟨8, 21⟩, none, none⟩ dashClass "[^+-\\-^\\0]i")], 0⟩]
  start := "s"

theorem parse_raw_iff_dash : Grammar.parse "s = 'x' [^+-\\x2D^\\0]i*" = .ok dashGrammar ∧
    dashGrammar.HasClass dashClass "[^+-\\-^\\0]i" ∧
      ReadsClass "a = [^+-\\-^\\0]i" dashClass "[^+-\\-^\\0]i" := by
  have hparse : Grammar.parse "s = 'x' [^+-\\x2D^\\0]i*" = .ok dashGrammar := by decide +kernel
  have hclass : dashGrammar.HasClass dashClass "[^+-\\-^\\0]i" :=
    ⟨_, List.mem_cons_self, _, .child (List.mem_cons_of_mem _ List.mem_cons_self)
      (.child (List.mem_singleton_self _) .self)⟩
  exact ⟨hparse, hclass, (parse_raw_iff hparse hclass).1.mpr (by decide)⟩

/-- A digit behind a zero escape, a caret in first place, and a character beyond `U+FFFF`. -/
theorem parse_raw_broken :
    (ReadsClass "a = [\\x001]" ⟨[.single '\x00', .single '1'], false, false⟩ "[\\01]" ∧
      ∀ g, Grammar.parse "a = [\\01]" ≠ .ok g) ∧
    (ReadsClass "a = [\\^a]" ⟨[.single '^', .single 'a'], false, false⟩ "[^a]" ∧
      ReadsClass "a = [^a]" ⟨[.single 'a'], true, false⟩ "[^a]") ∧
    (ReadsClass "a = [😀]" ⟨[.single '😀'], false, false⟩ "[\\uD83D\\uDE00]" ∧
      ReadsClass "a = [\\uD83D\\uDE00]" ⟨[.single '\ufffd', .single '\ufffd'], false, false⟩
        "[\\uFFFD\\uFFFD]") := by
  have hreads : ∀ {text k raw} (stop : Nat), Grammar.parse text = .ok ⟨none, [⟨⟨0, stop⟩, "a",
      .charClass ⟨⟨4, stop⟩, none, none⟩ k raw, 0⟩], "a"⟩ → ReadsClass text k raw :=
    fun _ hparse => ⟨_, _, _, hparse, rfl, rfl⟩
  have hzero : (Grammar.parse "a = [\\01]").toOption = none := by decide +kernel
  refine ⟨⟨hreads 11 (by decide +kernel), fun g hg => ?_⟩,
    ⟨hreads 9 (by decide +kernel), hreads 8 (by decide +kernel)⟩,
    hreads 10 (by decide +kernel), hreads 18 (by decide +kernel)⟩
  rw [hg] at hzero
  cases hzero

end Grammar

end Packrat
