import Packrat.Proofs.ClassSource
import Packrat.Proofs.Extents

/-!
# The shape of a grammar that is read

Later passes take for granted what a grammar looks like when it comes from a text. `Expr.HasShape`
says it form by form, about one expression: how many parts it has, how its name is spelled, that its
code block is in the text, that nothing has been filled in. A grammar has the shape if each of its
expressions has it.

This brings two walks over the productions together. What an expression is made of comes from the
normal form, which a note about an inverted range would refuse; what has to be in the text comes
from where the expression stands.

## Main results

* `Grammar.hasShape_of_parse`: grammars that are read have this shape
-/

namespace Packrat

/-- A code block of the text: between two braces, and every brace in it has its counterpart. -/
def IsCodeOf (text code : String) : Prop :=
  isBalanced code = true ∧ block code <:+: text.toList

theorem Span.Encloses.isCodeOf {text code : String} {s : Span} (h : s.Encloses text.toList code) :
    IsCodeOf text code := by
  obtain ⟨hbalanced, before, after, htext, -⟩ := h
  exact ⟨hbalanced, before, after, by rw [htext, List.append_assoc]⟩

namespace Expr

/-- What an expression looks like that comes from a text, its parts apart. -/
def HasForm (text : String) : Expr → Prop
  | choice _ alternatives => 2 ≤ alternatives.length
  | sequence _ elements => elements.length ≠ 1
  | action _ code params _ | predicate _ _ code params => IsCodeOf text code ∧ params = []
  | labeled _ name _ | ruleRef _ name => isIdentifier name = true
  | charClass _ members raw =>
    (∀ part ∈ members.parts, part.isOrdered = true) ∧ raw = Notation.rawClass members
  | named .. | lookahead .. | optional .. | repeated .. | literal .. | any .. => True

/-- The expression has no slots and its form is one that comes from a text; no part of it has a
display name. -/
structure HasShape (text : String) (e : Expr) : Prop where
  result : e.info.result = none
  place : e.info.place = none
  form : e.HasForm text
  part : ∀ c ∈ e.children, ∀ i name body, c ≠ .named i name body

variable {v : Vocabulary} {text : String} {e b c : Expr}

theorem isUnassigned_of_isNormalBody (h : e.isNormalBody v = true) :
    e.info.isUnassigned = true := by
  cases e with
  | named => exact (Bool.and_eq_true_iff.mp (Bool.and_eq_true_iff.mp h).1).1
  | _ => simp_all [isNormalBody, isNormal, info]

/-- Only the body of a rule as a whole can have a display name. -/
theorem isNormal_of_mem_children_body (hc : c ∈ b.children) (h : b.isNormalBody v = true) :
    c.isNormal v = true := by
  cases b with
  | named =>
    obtain rfl := List.mem_singleton.mp hc
    exact (Bool.and_eq_true_iff.mp h).2
  | _ => exact isNormal_of_mem_children hc h

theorem isNormalBody_of_inside (he : e.Inside b) (h : b.isNormalBody v = true) :
    e.isNormalBody v = true := by
  cases he with
  | self => exact h
  | child hc he =>
    exact isNormalBody_of_isNormal v (isNormal_of_inside he (isNormal_of_mem_children_body hc h))

/-- The normal form tells the form, and the text tells what the name and the code block are. -/
theorem hasForm_of_isNormalBody (h : e.isNormalBody .ordered = true)
    (hgrounded : e.Grounded text.toList) : e.HasForm text := by
  cases e with
  | choice i alternatives =>
    simp only [isNormalBody, isNormal, Bool.and_eq_true, decide_eq_true_eq] at h
    exact h.1.2
  | sequence i elements =>
    simp only [isNormalBody, isNormal, Bool.and_eq_true, bne_iff_ne] at h
    exact h.1.2
  | action i code params body =>
    simp only [isNormalBody, isNormal, Bool.and_eq_true, List.isEmpty_iff] at h
    exact ⟨(hgrounded.code code rfl).isCodeOf, h.1.2⟩
  | predicate i negated code params =>
    simp only [isNormalBody, isNormal, Bool.and_eq_true, List.isEmpty_iff] at h
    exact ⟨(hgrounded.code code rfl).isCodeOf, h.2⟩
  | labeled i name body => exact hgrounded.name name rfl
  | ruleRef i name => exact hgrounded.name name rfl
  | charClass i members raw =>
    simp only [isNormalBody, isNormal, Bool.and_eq_true, List.all_eq_true, beq_iff_eq] at h
    exact ⟨h.1.2, h.2⟩
  | named | lookahead | optional | repeated | literal | any => trivial

theorem hasShape_of_inside_body (he : e.Inside b) (h : b.isNormalBody .ordered = true)
    (hgrounded : e.Grounded text.toList) : e.HasShape text := by
  have hnormal := isNormalBody_of_inside he h
  have hunassigned := Bool.and_eq_true_iff.mp (isUnassigned_of_isNormalBody hnormal)
  refine ⟨Option.isNone_iff_eq_none.mp hunassigned.1, Option.isNone_iff_eq_none.mp hunassigned.2,
    hasForm_of_isNormalBody hnormal hgrounded, ?_⟩
  rintro c hc i name body rfl
  exact absurd (isNormal_of_mem_children_body hc hnormal) Bool.false_ne_true

end Expr

namespace Grammar

/-- What a grammar looks like that comes from a text. -/
structure HasShape (text : String) (g : Grammar) : Prop where
  start : ∃ first rest, g.rules = first :: rest ∧ g.start = first.name
  initializer : ∀ i, g.initializer = some i → IsCodeOf text i.code
  name : ∀ r ∈ g.rules, isIdentifier r.name = true
  registers : ∀ r ∈ g.rules, r.registers = 0
  expression : ∀ r ∈ g.rules, ∀ e : Expr, e.Inside r.body → e.HasShape text

/-- A grammar starts with its first rule. -/
theorem yields_first :
    Notation.grammar.Yields fun g =>
      ∃ first rest, g.rules = first :: rest ∧ g.start = first.name := by
  refine .attempt (.after fun _ => .after fun front => .after fun rules => ?_)
  cases rules with
  | nil => exact .fail
  | cons first rest => exact .pure ⟨first, rest, rfl, rfl⟩

/-- Whatever is read looks like this. -/
theorem hasShape_of_parse {text : String} {g : Grammar} (h : Grammar.parse text = .ok g) :
    g.HasShape text := by
  have hnormal := isNormal_of_parse Vocabulary.covers_ordered h
  simp only [isNormal, Rule.isNormal, Bool.and_eq_true, List.all_eq_true, beq_iff_eq] at hnormal
  have hgrounded := grounded_of_parse h
  refine ⟨yields_first.of_run h, fun i hi => ?_, fun r hr => (hgrounded.rules r hr).name,
    fun r hr => (hnormal.2 r hr).2, fun r hr e he => ?_⟩
  · exact (hgrounded.initializer i hi).2.isCodeOf
  · exact Expr.hasShape_of_inside_body he (hnormal.2 r hr).1.2 ((hgrounded.rules r hr).parts e he)

/-- A display name, a labelled class with a range, two code blocks, one with braces inside, and a
rule that matches nothing. -/
def variedGrammar : Grammar where
  initializer := none
  rules := [
    ⟨⟨0, 47⟩, "s", .named ⟨⟨8, 47⟩, none, none⟩ "q" (.choice ⟨⟨8, 47⟩, none, none⟩
      [.sequence ⟨⟨8, 31⟩, none, none⟩
        [.labeled ⟨⟨8, 22⟩, none, none⟩ "$a" (.repeated ⟨⟨11, 22⟩, none, none⟩ false
          (.charClass ⟨⟨11, 20⟩, none, none⟩ ⟨[.range 'b' 'd', .single ']'], true, true⟩
            "[^b-d\\]]i")),
        .predicate ⟨⟨22, 31⟩, none, none⟩ false " {x} " []],
      .action ⟨⟨33, 47⟩, none, none⟩ " y " [] (.choice ⟨⟨34, 39⟩, none, none⟩
        [.ruleRef ⟨⟨34, 35⟩, none, none⟩ "b", .ruleRef ⟨⟨38, 39⟩, none, none⟩ "s"])]), 0⟩,
    ⟨⟨47, 50⟩, "b", .sequence ⟨⟨50, 50⟩, none, none⟩ [], 0⟩]
  start := "s"

/-- The text of the grammar. -/
def variedText : String := "s 'q' = $a:[^b-d\\]]i* &{ {x} } / (b / s) { y }\nb ="

theorem hasShape_of_parse_varied : Grammar.parse variedText = .ok variedGrammar ∧
    variedGrammar.HasShape variedText := by
  have hparse : Grammar.parse variedText = .ok variedGrammar := by decide +kernel
  exact ⟨hparse, hasShape_of_parse hparse⟩

end Grammar

end Packrat
