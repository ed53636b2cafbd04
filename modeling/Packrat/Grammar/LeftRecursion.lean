import Packrat.Grammar.References

/-!
# Left recursion

A rule that reaches itself through leftmost references may call itself again without having consumed
anything. The search follows leftmost references from every rule, depth first, and stops at the
first one that leads back to a rule already on its path. A name that no rule has ends a path: the
search may also be asked about grammars whose references were never checked.

A rule on the path is never entered again, so the search below a rule may forget all rules of that
name. The list of rules it still knows shrinks with each step down, and that is why it ends.
-/

namespace Packrat

/-- The rules of other names. -/
def rulesExcept (name : String) (rules : List Rule) : List Rule := rules.filter (·.name != name)

theorem length_rulesExcept_lt {name : String} {rules : List Rule} {rule : Rule}
    (h : rules.find? (·.name == name) = some rule) :
    (rulesExcept name rules).length < rules.length := by
  unfold rulesExcept
  rw [List.length_filter_lt_length_iff_exists]
  exact ⟨rule, List.mem_of_find?_eq_some h, by simpa using List.find?_some h⟩

/-- The first reference, in depth-first order, that leads back to a name on the path. Only the
given rules are entered. -/
def closingReference (rules : List Rule) (path : List String) : List Reference → Option Reference
  | [] => none
  | r :: rs =>
    if r.name ∈ path then some r
    else
      match _h : rules.find? (·.name == r.name) with
      | none => closingReference rules path rs
      | some rule =>
        (closingReference (rulesExcept r.name rules) (r.name :: path)
          rule.body.leftmost).or (closingReference rules path rs)
termination_by rs => (rules.length, rs)
decreasing_by
  · decreasing_tactic
  · apply Prod.Lex.left
    exact length_rulesExcept_lt _h
  · decreasing_tactic

namespace Grammar

/-- Refuses the first rule that reaches itself before it consumes anything. -/
def checkLeftRecursion (g : Grammar) : Except GrammarError Unit :=
  match g.rules.findSome? fun rule =>
    closingReference g.rules [rule.name] rule.body.leftmost with
  | some r => .error (.leftRecursion r.name r.span)
  | none => .ok ()

end Grammar

end Packrat
