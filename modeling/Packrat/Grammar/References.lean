import Packrat.Error
import Packrat.Grammar.Basic

/-!
# References to rules

A reference is a name with the place where it stands. Two lists of references matter: all of them,
each of which has to name a rule, and the leftmost ones, which a match of the expression may follow
before it has consumed anything.

The leftmost references of a sequence are those of its first element only. An expression that can
match nothing in front of another one therefore hides the references of the second; the check for
left recursion does not look behind it.
-/

namespace Packrat

/-- A name that refers to a rule, and where it stands. -/
structure Reference where
  name : String
  span : Span
  deriving DecidableEq, Repr

namespace Expr

mutual
/-- All references, in the order of the grammar text. -/
def references : Expr → List Reference
  | choice _ items | sequence _ items => referencesAll items
  | named _ _ body | action _ _ _ body | labeled _ _ body | lookahead _ _ body
  | optional _ body | repeated _ _ body => body.references
  | ruleRef info name => [⟨name, info.span⟩]
  | predicate .. | literal .. | charClass .. | any .. => []

/-- All references of several expressions. -/
def referencesAll : List Expr → List Reference
  | [] => []
  | e :: es => e.references ++ referencesAll es
end

mutual
/-- The references in leftmost position, in the order of the grammar text. -/
def leftmost : Expr → List Reference
  | choice _ items => leftmostAll items
  | sequence _ items => leftmostHead items
  | named _ _ body | action _ _ _ body | labeled _ _ body | lookahead _ _ body
  | optional _ body | repeated _ _ body => body.leftmost
  | ruleRef info name => [⟨name, info.span⟩]
  | predicate .. | literal .. | charClass .. | any .. => []

/-- The leftmost references of several alternatives. -/
def leftmostAll : List Expr → List Reference
  | [] => []
  | e :: es => e.leftmost ++ leftmostAll es

/-- The leftmost references of the first expression, if there is one. -/
def leftmostHead : List Expr → List Reference
  | [] => []
  | e :: _ => e.leftmost
end

theorem referencesAll_eq_flatMap (es : List Expr) :
    referencesAll es = es.flatMap references := by
  induction es with
  | nil => simp [referencesAll]
  | cons e es ih => simp [referencesAll, ih]

/-- What a part of an expression refers to, the expression refers to. -/
theorem references_child_subset {e c : Expr} (hc : c ∈ e.children) :
    c.references ⊆ e.references := by
  cases e with
  | choice i items | sequence i items =>
    intro ref href
    rw [references, referencesAll_eq_flatMap]
    exact List.mem_flatMap_of_mem hc href
  | predicate | ruleRef | literal | charClass | any => nomatch hc
  | _ =>
    obtain rfl := List.mem_singleton.mp hc
    exact fun ref href => href

theorem leftmostAll_eq_flatMap (es : List Expr) : leftmostAll es = es.flatMap leftmost := by
  induction es with
  | nil => simp [leftmostAll]
  | cons e es ih => simp [leftmostAll, ih]

end Expr

namespace Grammar

/-- All references of all rules, in order. -/
def references (g : Grammar) : List Reference := g.rules.flatMap (·.body.references)

/-- Whether some rule has the name. -/
def defines (g : Grammar) (name : String) : Bool := g.rules.any (·.name == name)

theorem defines_iff {g : Grammar} {name : String} :
    g.defines name ↔ ∃ r ∈ g.rules, r.name = name := by
  simp [defines]

theorem isSome_find? (g : Grammar) (name : String) : (g.find? name).isSome = g.defines name := by
  rw [Bool.eq_iff_iff, find?, List.find?_isSome, defines, List.any_eq_true]

theorem isSome_findIndex? (g : Grammar) (name : String) :
    (g.findIndex? name).isSome = g.defines name := List.findIdx?_isSome

/-- Refuses the first reference that names no rule. -/
def checkReferences (g : Grammar) : Except GrammarError Unit :=
  match g.references.find? fun r => !g.defines r.name with
  | some r => .error (.undefinedRule r.name r.span)
  | none => .ok ()

theorem checkReferences_eq_ok_iff (g : Grammar) :
    g.checkReferences = .ok () ↔ ∀ r ∈ g.references, g.defines r.name := by
  unfold checkReferences
  split
  · next r h =>
    simp only [reduceCtorEq, false_iff]
    intro hall
    have := List.find?_some h
    simp [hall r (List.mem_of_find?_eq_some h)] at this
  · next h => simpa using h

end Grammar

end Packrat
