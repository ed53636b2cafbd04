import Packrat.Value

/-!
# What a code block sees

A code block runs outside the library. It receives the place and the text of the match it belongs
to, the value matched there, and the labels in view. A predicate stands between two expressions, so
its text is empty and its matched value is `null`.
-/

namespace Packrat

/-- The arguments of a code block. -/
structure Context where
  /-- Where the expression of an action began, or where a predicate stands. -/
  offset : Nat
  /-- Line and column of the offset, when they are tracked. -/
  lineColumn : Option (Nat × Nat)
  /-- Labels in view, outer ones first. -/
  labels : List (String × Value)
  /-- What the expression of an action matched. -/
  matched : Value
  /-- The text that the expression of an action consumed. -/
  text : String
  deriving BEq, Repr

/-- The value of a label in view. -/
def Context.label? (cx : Context) (name : String) : Option Value := cx.labels.lookup name

end Packrat
