/-!
# Values of a match

What a match gives: the text of a terminal, the list of a sequence or a repetition, or whatever a
code block makes of them. Values are the data of JSON without fractions. `null` is also the answer
of a code block that refuses the match.
-/

namespace Packrat

/-- Data that a match or a code block produces. -/
inductive Value where
  | null
  | bool (b : Bool)
  | int (n : Int)
  | str (s : String)
  | arr (items : List Value)
  /-- Fields in the order of their names. -/
  | obj (fields : List (String × Value))
  deriving BEq, Inhabited, Repr

namespace Value

/-- The value of a match that consumes nothing: the empty text. -/
def empty : Value := .str ""

/-- Whether a code block that answers with this value refuses the match. -/
def isNull : Value → Bool
  | null => true
  | _ => false

@[simp] theorem isNull_iff {v : Value} : v.isNull ↔ v = null := by
  cases v <;> simp [isNull]

mutual
/-- All strings of a value, depth first; what is neither text nor list adds nothing. -/
def text : Value → String
  | str s => s
  | arr items => textAll items
  | _ => ""

/-- The strings of the items, in order. -/
def textAll : List Value → String
  | [] => ""
  | v :: vs => v.text ++ textAll vs
end

/-- The items of a list. -/
def items? : Value → Option (List Value)
  | arr items => some items
  | _ => none

end Value

end Packrat
