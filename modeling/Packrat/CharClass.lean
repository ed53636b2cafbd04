import Packrat.Text.Case

/-!
# Character classes

A class such as `[^a-z_]i` lists characters and ranges. `[]` accepts nothing and `[^]` accepts every
character. A class that ignores case also accepts a character whose small or capital form is listed,
but only where that form is a single character: a letter whose capital form takes two has no member
of a class to be equal to.
-/

namespace Packrat

/-- An entry between the brackets. -/
inductive ClassPart where
  | single (c : Char)
  /-- All characters from the first to the last. -/
  | range (first last : Char)
  deriving DecidableEq, Repr

/-- Whether an entry lists a character. -/
def ClassPart.contains : ClassPart → Char → Bool
  | single d, c => d == c
  | range first last, c => first ≤ c && c ≤ last

/-- A set of characters as a grammar writes it. -/
structure CharClass where
  parts : List ClassPart
  inverted : Bool
  ignoreCase : Bool
  deriving DecidableEq, Repr

namespace CharClass

/-- Whether some entry lists the character itself. -/
def lists (k : CharClass) (c : Char) : Bool := k.parts.any (·.contains c)

/-- Whether a case form is a single listed character. -/
def listsForm (k : CharClass) : List Char → Bool
  | [c] => k.lists c
  | _ => false

/-- Whether the character is listed, in another case if case is ignored. -/
def listsCased (k : CharClass) (c : Char) : Bool :=
  k.lists c ||
    (k.ignoreCase && (k.listsForm (Text.lower c) || k.listsForm (Text.upper c)))

/-- Whether the class accepts the character. -/
def accepts (k : CharClass) (c : Char) : Bool := k.listsCased c != k.inverted

end CharClass

end Packrat
