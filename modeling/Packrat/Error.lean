import Packrat.Span
import Packrat.Text.Escape

/-!
# What can go wrong

Errors are causes; each kind has one function `message` that words it. `SyntaxError` says that a
text does not match, and it serves for grammar texts and for the texts that a grammar describes
alike. What was expected is a set: `SyntaxError.of` sorts the descriptions and drops repetitions, so
a report does not depend on the order in which the alternatives were tried.

The function `cause?` gives the text of the error inside an error, for hosts that print a chain.

## Main results

* `mem_orderedDescriptions`, `pairwise_orderedDescriptions`: ordering keeps the set of descriptions
  and lists it in strictly ascending order, which leaves one list for each set
-/

namespace Packrat

/-- Inserts a description into an ordered list, unless it is there. -/
def insertDescription (d : String) : List String → List String
  | [] => [d]
  | e :: es =>
    if d < e then d :: e :: es else if d = e then e :: es else e :: insertDescription d es

/-- The descriptions in order, each once. -/
def orderedDescriptions (ds : List String) : List String := ds.foldr insertDescription []

theorem mem_insertDescription {d e : String} {ds : List String} :
    e ∈ insertDescription d ds ↔ e = d ∨ e ∈ ds := by
  induction ds with
  | nil => simp [insertDescription]
  | cons x xs ih => grind [insertDescription]

theorem pairwise_insertDescription {d : String} {ds : List String} (h : ds.Pairwise (· < ·)) :
    (insertDescription d ds).Pairwise (· < ·) := by
  induction ds with
  | nil => simp [insertDescription]
  | cons x xs ih =>
    obtain ⟨hx, hxs⟩ := List.pairwise_cons.mp h
    unfold insertDescription
    split
    · next hd =>
      refine List.pairwise_cons.mpr ⟨?_, h⟩
      rintro e (_ | ⟨_, he⟩)
      · exact hd
      · exact String.lt_trans hd (hx e he)
    · next hd =>
      split
      · exact h
      · next hne =>
        have hlt : x < d := by
          refine Decidable.byContradiction fun hn => hne ?_
          exact String.le_antisymm (String.not_lt.mp hn) (String.not_lt.mp hd)
        refine List.pairwise_cons.mpr ⟨?_, ih hxs⟩
        intro e he
        rcases mem_insertDescription.mp he with rfl | he
        · exact hlt
        · exact hx e he

@[simp] theorem mem_orderedDescriptions {d : String} {ds : List String} :
    d ∈ orderedDescriptions ds ↔ d ∈ ds := by
  induction ds with
  | nil => simp [orderedDescriptions]
  | cons e es ih =>
    rw [orderedDescriptions, List.foldr_cons, mem_insertDescription, ← orderedDescriptions, ih,
      List.mem_cons]

/-- The order is strict, so no description is there twice. -/
theorem pairwise_orderedDescriptions (ds : List String) :
    (orderedDescriptions ds).Pairwise (· < ·) := by
  induction ds with
  | nil => exact .nil
  | cons e es ih => exact pairwise_insertDescription ih

/-- A text does not match. -/
structure SyntaxError where
  /-- What would have been accepted at the offset, in order and each once. -/
  expected : List String
  /-- The character at the offset, or nothing at the end of the text. -/
  found : Option String
  offset : Nat
  line : Nat
  column : Nat
  deriving DecidableEq, Repr

namespace SyntaxError

/-- The error with the given failures, in any order. -/
def of (expected : List String) (found : Option String) (offset line column : Nat) : SyntaxError :=
  ⟨orderedDescriptions expected, found, offset, line, column⟩

/-- An enumeration with commas and a last `or`. -/
def alternatives : List String → String
  | [] => "end of input"
  | [d] => d
  | d :: ds => ", ".intercalate (d :: ds.dropLast) ++ " or " ++ ds.getLastD ""

/-- Wording of the error. -/
def message (e : SyntaxError) : String :=
  let found := match e.found with
    | some c => Text.quote c
    | none => "end of input"
  "Expected " ++ alternatives e.expected ++ " but " ++ found ++ " found."

end SyntaxError

/-- A grammar cannot be turned into a parser. -/
inductive GrammarError where
  /-- The grammar text is not well formed. -/
  | malformed (e : SyntaxError)
  /-- A class range such as `z-a`, given as the class would show it. -/
  | invertedRange (range : String) (span : Span)
  | undefinedRule (name : String) (span : Span)
  | leftRecursion (name : String) (span : Span)
  deriving DecidableEq, Repr

namespace GrammarError

/-- The place in the grammar text, for errors other than malformed text. -/
def span? : GrammarError → Option Span
  | malformed _ => none
  | invertedRange _ span | undefinedRule _ span | leftRecursion _ span => some span

/-- Byte offset of the error in the grammar text. -/
def offset : GrammarError → Nat
  | malformed e => e.offset
  | invertedRange _ span | undefinedRule _ span | leftRecursion _ span => span.start

/-- Wording of the error. -/
def message : GrammarError → String
  | malformed e =>
    "Line " ++ toString e.line ++ ", column " ++ toString e.column ++ ": " ++ e.message
  | invertedRange range _ => "Invalid character range: " ++ range ++ "."
  | undefinedRule name _ => "Referenced rule \"" ++ name ++ "\" does not exist."
  | leftRecursion name _ => "Left recursion detected for rule \"" ++ name ++ "\"."

/-- Text of the error inside. -/
def cause? : GrammarError → Option String
  | malformed e => some e.message
  | _ => none

end GrammarError

/-- A grammar cannot be bound to the code that a host offers. -/
inductive BuildError where
  | grammar (e : GrammarError)
  /-- The host offers nothing for the action with this code. -/
  | missingAction (code : String)
  /-- The host offers nothing for the predicate with this code. -/
  | missingPredicate (code : String)
  deriving DecidableEq, Repr

namespace BuildError

/-- Wording of the error. -/
def message : BuildError → String
  | grammar e => e.message
  | missingAction code => "No implementation for action \x7b" ++ code ++ "\x7d."
  | missingPredicate code => "No implementation for predicate \x7b" ++ code ++ "\x7d."

/-- Text of the error inside. -/
def cause? : BuildError → Option String
  | grammar e => some e.message
  | _ => none

end BuildError

/-- A parse does not succeed. -/
inductive ParseError where
  /-- The text does not match the grammar. -/
  | mismatch (e : SyntaxError)
  /-- No rule has the name that was asked for. -/
  | unknownStart (name : String)
  /-- A code block raised an error, which ends the whole parse. -/
  | action (text : String)
  deriving DecidableEq, Repr

namespace ParseError

/-- Wording of the error. -/
def message : ParseError → String
  | mismatch e => e.message
  | unknownStart name => "Invalid rule name: " ++ Text.quote name ++ "."
  | action text => "Action failed: " ++ text

/-- Text of the error inside. -/
def cause? : ParseError → Option String
  | mismatch e => some e.message
  | unknownStart _ => none
  | action text => some text

end ParseError

/-- A call that breaks a rule of the library. No sequence of calls that the library itself makes
for a grammar it has checked ends in one; a host that drives the parts by hand can provoke each. -/
inductive Fault where
  /-- Reporting was resumed more often than it was suspended. -/
  | notSuspended
  /-- An offset outside the text or inside a character. -/
  | offsetNotABoundary
  /-- A slot beyond the registers of the rule. -/
  | noSuchSlot (slot : Nat)
  /-- A slot was read as a position and holds none. -/
  | noPosition (slot : Nat)
  /-- An expression has no slots yet. -/
  | notAllocated
  /-- A reference names no rule. -/
  | noSuchRule (name : String)
  /-- A call goes to a rule that the program does not have. -/
  | noSuchRuleIndex (rule : Nat)
  /-- A code site that is bound to no code of its kind. -/
  | wrongCode (site : Nat)
  deriving DecidableEq, Repr

end Packrat
