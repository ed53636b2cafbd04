import Packrat.Context
import Packrat.Text.Blank
import Packrat.Text.Literal

/-!
# Code that a host offers

A grammar names its code blocks by their text. A host registers functions for texts, and a block is
bound to the function whose text agrees with its own once the blanks around both are removed. What
is not registered goes to a fallback, if the host has one. An action answers with the value of the
match, where `null` refuses it; a predicate answers yes or no; either may raise an error, which ends
the whole parse.
-/

namespace Packrat

/-- How a host came to offer a function. -/
inductive Offer where
  /-- It comes with the library. -/
  | builtIn
  /-- It serves all code that is not registered. -/
  | fallback
  /-- It was registered for this code, given as the host wrote it. -/
  | registered (code : String)
  deriving DecidableEq, Repr

/-- A function for a code block. -/
structure Handler (α : Type) where
  offer : Offer
  /-- The answer, or the text of an error. -/
  run : Context → Except String α

/-- The code that a host offers. -/
structure Actions where
  /-- Functions for actions by the text of the code without the blanks around it. -/
  actions : List (String × Handler Value) := []
  /-- Functions for predicates, likewise. -/
  predicates : List (String × Handler Bool) := []
  actionFallback : Option (Handler Value) := none
  predicateFallback : Option (Handler Bool) := none

namespace Actions

/-- Puts an entry in the place of the one with its key, or at the end. -/
def enter {α : Type} (key : String) (a : α) : List (String × α) → List (String × α)
  | [] => [(key, a)]
  | (k, b) :: rest => if k = key then (k, a) :: rest else (k, b) :: enter key a rest

/-- Registers a function for the actions with this code. -/
def action (h : Actions) (code : String) (run : Context → Except String Value) : Actions :=
  { h with actions := enter (Text.trim code) ⟨.registered code, run⟩ h.actions }

/-- Registers a function for the predicates with this code. -/
def predicate (h : Actions) (code : String) (run : Context → Except String Bool) : Actions :=
  { h with predicates := enter (Text.trim code) ⟨.registered code, run⟩ h.predicates }

/-- Serves all other actions. -/
def fallbackAction (h : Actions) (run : Context → Except String Value) : Actions :=
  { h with actionFallback := some ⟨.fallback, run⟩ }

/-- Serves all other predicates. -/
def fallbackPredicate (h : Actions) (run : Context → Except String Bool) : Actions :=
  { h with predicateFallback := some ⟨.fallback, run⟩ }

/-- Actions answer with what was matched and predicates agree. -/
def passthrough : Actions where
  actionFallback := some ⟨.builtIn, fun cx => .ok cx.matched⟩
  predicateFallback := some ⟨.builtIn, fun _ => .ok true⟩

/-- The function for an action. -/
def findAction? (h : Actions) (code : String) : Option (Handler Value) :=
  (h.actions.lookup (Text.trim code)).or h.actionFallback

/-- The function for a predicate. -/
def findPredicate? (h : Actions) (code : String) : Option (Handler Bool) :=
  (h.predicates.lookup (Text.trim code)).or h.predicateFallback

/-- The registered codes, as literals between brackets. -/
def keysText (keys : List String) : String :=
  "[" ++ ", ".intercalate (keys.map Text.Literal.string) ++ "]"

/-- An overview of what is registered. -/
def overview (h : Actions) : String :=
  "Actions \x7b actions: " ++ keysText (h.actions.map (·.1)) ++ ", predicates: "
    ++ keysText (h.predicates.map (·.1)) ++ ", .. \x7d"

end Actions

end Packrat
