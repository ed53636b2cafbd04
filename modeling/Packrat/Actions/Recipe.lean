import Packrat.Actions

/-!
# Recipes for host code

A host that only arranges what it is given need not write functions. A recipe says which part of the
context an action answers with, and a condition what a predicate looks at.
-/

namespace Packrat

/-- The context as data, with its fields in the order of their names. -/
def Context.toValue (cx : Context) : Value :=
  .obj [
    ("labels", .arr (cx.labels.map fun (name, v) => .arr [.str name, v])),
    ("line_column", lineColumnValue cx.lineColumn),
    ("matched", cx.matched),
    ("offset", .int cx.offset),
    ("text", .str cx.text)]
where
  /-- Line and column as a list, or `null`. -/
  lineColumnValue : Option (Nat × Nat) → Value
    | some (line, column) => .arr [.int line, .int column]
    | none => .null

/-- What an action answers. -/
inductive Recipe where
  | matched
  | text
  | offset
  /-- The offset, and line and column if they are tracked. -/
  | position
  /-- The labels in view with their values. -/
  | labels
  /-- The whole context as data. -/
  | context
  /-- All strings of the matched value, one after the other. -/
  | join
  | constant (v : Value)
  | raise (error : String)
  /-- The value of a label, or another one if no such label is in view. -/
  | label (name : String) (otherwise : Value)
  /-- Refuses one text and follows another recipe for the others. -/
  | refuse (unwanted : String) (otherwise : Recipe)
  deriving Repr

/-- The answer of an action that follows a recipe. -/
def Recipe.run : Recipe → Context → Except String Value
  | matched, cx => .ok cx.matched
  | text, cx => .ok (.str cx.text)
  | offset, cx => .ok (.int cx.offset)
  | position, cx =>
    .ok (.arr [.int cx.offset, Context.toValue.lineColumnValue cx.lineColumn])
  | labels, cx => .ok (.arr (cx.labels.map fun (name, v) => .arr [.str name, v]))
  | context, cx => .ok cx.toValue
  | join, cx => .ok (.str cx.matched.text)
  | constant v, _ => .ok v
  | raise error, _ => .error error
  | label name otherwise, cx => .ok ((cx.label? name).getD otherwise)
  | refuse unwanted otherwise, cx =>
    if cx.text = unwanted then .ok .null else otherwise.run cx

/-- What a predicate looks at. -/
inductive Condition where
  | always (answer : Bool)
  | raise (error : String)
  /-- The label is in view and has this value. -/
  | labelIs (name : String) (v : Value)
  /-- The label is in view and the strings of its value make up this text. -/
  | labelTextIs (name : String) (text : String)
  | offsetBelow (n : Nat)
  /-- Columns are tracked and this is the one. -/
  | columnIs (n : Nat)
  deriving Repr

/-- The answer of a predicate that tests a condition. -/
def Condition.run : Condition → Context → Except String Bool
  | always answer, _ => .ok answer
  | raise error, _ => .error error
  | labelIs name v, cx => .ok ((cx.label? name).any (· == v))
  | labelTextIs name text, cx => .ok ((cx.label? name).any (·.text == text))
  | offsetBelow n, cx => .ok (cx.offset < n)
  | columnIs n, cx => .ok (cx.lineColumn.any (·.2 == n))

end Packrat
