import Packrat.Text.Escape
import Packrat.Value

/-!
# Values written as JSON

Two layouts of the same text: `compact` puts everything on one line without blanks, `pretty` puts
each item and each field on a line of its own, indented by two blanks a level, and leaves an empty
list or object closed up.
-/

namespace Packrat.Value

/-- A character inside a JSON string: the short escapes, four digits for the other control
characters, everything else as it is. -/
def jsonChar (c : Char) : List Char :=
  match c with
  | '"' => ['\\', '"']
  | '\\' => ['\\', '\\']
  | '\x08' => ['\\', 'b']
  | '\x0c' => ['\\', 'f']
  | '\n' => ['\\', 'n']
  | '\r' => ['\\', 'r']
  | '\t' => ['\\', 't']
  | c =>
    if c.toNat < 0x20 then '\\' :: 'u' :: (Text.hexDigits 4 c.toNat).map Char.toLower else [c]

/-- A JSON string. -/
def jsonString (s : String) : String :=
  String.ofList ('"' :: s.toList.flatMap jsonChar ++ ['"'])

mutual
/-- The value on one line. -/
def compact : Value → String
  | null => "null"
  | bool b => if b then "true" else "false"
  | int n => toString n
  | str s => jsonString s
  | arr items => "[" ++ ",".intercalate (compactItems items) ++ "]"
  | obj fields => "\x7b" ++ ",".intercalate (compactFields fields) ++ "\x7d"

/-- The items, each on one line. -/
def compactItems : List Value → List String
  | [] => []
  | v :: vs => v.compact :: compactItems vs

/-- The fields, each with its name. -/
def compactFields : List (String × Value) → List String
  | [] => []
  | (name, v) :: fields => (jsonString name ++ ":" ++ v.compact) :: compactFields fields
end

/-- Blanks at the start of a line at a depth. -/
def indentation (depth : Nat) : String := String.ofList (List.replicate (2 * depth) ' ')

/-- Entries between brackets, one a line, one level deeper than the brackets. -/
def bracketed (depth : Nat) (opening closing : String) (entries : List String) : String :=
  match entries with
  | [] => opening ++ closing
  | _ =>
    let lines := entries.map fun e => "\n" ++ indentation (depth + 1) ++ e
    opening ++ ",".intercalate lines ++ "\n" ++ indentation depth ++ closing

mutual
/-- The value on several lines, its brackets at the given depth. -/
def prettyAt (depth : Nat) : Value → String
  | null => "null"
  | bool b => if b then "true" else "false"
  | int n => toString n
  | str s => jsonString s
  | arr items => bracketed depth "[" "]" (prettyItems (depth + 1) items)
  | obj fields => bracketed depth "\x7b" "\x7d" (prettyFields (depth + 1) fields)

/-- The items at a depth. -/
def prettyItems (depth : Nat) : List Value → List String
  | [] => []
  | v :: vs => v.prettyAt depth :: prettyItems depth vs

/-- The fields at a depth, each with its name. -/
def prettyFields (depth : Nat) : List (String × Value) → List String
  | [] => []
  | (name, v) :: fields =>
    (jsonString name ++ ": " ++ v.prettyAt depth) :: prettyFields depth fields
end

/-- The value on several lines. -/
def pretty (v : Value) : String := v.prettyAt 0

end Packrat.Value
