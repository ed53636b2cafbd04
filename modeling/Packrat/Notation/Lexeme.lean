import Packrat.Notation.Reader

/-!
# Lexemes of grammar text

Blanks, line ends and comments may stand between any two tokens; every token takes those behind it.
Each kind of lexeme fails under one name, such as `identifier`, whatever part of it was missing.

    action      = "{" (braced / [^{}])* "}"
    identifier  = [a-zA-Z_$] [a-zA-Z0-9_$]*
    literal     = string "i"?
    string      = '"' character* '"' / "'" character* "'"
    class       = "[" "^"? (member "-" member / member)* "]" "i"?

In strings and classes a backslash introduces an escape: a single letter, `\0` where no digit
follows, `\x` and two or `\u` and four hexadecimal digits, or a line end, which stands for itself.
Any other escaped character stands for itself too. A unit of a surrogate pair is no character of its
own and reads as `U+FFFD`.
-/

namespace Packrat.Notation

open Reader

/-- The characters that end a line. -/
def isLineEnd (c : Char) : Bool := c == '\n' || c == '\r' || c == '\u2028' || c == '\u2029'

/-- Blanks between tokens. -/
def isSpace (c : Char) : Bool :=
  c == ' ' || c == '\t' || c == '\x0b' || c == '\x0c' || c == '\u00a0' || c == '\ufeff' ||
    c == '\u1680' || c == '\u180e' || ('\u2000' ≤ c && c ≤ '\u200a') || c == '\u202f' ||
    c == '\u205f' || c == '\u3000'

/-- Digits of hexadecimal numbers. -/
def isHexDigit (c : Char) : Bool :=
  c.isDigit || ('a' ≤ c && c ≤ 'f') || ('A' ≤ c && c ≤ 'F')

/-- The number that a hexadecimal digit stands for. -/
def hexValue (c : Char) : Nat :=
  if c.isDigit then c.toNat - 0x30
  else if 'a' ≤ c then c.toNat - 0x57
  else c.toNat - 0x37

/-- The number that hexadecimal digits stand for. -/
def hexNumber (digits : List Char) : Nat := digits.foldl (fun n c => 16 * n + hexValue c) 0

/-- The character with a code, or the replacement character where a code is none. -/
def charOfCode (n : Nat) : Char := if n.isValidChar then Char.ofNat n else '\ufffd'

/-! ## Between tokens -/

/-- The spellings of a line end. -/
def lineEnds : List String := ["\n", "\r\n", "\r", "\u2028", "\u2029"]

/-- The first of the texts that is there. -/
def oneOf : List String → Reader String
  | [] => fail
  | t :: ts => (do text t; return t) <|> oneOf ts

/-- A line end. -/
def lineEnd : Reader String := named "end of line" (oneOf lineEnds)

/-- A comment up to the end of the line, or between `/*` and `*/`. -/
def comment : Reader Unit := named "comment" <|
  (do
    text "//"
    let _ ← many (charWhere (!isLineEnd ·) State.anyCharacter)) <|>
  (do
    text "/*"
    let _ ← many do
      if ← peek (text "*/") then fail else anyChar
    text "*/")

/-- Whatever may stand between two tokens. -/
def skip : Reader Unit := do
  let _ ← many <|
    (do let _ ← charWhere isSpace "whitespace") <|> (do let _ ← lineEnd) <|> comment

/-- A fixed token. -/
def token (value : String) : Reader Unit := do
  text value
  skip

/-! ## Code and identifiers -/

/-- Text in balanced braces, nested no deeper than `depth`. -/
def bracedWithin : (depth : Nat) → Reader Unit
  | 0 => fail
  | depth + 1 => attempt do
    text "\x7b"
    let _ ← many <|
      bracedWithin depth <|>
        (do let _ ← charWhere (fun c => c != '{' && c != '}') "[^\x7b\x7d]")
    text "\x7d"

/-- Text in balanced braces. Each level of nesting takes a character, so the text ahead bounds the
depth. -/
def braced : Reader Unit := do
  bracedWithin ((← cursor).ahead.length + 1)

/-- A code block; the result is the text between the outer braces. -/
def action : Reader String := named "action" do
  let begun ← cursor
  braced
  let block ← textSince begun
  skip
  return String.ofList (block.drop 1).dropLast

/-- Characters that begin an identifier. -/
def isIdentifierHead (c : Char) : Bool := c.isAlpha || c == '_' || c == '$'

/-- Characters that continue an identifier. -/
def isIdentifierTail (c : Char) : Bool := isIdentifierHead c || c.isDigit

/-- A name. -/
def identifier : Reader String := named "identifier" do
  let first ← charWhere isIdentifierHead "[a-zA-Z_$]"
  let rest ← many (charWhere isIdentifierTail "[a-zA-Z0-9_$]")
  skip
  return String.ofList (first :: rest)

/-! ## Strings -/

/-- The character that an escaped letter stands for. -/
def escapedChar (c : Char) : Char :=
  match c with
  | 'b' => '\x08'
  | 'f' => '\x0c'
  | 'n' => '\n'
  | 'r' => '\r'
  | 't' => '\t'
  | 'v' => '\x0b'
  | c => c

/-- A number of hexadecimal digits. -/
def hexDigitRun : (count : Nat) → Reader (List Char)
  | 0 => return []
  | count + 1 => do
    let d ← charWhere isHexDigit "[0-9a-fA-F]"
    return d :: (← hexDigitRun count)

/-- An introduction and a number of hexadecimal digits. -/
def hexEscape (introduction : String) (count : Nat) : Reader Char := attempt do
  text introduction
  return charOfCode (hexNumber (← hexDigitRun count))

/-- An escaped character other than a digit, an `x`, a `u` or a line end. -/
def simpleEscape : Reader Char := attempt do
  text "\\"
  let c ← charWhere (fun c => !(c.isDigit || c == 'x' || c == 'u' || isLineEnd c))
    State.anyCharacter
  return escapedChar c

/-- `\0` where no digit follows. -/
def zeroEscape : Reader Char := attempt do
  text "\\0"
  if ← peek (charWhere Char.isDigit "[0-9]") then fail else return '\x00'

/-- An escaped line end. -/
def lineEndEscape : Reader String := attempt do
  text "\\"
  lineEnd

/-- An escape; the result is what it stands for. -/
def escape : Reader (List Char) :=
  (do return [← simpleEscape <|> zeroEscape <|> hexEscape "\\x" 2 <|> hexEscape "\\u" 4]) <|>
    (do return (← lineEndEscape).toList)

/-- A character of a string that `delimiter` closes. -/
def stringCharacter (delimiter : Char) : Reader (List Char) :=
  (do
    let c ← charWhere (fun c => c != delimiter && c != '\\' && !isLineEnd c) State.anyCharacter
    return [c]) <|> escape

/-- A string between two delimiters. -/
def delimited (delimiter : Char) : Reader String := attempt do
  let description := Text.quote (String.singleton delimiter)
  let _ ← charWhere (· == delimiter) description
  let content ← many (stringCharacter delimiter)
  let _ ← charWhere (· == delimiter) description
  return String.ofList content.flatten

/-- A string in double or single quotes. -/
def quotedString : Reader String := delimited '"' <|> delimited '\''

/-- A literal and whether it ignores case. -/
def literal : Reader (String × Bool) := named "literal" do
  let value ← quotedString
  let ignoreCase ← succeeds (text "i")
  skip
  return (value, ignoreCase)

/-- A string as the display name of a rule. -/
def string : Reader String := named "string" do
  let value ← quotedString
  skip
  return value

/-! ## Classes -/

/-- A member of a class. An escaped line end of two characters contributes the first. -/
def classMember : Reader Char :=
  charWhere (fun c => c != ']' && c != '\\' && !isLineEnd c) State.anyCharacter <|>
    (do
      match ← escape with
      | c :: _ => return c
      | [] => fail)

/-- The normalized source form of a part of a class. -/
def rawPart : ClassPart → List Char
  | .single c => Text.escapeMember c
  | .range first last => Text.escapeMember first ++ '-' :: Text.escapeMember last

/-- A range or a single member. -/
def classPart : Reader ClassPart := do
  let begun ← cursor
  let range ← option <| attempt do
    let first ← classMember
    text "-"
    return (first, ← classMember)
  match range with
  | some (first, last) =>
    let part := ClassPart.range first last
    if last < first then noteInverted (String.ofList (rawPart part)) (← spanSince begun)
    return part
  | none => return .single (← classMember)

/-- The normalized source form of a class. -/
def rawClass (members : CharClass) : String :=
  String.ofList <| '[' :: (if members.inverted then ['^'] else []) ++ members.parts.flatMap rawPart
    ++ ']' :: (if members.ignoreCase then ['i'] else [])

/-- A character class. -/
def charClass : Reader CharClass := named "character class" do
  text "["
  let inverted ← succeeds (text "^")
  let parts ← many classPart
  text "]"
  let ignoreCase ← succeeds (text "i")
  skip
  return ⟨parts, inverted, ignoreCase⟩

end Packrat.Notation
