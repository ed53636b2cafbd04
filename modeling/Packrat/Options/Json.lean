import Packrat.Decimal
import Packrat.Double.Shortest
import Packrat.Text.Bytes
import Packrat.Text.Literal

/-!
# Scanning JSON

Options arrive as JSON text. The text is scanned once from left to right, and the first problem met
ends the scan, so a problem is a cause and the offset at which the scan stood. Every problem belongs
to one of three categories: the text ended too early, it is not JSON, or it is JSON of another shape
than the one wanted.

Values that nobody asked for are passed over. They still have to be JSON, but numbers are not
weighed and surrogates in strings are not paired up, since no use is made of either.
-/

namespace Packrat.Json

-- Powers are those of natural numbers, also where the powers of a monoid are in scope.
attribute [local instance (high)] instPowNat

open Text (byteLength)

/-- What was being read when the text ended. -/
inductive Part where
  | list
  | object
  | string
  | value
  deriving DecidableEq, Repr

/-- Why a scan ended. -/
inductive Cause where
  | ended (within_ : Part)
  | expectedColon
  | expectedListEnd
  | expectedObjectEnd
  | expectedWord
  | expectedValue
  | invalidEscape
  | invalidNumber
  | numberOutOfRange
  | controlCharacter
  | keyNotString
  | loneSurrogate
  | trailingComma
  | trailingCharacters
  | unfinishedPair
  /-- A value of another kind than the one wanted. -/
  | wrongKind (found wanted : String)
  | duplicateField (name : String)
  deriving DecidableEq, Repr

/-- Kinds of causes. -/
inductive Category where
  /-- The text ended too early. -/
  | early
  /-- The text is not JSON. -/
  | malformed
  /-- The text is JSON of another shape. -/
  | shape
  deriving DecidableEq, Repr

/-- The category of a cause. -/
def Cause.category : Cause → Category
  | ended _ => .early
  | wrongKind .. | duplicateField _ => .shape
  | _ => .malformed

/-- Wording of a cause. -/
def Cause.message : Cause → String
  | ended .list => "EOF while parsing a list"
  | ended .object => "EOF while parsing an object"
  | ended .string => "EOF while parsing a string"
  | ended .value => "EOF while parsing a value"
  | expectedColon => "expected \x60:\x60"
  | expectedListEnd => "expected \x60,\x60 or \x60]\x60"
  | expectedObjectEnd => "expected \x60,\x60 or \x60\x7d\x60"
  | expectedWord => "expected ident"
  | expectedValue => "expected value"
  | invalidEscape => "invalid escape"
  | invalidNumber => "invalid number"
  | numberOutOfRange => "number out of range"
  | controlCharacter =>
    "control character (\\u0000-\\u001F) found while parsing a string"
  | keyNotString => "key must be a string"
  | loneSurrogate => "lone leading surrogate in hex escape"
  | trailingComma => "trailing comma"
  | trailingCharacters => "trailing characters"
  | unfinishedPair => "unexpected end of hex escape"
  | wrongKind found wanted => "invalid type: " ++ found ++ ", expected " ++ wanted
  | duplicateField name => "duplicate field \x60" ++ name ++ "\x60"

/-- A cause and the byte offset of the scan. -/
structure Problem where
  cause : Cause
  offset : Nat
  deriving DecidableEq, Repr

/-- Line and column of a byte offset; columns count bytes, from zero. -/
def lineColumn (text : List Char) (offset : Nat) : Nat × Nat :=
  go text 0 (1, 0)
where
  /-- Counts on from an offset where the line has begun at the second number of the pair. -/
  go : List Char → Nat → Nat × Nat → Nat × Nat
    | [], _, (line, begun) => (line, offset - begun)
    | c :: cs, at_, (line, begun) =>
      if at_ < offset then
        go cs (at_ + c.utf8Size) (if c = '\n' then (line + 1, at_ + 1) else (line, begun))
      else (line, offset - begun)

/-- Wording of a problem in a text. -/
def Problem.message (p : Problem) (text : String) : String :=
  let (line, column) := lineColumn text.toList p.offset
  p.cause.message ++ " at line " ++ toString line ++ " column " ++ toString column

/-- The text ahead of a scan, and its offset. -/
structure Input where
  offset : Nat
  ahead : List Char

/-- The outcome of a scan. -/
abbrev Scan (α : Type) := Except Problem α

namespace Input

/-- Ends the scan here. -/
def fail {α : Type} (i : Input) (cause : Cause) : Scan α := .error ⟨cause, i.offset⟩

/-- Ends the scan at the next character. -/
def failNext {α : Type} (i : Input) (cause : Cause) : Scan α :=
  .error ⟨cause, if i.ahead.isEmpty then i.offset else i.offset + 1⟩

/-- The input `n` characters further on. -/
def drop (i : Input) (n : Nat) : Input :=
  ⟨i.offset + byteLength (i.ahead.take n), i.ahead.drop n⟩

/-- The characters that count as blanks in JSON. -/
def isBlank (c : Char) : Bool := c == ' ' || c == '\n' || c == '\t' || c == '\r'

/-- The input behind blanks. -/
def skipBlanks (i : Input) : Input := i.drop (i.ahead.takeWhile isBlank).length

/-- The next character behind blanks, and the input in front of it. -/
def peek (i : Input) : Option Char × Input :=
  let i := i.skipBlanks
  (i.ahead.head?, i)

end Input

/-! ## Words and numbers -/

/-- The rest of a word that has begun. -/
def word : List Char → Input → Scan Input
  | [], i => .ok i
  | c :: cs, i =>
    match i.ahead with
    | [] => i.fail (.ended .value)
    | d :: _ => if d = c then word cs (i.drop 1) else i.failNext .expectedWord

/-- The digits ahead and the input behind them. -/
def digits (i : Input) : List Char × Input :=
  let ds := i.ahead.takeWhile Char.isDigit
  (ds, i.drop ds.length)

/-- Where a number breaks off. A number that is passed over is merely invalid, while one that is
read may have been cut short. -/
def brokenNumber {α : Type} (passing : Bool) (i : Input) : Scan α :=
  if i.ahead.isEmpty && !passing then i.fail (.ended .value) else i.failNext .invalidNumber

/-- Exponents of numbers that are read stay below this bound. -/
def exponentBound : Nat := 2 ^ (31 : Nat)

/-- The exponent of a number, if there is one. Where a number is read that is not zero, an exponent
beyond the bound is a problem as soon as the digit that takes it there has been read. -/
def exponent (passing isZero : Bool) (i : Input) : Scan (Option Int × Input) :=
  match i.ahead with
  | c :: rest =>
    if c = 'e' ∨ c = 'E' then
      let negative := rest.head? == some '-'
      let i := i.drop (if negative || rest.head? == some '+' then 2 else 1)
      let (ds, after) := digits i
      let taken := (Decimal.appendDigits exponentBound 0 ds).2
      if ds.isEmpty then brokenNumber passing i
      else if !passing && !isZero && !negative && taken < ds.length then
        (i.drop (taken + 1)).fail .numberOutOfRange
      else .ok (some (if negative then -Decimal.natOf ds else Decimal.natOf ds), after)
    else .ok (none, i)
  | [] => .ok (none, i)

/-- A number without its sign. -/
def number (passing : Bool) (i : Input) : Scan (Decimal × Input) := do
  let (ds, rest) := digits i
  let whole ← match ds with
    | [] => brokenNumber passing i
    | '0' :: _ :: _ => (i.drop 1).failNext .invalidNumber
    | ds => pure ds
  let (fraction, rest) ← match rest.ahead with
    | '.' :: _ =>
      let (ds, rest) := digits (rest.drop 1)
      if ds.isEmpty then brokenNumber passing rest else pure (some ds, rest)
    | _ => pure (none, rest)
  let (exponent, rest) ← exponent passing (Decimal.isZero ⟨whole, fraction, none⟩) rest
  return (⟨whole, fraction, exponent⟩, rest)

/-! ## Strings -/

/-- Digits of hexadecimal numbers. -/
def isHex (c : Char) : Bool := c.isDigit || ('a' ≤ c && c ≤ 'f') || ('A' ≤ c && c ≤ 'F')

/-- The number that hexadecimal digits stand for. -/
def hexOf (ds : List Char) : Nat :=
  ds.foldl (fun n d => 16 * n +
    (if d.isDigit then d.toNat - 0x30 else if 'a' ≤ d then d.toNat - 0x57 else d.toNat - 0x37)) 0

/-- Four hexadecimal digits. They are cut off if fewer than four bytes are left. -/
def fourHex (i : Input) : Scan (Nat × Input) :=
  let ds := i.ahead.take 4
  if byteLength i.ahead < 4 then (i.drop 4).fail (.ended .string)
  else if ds.all isHex then .ok (hexOf ds, i.drop 4)
  else .error ⟨.invalidEscape, i.offset + 4⟩

/-- The second half of a surrogate pair. -/
def lowSurrogate (high : Nat) (i : Input) : Scan (Char × Input) :=
  match i.ahead with
  | [] => i.fail (.ended .string)
  | '\\' :: [] => (i.drop 1).fail (.ended .string)
  | '\\' :: 'u' :: _ => do
    let (low, i) ← fourHex (i.drop 2)
    if 0xDC00 ≤ low ∧ low ≤ 0xDFFF then
      return (Char.ofNat (0x10000 + (high - 0xD800) * 0x400 + (low - 0xDC00)), i)
    else i.fail .loneSurrogate
  | '\\' :: _ => .error ⟨.unfinishedPair, i.offset + 2⟩
  | _ => .error ⟨.unfinishedPair, i.offset + 1⟩

/-- What a backslash introduces. In a string that is passed over, surrogates are not paired. -/
def escape (passing : Bool) (i : Input) : Scan (Char × Input) :=
  let one := fun (c : Char) => (.ok (c, i.drop 1) : Scan (Char × Input))
  match i.ahead with
  | [] => i.fail (.ended .string)
  | '"' :: _ => one '"'
  | '\\' :: _ => one '\\'
  | '/' :: _ => one '/'
  | 'b' :: _ => one '\x08'
  | 'f' :: _ => one '\x0c'
  | 'n' :: _ => one '\n'
  | 'r' :: _ => one '\r'
  | 't' :: _ => one '\t'
  | 'u' :: _ => do
    let (unit, i) ← fourHex (i.drop 1)
    if passing then return (Char.ofNat unit, i)
    else if 0xDC00 ≤ unit ∧ unit ≤ 0xDFFF then i.fail .loneSurrogate
    else if 0xD800 ≤ unit ∧ unit ≤ 0xDBFF then lowSurrogate unit i
    else return (Char.ofNat unit, i)
  | _ => i.failNext .invalidEscape

/-- The characters of a string up to its closing quote, at most `bound` of them. -/
def charactersWithin (passing : Bool) : (bound : Nat) → Input → Scan (List Char × Input)
  | 0, i => i.fail (.ended .string)
  | bound + 1, i =>
    match i.ahead with
    | [] => i.fail (.ended .string)
    | '"' :: _ => .ok ([], i.drop 1)
    | '\\' :: _ => do
      let (c, i) ← escape passing (i.drop 1)
      let (cs, i) ← charactersWithin passing bound i
      return (c :: cs, i)
    | c :: _ =>
      if c.toNat < 0x20 then
        if passing then i.fail .controlCharacter else i.failNext .controlCharacter
      else do
        let (cs, i) ← charactersWithin passing bound (i.drop 1)
        return (c :: cs, i)

/-- A string behind its opening quote. Each of its characters takes one of the text, which bounds
their number. -/
def characters (passing : Bool) (i : Input) : Scan (List Char × Input) :=
  charactersWithin passing (i.ahead.length + 1) i

/-! ## Values that nobody asked for -/

/-- What encloses a value. -/
inductive Enclosure where
  | list
  | object
  deriving DecidableEq, Repr

/-- The part that an enclosure leaves unfinished. -/
def Enclosure.part : Enclosure → Part
  | list => .list
  | object => .object

/-- The bracket that closes an enclosure. -/
def Enclosure.closing : Enclosure → Char
  | list => ']'
  | object => '}'

/-- What is missing where neither a comma nor the closing bracket stands. -/
def Enclosure.expectedEnd : Enclosure → Cause
  | list => .expectedListEnd
  | object => .expectedObjectEnd

/-- The colon between a name and its value. -/
def colon (i : Input) : Scan Input :=
  match i.peek with
  | (some ':', i) => .ok (i.drop 1)
  | (some _, i) => i.failNext .expectedColon
  | (none, i) => i.failNext (.ended .object)

/-- The name of a field that is passed over, with its colon. -/
def passName (i : Input) : Scan Input :=
  match i.peek with
  | (some '"', i) => do
    let (_, i) ← characters true (i.drop 1)
    colon i
  | (some _, i) => i.failNext .keyNotString
  | (none, i) => i.failNext (.ended .object)

/-- A value without brackets, if one begins with this character. -/
def passScalar? (c : Char) (i : Input) : Option (Scan Input) :=
  if c = 'n' then some (word ['u', 'l', 'l'] (i.drop 1))
  else if c = 't' then some (word ['r', 'u', 'e'] (i.drop 1))
  else if c = 'f' then some (word ['a', 'l', 's', 'e'] (i.drop 1))
  else if c = '-' then some ((number true (i.drop 1)).map (·.2))
  else if c.isDigit then some ((number true i).map (·.2))
  else if c = '"' then some ((characters true (i.drop 1)).map (·.2))
  else none

mutual
/-- Passes over a value and then over the rest of what encloses it. -/
def passValue : (fuel : Nat) → List Enclosure → Input → Scan Input
  | 0, _, i => i.fail (.ended .value)
  | fuel + 1, stack, i =>
    match i.peek with
    | (none, i) => i.failNext (.ended .value)
    | (some '[', i) => passRest fuel false (.list :: stack) (i.drop 1)
    | (some '{', i) => passRest fuel false (.object :: stack) (i.drop 1)
    | (some c, i) =>
      match passScalar? c i with
      | some scanned => do
        let i ← scanned
        passRest fuel true stack i
      | none => i.failNext .expectedValue

/-- Passes over the rest of the innermost enclosure; `more` says whether a comma may follow. -/
def passRest : (fuel : Nat) → (more : Bool) → List Enclosure → Input → Scan Input
  | 0, _, _, i => i.fail (.ended .value)
  | _ + 1, _, [], i => .ok i
  | fuel + 1, more, e :: stack, i =>
    match i.peek with
    | (none, i) => i.failNext (.ended e.part)
    | (some c, i) =>
      if c = ',' ∧ more then passItem fuel e stack (i.drop 1)
      else if c = e.closing then passRest fuel true stack (i.drop 1)
      else if more then i.failNext e.expectedEnd
      else passItem fuel e stack i

/-- Passes over an item of the innermost enclosure and what follows it. -/
def passItem : (fuel : Nat) → Enclosure → List Enclosure → Input → Scan Input
  | 0, _, _, i => i.fail (.ended .value)
  | fuel + 1, .list, stack, i => passValue fuel (.list :: stack) i
  | fuel + 1, .object, stack, i => do
    let i ← passName i
    passValue fuel (.object :: stack) i
end

/-- Passes over a value. Between two characters of the text there are at most three turns. -/
def pass (i : Input) : Scan Input := passValue (3 * i.ahead.length + 3) [] i

/-! ## Values of the wrong kind -/

/-- The problem with a value that stands where another kind is wanted. Values without brackets are
read to their end first, and a problem inside goes before the wrong kind. -/
def wrongKind (wanted : String) (i : Input) : Problem :=
  let found := fun (what : String) (i : Input) => (⟨.wrongKind what wanted, i.offset⟩ : Problem)
  let orElse := fun (what : String) (scanned : Scan Input) =>
    match scanned with
    | .ok i => found what i
    | .error p => p
  let ofNumber := fun (negative : Bool) (i : Input) =>
    match number false i with
    | .error p => p
    | .ok (d, after) =>
      match d.toInteger? negative, d.toDouble? with
      | some n, _ => found ("integer \x60" ++ toString n ++ "\x60") after
      | none, some x =>
        found ("floating point \x60" ++ (if negative then "-" else "") ++ x.text ++ "\x60") after
      | none, none => ⟨.numberOutOfRange, after.offset⟩
  match i.ahead with
  | 'n' :: _ => orElse "null" (word ['u', 'l', 'l'] (i.drop 1))
  | 't' :: _ => orElse "boolean \x60true\x60" (word ['r', 'u', 'e'] (i.drop 1))
  | 'f' :: _ => orElse "boolean \x60false\x60" (word ['a', 'l', 's', 'e'] (i.drop 1))
  | '-' :: _ => ofNumber true (i.drop 1)
  | '"' :: _ =>
    match characters false (i.drop 1) with
    | .ok (cs, i) => found ("string " ++ Text.Literal.string (String.ofList cs)) i
    | .error p => p
  | '[' :: _ => found "sequence" i
  | '{' :: _ => found "map" i
  | c :: _ => if c.isDigit then ofNumber false i else ⟨.expectedValue, i.offset + 1⟩
  | [] => ⟨.expectedValue, i.offset⟩

end Packrat.Json
