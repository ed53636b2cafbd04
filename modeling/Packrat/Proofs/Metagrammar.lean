import Packrat.Notation.Lexeme
import Packrat.Proofs.Derivation

/-!
# The grammar of grammar text

The notation for grammars as a parsing expression grammar, production by production, in the form in
which it is documented. It is written down independently of the readers: characters are given by
their ranges, alternatives are spelled out even where they have a common beginning, and nothing
bounds the depth of nesting.

    grammar      = __ initializer? rule+
    initializer  = action ";"?
    rule         = identifier string? "=" choice ";"?
    choice       = sequence ("/" sequence)*
    sequence     = labeled* action / labeled*
    labeled      = identifier ":" prefixed / prefixed
    prefixed     = "&" action / "&" suffixed / "!" action / "!" suffixed / suffixed
    suffixed     = primary "?" / primary "*" / primary "+" / primary
    primary      = identifier !(string? "=") / literal / class / "." / "(" choice ")"

Every token takes what may stand behind it (`__`, here `skip`). A range in a class is a match of
`classRange`; a text that matches is still refused if such a range has its end before its beginning
(`RangesOrdered`). For that, a member of a class stands for the character that its spelling denotes.

## Main definitions

* `production`: the productions
* `RangesOrdered`: no range in a tree is inverted
-/

namespace Packrat.Notation

open Peg ParseTree

/-- The nonterminals of the notation. -/
inductive Symbol where
  | grammar
  | initializer
  | rule
  | choice
  | sequence
  | labeled
  | prefixed
  | suffixed
  | primary
  | action
  | braced
  | identifier
  | literal
  | string
  | quotedString
  | doubleQuotedCharacter
  | singleQuotedCharacter
  | escapeSequence
  | simpleEscape
  | zeroEscape
  | hexEscape
  | unicodeEscape
  | lineEndEscape
  | charClass
  | classRange
  | classCharacter
  | skip
  | lineEnd
  | comment
  deriving DecidableEq

/-- A fixed text and what may stand behind it. -/
def fixed (value : String) : Peg Symbol := seq (text value) (call .skip)

/-- The characters that end a line. -/
def lineEndChar : Peg Symbol := set [('\n', '\n'), ('\r', '\r'), ('\u2028', '\u2029')]

/-- Blanks: tab, vertical tab, form feed, the byte order mark and the space separators, of which the
Mongolian vowel separator was one. -/
def blank : Peg Symbol :=
  set [('\t', '\t'), ('\x0b', '\x0c'), (' ', ' '), ('\u00a0', '\u00a0'), ('\u1680', '\u1680'),
    ('\u180e', '\u180e'), ('\u2000', '\u200a'), ('\u202f', '\u202f'), ('\u205f', '\u205f'),
    ('\u3000', '\u3000'), ('\ufeff', '\ufeff')]

/-- Decimal digits. -/
def digit : Peg Symbol := set [('0', '9')]

/-- Hexadecimal digits. -/
def hexDigit : Peg Symbol := set [('0', '9'), ('a', 'f'), ('A', 'F')]

/-- The productions of the notation. -/
def production : Symbol → Peg Symbol
  -- __ initializer? rule+
  | .grammar => inOrder [call .skip, opt (call .initializer), atLeastOne (call .rule)]
  -- action ";"?
  | .initializer => inOrder [call .action, opt (fixed ";")]
  -- identifier string? "=" choice ";"?
  | .rule =>
    inOrder [call .identifier, opt (call .string), fixed "=", call .choice, opt (fixed ";")]
  -- sequence ("/" sequence)*
  | .choice => inOrder [call .sequence, many (inOrder [fixed "/", call .sequence])]
  -- labeled* action / labeled*
  | .sequence => firstOf [inOrder [many (call .labeled), call .action], many (call .labeled)]
  -- identifier ":" prefixed / prefixed
  | .labeled => firstOf [inOrder [call .identifier, fixed ":", call .prefixed], call .prefixed]
  -- "&" action / "&" suffixed / "!" action / "!" suffixed / suffixed
  | .prefixed =>
    firstOf [
      inOrder [fixed "&", call .action], inOrder [fixed "&", call .suffixed],
      inOrder [fixed "!", call .action], inOrder [fixed "!", call .suffixed], call .suffixed]
  -- primary "?" / primary "*" / primary "+" / primary
  | .suffixed =>
    firstOf [
      inOrder [call .primary, fixed "?"], inOrder [call .primary, fixed "*"],
      inOrder [call .primary, fixed "+"], call .primary]
  -- identifier !(string? "=") / literal / class / "." / "(" choice ")"
  | .primary =>
    firstOf [
      inOrder [call .identifier, absent (inOrder [opt (call .string), fixed "="])], call .literal,
      call .charClass, fixed ".", inOrder [fixed "(", call .choice, fixed ")"]]
  -- braced __
  | .action => inOrder [call .braced, call .skip]
  -- "{" (braced / [^{}]+)* "}"
  | .braced =>
    inOrder [text "\x7b",
      many (firstOf [call .braced, atLeastOne (char fun c => !(c == '{' || c == '}'))]),
      text "\x7d"]
  -- [a-zA-Z_$] [a-zA-Z0-9_$]* __
  | .identifier =>
    inOrder [set [('a', 'z'), ('A', 'Z'), ('_', '_'), ('$', '$')],
      many (set [('a', 'z'), ('A', 'Z'), ('0', '9'), ('_', '_'), ('$', '$')]), call .skip]
  -- (doubleQuotedString / singleQuotedString) "i"? __
  | .literal => inOrder [call .quotedString, opt (text "i"), call .skip]
  -- (doubleQuotedString / singleQuotedString) __
  | .string => inOrder [call .quotedString, call .skip]
  -- '"' doubleQuotedCharacter* '"' / "'" singleQuotedCharacter* "'"
  | .quotedString =>
    firstOf [
      inOrder [text "\"", many (call .doubleQuotedCharacter), text "\""],
      inOrder [text "'", many (call .singleQuotedCharacter), text "'"]]
  -- !('"' / "\\" / eolChar) . / escapeSequence
  | .doubleQuotedCharacter =>
    firstOf [
      inOrder [absent (firstOf [text "\"", text "\\", lineEndChar]), any], call .escapeSequence]
  -- !("'" / "\\" / eolChar) . / escapeSequence
  | .singleQuotedCharacter =>
    firstOf [
      inOrder [absent (firstOf [text "'", text "\\", lineEndChar]), any], call .escapeSequence]
  -- simpleEscape / zeroEscape / hexEscape / unicodeEscape / eolEscape
  | .escapeSequence =>
    firstOf [
      call .simpleEscape, call .zeroEscape, call .hexEscape, call .unicodeEscape,
      call .lineEndEscape]
  -- "\\" !(digit / "x" / "u" / eolChar) .
  | .simpleEscape =>
    inOrder [text "\\", absent (firstOf [digit, text "x", text "u", lineEndChar]), any]
  -- "\\0" !digit
  | .zeroEscape => inOrder [text "\\0", absent digit]
  -- "\\x" hexDigit{2}
  | .hexEscape => inOrder [text "\\x", times 2 hexDigit]
  -- "\\u" hexDigit{4}
  | .unicodeEscape => inOrder [text "\\u", times 4 hexDigit]
  -- "\\" eol
  | .lineEndEscape => inOrder [text "\\", call .lineEnd]
  -- "[" "^"? (classCharacterRange / classCharacter)* "]" "i"? __
  | .charClass =>
    inOrder [text "[", opt (text "^"), many (firstOf [call .classRange, call .classCharacter]),
      text "]", opt (text "i"), call .skip]
  -- classCharacter "-" classCharacter
  | .classRange => inOrder [call .classCharacter, text "-", call .classCharacter]
  -- !("]" / "\\" / eolChar) . / escapeSequence
  | .classCharacter =>
    firstOf [
      inOrder [absent (firstOf [text "]", text "\\", lineEndChar]), any], call .escapeSequence]
  -- (whitespace / eol / comment)*
  | .skip => many (firstOf [blank, call .lineEnd, call .comment])
  -- "\n" / "\r\n" / "\r" / "\u2028" / "\u2029"
  | .lineEnd => firstOf [text "\n", text "\r\n", text "\r", text "\u2028", text "\u2029"]
  -- "//" (!eolChar .)* / "/*" (!"*/" .)* "*/"
  | .comment =>
    firstOf [
      inOrder [text "//", many (inOrder [absent lineEndChar, any])],
      inOrder [text "/*", many (inOrder [absent (text "*/"), any]), text "*/"]]

/-! ### Ranges -/

/-- The character that a member of a class denotes, by its spelling. -/
def denoted : List Char → Char
  | '\\' :: 'x' :: digits | '\\' :: 'u' :: digits => charOfCode (hexNumber digits)
  | ['\\', '0'] => '\x00'
  | '\\' :: c :: _ => escapedChar c
  | c :: _ => c
  | [] => '\x00'

/-- The trees between two class brackets of a range, by the trees of its ends. -/
def rangeTree (first last : List (ParseTree Symbol)) : ParseTree Symbol :=
  .node .classRange [.node .classCharacter first, .leaf '-', .node .classCharacter last]

/-- No range in the tree has its end before its beginning. -/
def RangesOrdered (tree : ParseTree Symbol) : Prop :=
  ∀ first last, (rangeTree first last).Within tree →
    denoted (textAll first) ≤ denoted (textAll last)

/-- A range in one of the trees has its end before its beginning. -/
def Inverted (ts : List (ParseTree Symbol)) : Prop :=
  ∃ t ∈ ts, ∃ first last, (rangeTree first last).Within t ∧
    denoted (textAll last) < denoted (textAll first)

theorem rangesOrdered_iff {tree : ParseTree Symbol} : RangesOrdered tree ↔ ¬ Inverted [tree] := by
  constructor
  · rintro h ⟨_, ht, first, last, hwithin, hlt⟩
    obtain rfl := List.mem_singleton.mp ht
    exact absurd hlt (Char.not_lt.mpr (h first last hwithin))
  · intro h first last hwithin
    refine Char.not_lt.mp fun hlt => h ?_
    exact ⟨tree, List.mem_singleton.mpr rfl, first, last, hwithin, hlt⟩

theorem not_inverted_nil : ¬ Inverted [] := nofun

theorem inverted_append {ts us : List (ParseTree Symbol)} :
    Inverted (ts ++ us) ↔ Inverted ts ∨ Inverted us := by
  simp only [Inverted, List.mem_append, or_and_right, exists_or]

/-- A nonterminal other than a range adds no range. -/
theorem inverted_node {a : Symbol} (ha : a ≠ .classRange) {ts : List (ParseTree Symbol)} :
    Inverted [.node a ts] ↔ Inverted ts := by
  constructor
  · rintro ⟨_, ht, first, last, hwithin, hlt⟩
    obtain rfl := List.mem_singleton.mp ht
    cases hwithin with
    | self => exact absurd rfl ha
    | child hu hwithin => exact ⟨_, hu, first, last, hwithin, hlt⟩
  · rintro ⟨t, ht, first, last, hwithin, hlt⟩
    exact ⟨_, List.mem_singleton.mpr rfl, first, last, .child ht hwithin, hlt⟩

/-- Nonterminals below which there are no classes. -/
def Symbol.isLexical : Symbol → Bool
  | .grammar | .rule | .choice | .sequence | .labeled | .prefixed | .suffixed | .primary
  | .charClass | .classRange => false
  | _ => true

/-- An expression without classes. -/
abbrev Lexical (e : Peg Symbol) : Prop := e.callsOnly Symbol.isLexical = true

theorem lexical_fixed (value : String) : Lexical (fixed value) := by
  rw [Lexical, fixed, callsOnly, Peg.text, callsOnly_chars]
  rfl

theorem lexical_production {a : Symbol} (ha : a.isLexical = true) : Lexical (production a) := by
  cases a <;> first | rfl | nomatch ha

/-- Without classes there are no ranges. -/
theorem not_inverted_of_lexical {e : Peg Symbol} (he : Lexical e) {cs rest : List Char}
    {ts : List (ParseTree Symbol)} (h : Derives production e cs (some (ts, rest))) :
    ¬ Inverted ts := by
  rintro ⟨t, ht, first, last, hwithin, -⟩
  have hkind := h.kind_of_within (fun _ => lexical_production) he ht hwithin
  nomatch hkind

end Packrat.Notation
