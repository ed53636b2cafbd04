import Packrat.Text.Printable

/-!
# Rust literals

String and character literals of emitted source. A character that shows itself stands as it is; the
others are written `\u{…}` with the fewest hexadecimal digits, and the usual escapes go before
both. Only the delimiter of the literal itself is escaped among the two quotes.
-/

namespace Packrat.Text.Literal

/-- The fewest hexadecimal digits of a code. -/
def codeDigits (c : Char) : List Char := Nat.toDigits 16 c.toNat

/-- A character inside a literal that `delimiter` closes. -/
def escape (delimiter : Char) (c : Char) : List Char :=
  if c = delimiter then ['\\', c]
  else match c with
    | '\x00' => ['\\', '0']
    | '\t' => ['\\', 't']
    | '\n' => ['\\', 'n']
    | '\r' => ['\\', 'r']
    | '\\' => ['\\', '\\']
    | c => if isPrintable c then [c] else ['\\', 'u', '{'] ++ codeDigits c ++ ['}']

/-- A string literal. -/
def string (s : String) : String :=
  String.ofList ('"' :: s.toList.flatMap (escape '"') ++ ['"'])

/-- A character literal. -/
def char (c : Char) : String := String.ofList ('\'' :: escape '\'' c ++ ['\''])

end Packrat.Text.Literal
