/-!
# Escapes for messages

Messages and failure descriptions stay printable whatever the input holds. A control character or
one beyond ASCII is written by its code in two hexadecimal digits, or, past `U+00FF`, by its UTF-16
units in four digits each. `quote` writes a whole text between double quotes; `escapeMember` writes
one member of a character class, where other characters need a backslash.
-/

namespace Packrat.Text

/-- The digit of a number below sixteen. -/
def hexDigit (n : Nat) : Char := Char.ofNat (if n < 10 then 0x30 + n else 0x37 + n)

/-- The lowest `width` hexadecimal digits, most significant first. -/
def hexDigits : (width : Nat) → Nat → List Char
  | 0, _ => []
  | width + 1, n => hexDigits width (n / 16) ++ [hexDigit (n % 16)]

@[simp] theorem length_hexDigits (width n : Nat) : (hexDigits width n).length = width := by
  induction width generalizing n with
  | zero => rfl
  | succ width ih => simp [hexDigits, ih]

/-- The UTF-16 units of a character: itself, or a surrogate pair past `U+FFFF`. -/
def utf16Units (c : Char) : List Nat :=
  if c.toNat ≤ 0xFFFF then [c.toNat]
  else [0xD800 + (c.toNat - 0x10000) / 0x400, 0xDC00 + (c.toNat - 0x10000) % 0x400]

/-- A character written by its code. -/
def escapeByCode (c : Char) : List Char :=
  if c.toNat ≤ 0xFF then '\\' :: 'x' :: hexDigits 2 c.toNat
  else (utf16Units c).flatMap fun u => '\\' :: 'u' :: hexDigits 4 u

/-- Control characters of the first block and everything beyond ASCII. -/
def needsCode (c : Char) : Bool := c.toNat < 0x20 || 0x80 ≤ c.toNat

/-- A character as it stands between double quotes. -/
def quoteChar (c : Char) : List Char :=
  match c with
  | '\\' => ['\\', '\\']
  | '"' => ['\\', '"']
  | '\x08' => ['\\', 'b']
  | '\t' => ['\\', 't']
  | '\n' => ['\\', 'n']
  | '\x0c' => ['\\', 'f']
  | '\r' => ['\\', 'r']
  | c => if needsCode c then escapeByCode c else [c]

/-- The characters between double quotes, escaped. -/
def quoteChars (cs : List Char) : List Char := '"' :: cs.flatMap quoteChar ++ ['"']

/-- The text between double quotes, escaped. -/
def quote (s : String) : String := String.ofList (quoteChars s.toList)

/-- A character as it stands between the brackets of a class. -/
def escapeMember (c : Char) : List Char :=
  match c with
  | '\\' => ['\\', '\\']
  | '/' => ['\\', '/']
  | ']' => ['\\', ']']
  | '-' => ['\\', '-']
  | '\x00' => ['\\', '0']
  | '\t' => ['\\', 't']
  | '\n' => ['\\', 'n']
  | '\x0b' => ['\\', 'x', '0', 'B']
  | '\x0c' => ['\\', 'f']
  | '\r' => ['\\', 'r']
  | c => if needsCode c then escapeByCode c else [c]

end Packrat.Text
