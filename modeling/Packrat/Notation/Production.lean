import Packrat.Grammar.Basic
import Packrat.Notation.Lexeme

/-!
# Grammar text

The productions of the notation for grammars, each a reader of the same name.

    grammar      = initializer? rule+
    initializer  = action ";"?
    rule         = identifier string? "=" choice ";"?
    choice       = sequence ("/" sequence)*
    sequence     = labeled* action / labeled*
    labeled      = identifier ":" prefixed / prefixed
    prefixed     = "&" action / "&" suffixed / "!" action / "!" suffixed / suffixed
    suffixed     = primary "?" / primary "*" / primary "+" / primary
    primary      = identifier !(string? "=") / literal / class / "." / "(" choice ")"

Forms with one part leave no trace: a choice with one alternative, a sequence with one element and a
pair of parentheses are what they contain. A rule needs no `;` at its end, since an identifier that
an `=` follows, with or without a display name between, is never read as a reference.

Only parentheses lead back to `choice`, and each pair takes a character of the text, so the length
of the text bounds the depth of the recursion.
-/

namespace Packrat.Notation

open Reader

/-- An expression with the span consumed since a cursor. -/
def spanned (begun : Cursor) (build : Info → Expr) : Reader Expr := do
  return build ⟨← spanSince begun, none, none⟩

section

variable (choice : Reader Expr)

/-- A reference, unless the identifier begins the next rule. Its span is that of the name alone. -/
def ruleReference : Reader Expr := attempt do
  let begun ← cursor
  let name ← identifier
  let beginsRule ← peek do
    let _ ← option string
    token "="
  if beginsRule then fail
  else
    let span := Span.between begun.offset (begun.offset + name.utf8ByteSize)
    return .ruleRef ⟨span, none, none⟩ name

/-- An expression in parentheses. -/
def parenthesized : Reader Expr := attempt do
  token "("
  let e ← choice
  token ")"
  return e

/-- An expression without operators. -/
def primary : Reader Expr := do
  let begun ← cursor
  ruleReference <|>
    (do
      let (value, ignoreCase) ← literal
      spanned begun (.literal · value ignoreCase)) <|>
    (do
      let members ← charClass
      spanned begun (.charClass · members (rawClass members))) <|>
    (do
      token "."
      spanned begun .any) <|>
    parenthesized choice

/-- The expression that a suffix operator makes of another. -/
def suffixOperator : Reader (Expr → Info → Expr) :=
  (do token "?"; return fun e i => .optional i e) <|>
    (do token "*"; return fun e i => .repeated i false e) <|>
    (do token "+"; return fun e i => .repeated i true e)

/-- An expression that a suffix operator may follow. -/
def suffixed : Reader Expr := do
  let begun ← cursor
  let e ← primary choice
  match ← option suffixOperator with
  | some build => spanned begun (build e)
  | none => return e

/-- A code block or an expression behind one of the operators `&` and `!`. -/
def predicateOf (operator : String) (negated : Bool) : Reader Expr := do
  let begun ← cursor
  (do
    let code ← attempt do
      token operator
      action
    spanned begun (.predicate · negated code [])) <|>
  (do
    let e ← attempt do
      token operator
      suffixed choice
    spanned begun (.lookahead · negated e))

/-- An expression that a prefix operator may precede. -/
def prefixed : Reader Expr :=
  predicateOf choice "&" false <|> predicateOf choice "!" true <|> suffixed choice

/-- An expression that a label may precede. -/
def labeled : Reader Expr :=
  (attempt do
    let begun ← cursor
    let label ← identifier
    token ":"
    let e ← prefixed choice
    spanned begun (.labeled · label e)) <|> prefixed choice

/-- Expressions one after the other, and a code block for what they match. -/
def sequence : Reader Expr := do
  let begun ← cursor
  let e ← match ← many (labeled choice) with
    | [e] => pure e
    | es => spanned begun (.sequence · es)
  match ← option action with
  | some code => spanned begun (.action · code [] e)
  | none => return e

/-- Alternatives between slashes, where `choice` reads what is in parentheses. -/
def choiceWith : Reader Expr := do
  let begun ← cursor
  let first ← sequence choice
  match ← many (attempt do token "/"; sequence choice) with
  | [] => return first
  | rest => spanned begun (.choice · (first :: rest))

end

/-- Alternatives between slashes, with parentheses nested no deeper than `depth`. -/
def choiceWithin : (depth : Nat) → Reader Expr
  | 0 => fail
  | depth + 1 => choiceWith (choiceWithin depth)

/-- Alternatives between slashes. -/
def choice : Reader Expr := do
  choiceWithin ((← cursor).ahead.length + 1)

/-- A rule; a display name makes its body a named expression. -/
def rule : Reader Rule := attempt do
  let begun ← cursor
  let name ← identifier
  let displayName ← option string
  token "="
  let e ← choice
  let _ ← option (token ";")
  let body := match displayName with
    | some displayName => .named ⟨e.span, none, none⟩ displayName e
    | none => e
  return ⟨← spanSince begun, name, body, 0⟩

/-- The code block in front of the rules. -/
def initializer : Reader Initializer := do
  let begun ← cursor
  let code ← action
  let _ ← option (token ";")
  return ⟨← spanSince begun, code⟩

/-- A whole grammar; it starts with its first rule. -/
def grammar : Reader Grammar := attempt do
  skip
  let front ← option initializer
  match ← many rule with
  | [] => fail
  | first :: rest => return ⟨front, first :: rest, first.name⟩

end Packrat.Notation

/-- Reads a grammar text. -/
def Packrat.Grammar.parse (source : String) : Except Packrat.GrammarError Packrat.Grammar :=
  Packrat.Notation.grammar.run source
