import Packrat.Grammar.Basic
import Packrat.Notation.Lexeme

/-!
# Grammars as text

A grammar can be written so that nothing about it is left to the reader of the text: every operand
that is not an atom stands in parentheses, every character of a literal, a display name or a class
is written by its code in four hexadecimal digits, every rule ends with a semicolon, and a blank
stands behind every token.

Only grammars in normal form can be written: a display name belongs to the body of a rule and is
written in front of it, and forms with one part are what they contain. What the lexemes may be, the
normal form leaves open: a `Vocabulary` says it. Any text is a display name for a reader, but it
takes characters up to `U+FFFF` to write it with four digits each.

## Main definitions

* `Grammar.isNormal`: the normal form, over a vocabulary
* `Vocabulary.basic`: lexemes that can be written with four digits for a character
* `Grammar.render`: the text of a grammar
* `Grammar.withoutSpans`: a grammar up to where its parts stand
-/

namespace Packrat

/-! ### Lexemes -/

/-- Whether a text is spelled like an identifier. -/
def isIdentifier (name : String) : Bool :=
  match name.toList with
  | [] => false
  | c :: cs => Notation.isIdentifierHead c && cs.all Notation.isIdentifierTail

/-- Whether braces match, where `opened` more are closed than opened. -/
def balancedFrom : (opened : Nat) → List Char → Bool
  | opened, [] => opened == 0
  | opened, c :: cs =>
    if c = '{' then balancedFrom (opened + 1) cs
    else if c = '}' then opened != 0 && balancedFrom (opened - 1) cs
    else balancedFrom opened cs

/-- Whether every brace in a text has its counterpart. -/
def isBalanced (code : String) : Bool := balancedFrom 0 code.toList

/-- Whether a character is written with four hexadecimal digits. -/
def isBasic (c : Char) : Bool := c.toNat ≤ 0xFFFF

namespace ClassPart

/-- Whether the ends of a range are in order. -/
def isOrdered : ClassPart → Bool
  | single _ => true
  | range first last => first ≤ last

/-- The characters that an entry is written with. -/
def ends : ClassPart → List Char
  | single c => [c]
  | range first last => [first, last]

end ClassPart

/-- What the lexemes of a grammar may be. -/
structure Vocabulary where
  /-- Names of rules and labels. -/
  name : String → Bool
  /-- Texts of code blocks. -/
  code : String → Bool
  /-- Texts of literals and display names. -/
  text : String → Bool
  part : ClassPart → Bool

/-- Lexemes that can be written, if characters are written with four hexadecimal digits. -/
def Vocabulary.basic : Vocabulary where
  name := isIdentifier
  code := isBalanced
  text s := s.toList.all isBasic
  part p := p.isOrdered && p.ends.all isBasic

/-! ### Normal form -/

/-- Whether no slots are assigned. -/
def Info.isUnassigned (i : Info) : Bool := i.result.isNone && i.place.isNone

namespace Expr

variable (v : Vocabulary)

mutual
/-- Whether an expression without a display name is in normal form. -/
def isNormal : Expr → Bool
  | named .. => false
  | choice i items => i.isUnassigned && 2 ≤ items.length && areNormal items
  | action i code params body =>
    i.isUnassigned && v.code code && params.isEmpty && body.isNormal
  | sequence i items => i.isUnassigned && items.length != 1 && areNormal items
  | labeled i label body => i.isUnassigned && v.name label && body.isNormal
  | lookahead i _ body | optional i body | repeated i _ body => i.isUnassigned && body.isNormal
  | predicate i _ code params => i.isUnassigned && v.code code && params.isEmpty
  | ruleRef i name => i.isUnassigned && v.name name
  | literal i value _ => i.isUnassigned && v.text value
  | charClass i members raw =>
    i.isUnassigned && members.parts.all v.part && raw == Notation.rawClass members
  | any i => i.isUnassigned

/-- Whether several expressions are in normal form. -/
def areNormal : List Expr → Bool
  | [] => true
  | e :: es => e.isNormal && areNormal es
end

theorem areNormal_iff {items : List Expr} :
    areNormal v items = true ↔ ∀ e ∈ items, e.isNormal v = true := by
  induction items with
  | nil => simp [areNormal]
  | cons e es ih => simp [areNormal, ih]

/-- Whether the body of a rule is in normal form. -/
def isNormalBody : Expr → Bool
  | named i name body => i.isUnassigned && v.text name && body.isNormal v
  | e => e.isNormal v

theorem isNormalBody_of_isNormal {e : Expr} (h : e.isNormal v = true) :
    e.isNormalBody v = true := by
  cases e with
  | named _ _ _ => nomatch h
  | _ => exact h

end Expr

/-- Whether a rule is in normal form. -/
def Rule.isNormal (v : Vocabulary) (r : Rule) : Bool :=
  v.name r.name && r.body.isNormalBody v && r.registers == 0

/-- Whether a grammar is in normal form. -/
def Grammar.isNormal (v : Vocabulary) (g : Grammar) : Bool :=
  g.initializer.all (fun i => v.code i.code) && !g.rules.isEmpty && g.rules.all (·.isNormal v)

/-! ### Up to spans -/

/-- The information without the span. -/
def Info.withoutSpan (i : Info) : Info := { i with span := default }

namespace Expr

mutual
/-- The expression without the spans in it. -/
def withoutSpans : Expr → Expr
  | named i name body => named i.withoutSpan name body.withoutSpans
  | choice i items => choice i.withoutSpan (allWithoutSpans items)
  | action i code params body => action i.withoutSpan code params body.withoutSpans
  | sequence i items => sequence i.withoutSpan (allWithoutSpans items)
  | labeled i label body => labeled i.withoutSpan label body.withoutSpans
  | lookahead i negated body => lookahead i.withoutSpan negated body.withoutSpans
  | predicate i negated code params => predicate i.withoutSpan negated code params
  | optional i body => optional i.withoutSpan body.withoutSpans
  | repeated i nonempty body => repeated i.withoutSpan nonempty body.withoutSpans
  | ruleRef i name => ruleRef i.withoutSpan name
  | literal i value ignoreCase => literal i.withoutSpan value ignoreCase
  | charClass i members raw => charClass i.withoutSpan members raw
  | any i => any i.withoutSpan

/-- Several expressions without the spans in them. -/
def allWithoutSpans : List Expr → List Expr
  | [] => []
  | e :: es => e.withoutSpans :: allWithoutSpans es
end

end Expr

/-- The rule without the spans in it. -/
def Rule.withoutSpans (r : Rule) : Rule :=
  { r with span := default, body := r.body.withoutSpans }

/-- The grammar without the spans in it. -/
def Grammar.withoutSpans (g : Grammar) : Grammar :=
  { g with
    initializer := g.initializer.map fun i => { i with span := default }
    rules := g.rules.map Rule.withoutSpans }

/-! ### Text -/

/-- A character by its code, in four hexadecimal digits. -/
def unitEscape (c : Char) : List Char := '\\' :: 'u' :: Text.hexDigits 4 c.toNat

/-- A token with a blank behind it. -/
def spaced (token : List Char) : List Char := token ++ [' ']

/-- A text between double quotes, each character by its code. -/
def quotedUnits (s : String) : List Char := '"' :: (s.toList.flatMap unitEscape ++ ['"'])

/-- A code block. -/
def block (code : String) : List Char := '{' :: (code.toList ++ ['}'])

/-- A case flag. -/
def caseFlag (ignoreCase : Bool) : List Char := if ignoreCase then ['i'] else []

/-- A class entry, where `spell` writes characters. -/
def ClassPart.spelled (spell : Char → List Char) : ClassPart → List Char
  | single c => spell c
  | range first last => spell first ++ '-' :: spell last

/-- A class, where `spell` writes characters. -/
def CharClass.spelled (spell : Char → List Char) (k : CharClass) : List Char :=
  '[' :: ((if k.inverted then ['^'] else []) ++
    (k.parts.flatMap (·.spelled spell) ++ ']' :: caseFlag k.ignoreCase))

namespace Expr

/-- Whether an expression has no operators and no parts. -/
def isAtom : Expr → Bool
  | ruleRef .. | literal .. | charClass .. | any .. => true
  | named .. | choice .. | action .. | sequence .. | labeled .. | lookahead .. | predicate ..
  | optional .. | repeated .. => false

/-- A text in parentheses. -/
def enclosed (text : List Char) : List Char := spaced ['('] ++ (text ++ spaced [')'])

/-- A prefix operator. -/
def prefixMark (negated : Bool) : Char := if negated then '!' else '&'

/-- The suffix operator of a repetition. -/
def repetitionMark (nonempty : Bool) : Char := if nonempty then '+' else '*'

mutual
/-- The text of an expression. A display name has no place in it. -/
def render : Expr → List Char
  | named _ _ body => body.render
  | choice _ items => (spaced ['/']).intercalate (operands items)
  | action _ code _ body =>
    (if body.isAtom then body.render else enclosed body.render) ++ spaced (block code)
  | sequence _ items => (operands items).flatten
  | labeled _ label body =>
    spaced label.toList ++
      (spaced [':'] ++ (if body.isAtom then body.render else enclosed body.render))
  | lookahead _ negated body =>
    spaced [prefixMark negated] ++ (if body.isAtom then body.render else enclosed body.render)
  | predicate _ negated code _ => spaced [prefixMark negated] ++ spaced (block code)
  | optional _ body =>
    (if body.isAtom then body.render else enclosed body.render) ++ spaced ['?']
  | repeated _ nonempty body =>
    (if body.isAtom then body.render else enclosed body.render) ++ spaced [repetitionMark nonempty]
  | ruleRef _ name => spaced name.toList
  | literal _ value ignoreCase => spaced (quotedUnits value ++ caseFlag ignoreCase)
  | charClass _ members _ => spaced (members.spelled unitEscape)
  | any _ => spaced ['.']

/-- The texts of several operands. -/
def operands : List Expr → List (List Char)
  | [] => []
  | e :: es => (if e.isAtom then e.render else enclosed e.render) :: operands es
end

/-- The text of an operand: in parentheses, unless it is an atom. -/
def operand (e : Expr) : List Char := if e.isAtom then e.render else enclosed e.render

theorem operands_eq_map (items : List Expr) : operands items = items.map operand := by
  induction items with
  | nil => rfl
  | cons e es ih => rw [operands, ih, List.map_cons, operand]

theorem render_of_isAtom {e : Expr} (h : e.isAtom = true) : e.render = e.operand := (if_pos h).symm

theorem render_action (i : Info) (code : String) (params : Params) (body : Expr) :
    (action i code params body).render = body.operand ++ spaced (block code) := rfl

theorem render_labeled (i : Info) (label : String) (body : Expr) :
    (labeled i label body).render = spaced label.toList ++ (spaced [':'] ++ body.operand) := rfl

theorem render_lookahead (i : Info) (negated : Bool) (body : Expr) :
    (lookahead i negated body).render = spaced [prefixMark negated] ++ body.operand := rfl

theorem render_optional (i : Info) (body : Expr) :
    (optional i body).render = body.operand ++ spaced ['?'] := rfl

theorem render_repeated (i : Info) (nonempty : Bool) (body : Expr) :
    (repeated i nonempty body).render = body.operand ++ spaced [repetitionMark nonempty] := rfl

theorem render_sequence (i : Info) (items : List Expr) :
    (sequence i items).render = items.flatMap operand := by
  rw [render, operands_eq_map, ← List.flatMap_def]

theorem render_choice (i : Info) (e : Expr) (es : List Expr) :
    (choice i (e :: es)).render = e.operand ++ es.flatMap fun e => spaced ['/'] ++ e.operand := by
  rw [render, operands_eq_map]
  induction es generalizing e with
  | nil => rw [List.map_singleton, List.intercalate_singleton, List.flatMap_nil, List.append_nil]
  | cons e' es ih =>
    rw [List.map_cons, List.map_cons, List.intercalate_cons_cons, ← List.map_cons, ih,
      List.flatMap_cons]
    simp only [List.append_assoc]

end Expr

/-- The display name of a rule. -/
def Rule.displayName (r : Rule) : Option String :=
  match r.body with
  | .named _ name _ => some name
  | _ => none

/-- The text of a display name, if there is one. -/
def displayed : Option String → List Char
  | some name => spaced (quotedUnits name)
  | none => []

/-- The text of a rule. -/
def Rule.render (r : Rule) : List Char :=
  spaced r.name.toList ++
    (displayed r.displayName ++ (spaced ['='] ++ (r.body.render ++ spaced [';'])))

/-- The text of an initializer. -/
def Initializer.render (i : Initializer) : List Char := block i.code ++ spaced [';']

/-- The text of a grammar. -/
def Grammar.render (g : Grammar) : String :=
  String.ofList ((g.initializer.map Initializer.render).getD [] ++ g.rules.flatMap Rule.render)

end Packrat
