import Packrat.Emit.Name
import Packrat.Emit.Statement
import Packrat.Options
import Packrat.Text.Literal

/-!
# Emitted source

A program is written out as one Rust module: an entry point that picks the rule to start from, a
function for each rule, and a function for each code block, which takes the offset, the line and
column if they are tracked, and the labels in view. The module relies on a support library for the
state of the parse and its registers, and the text of the initializer goes in front of everything it
declares. The text is not laid out: every line starts in the first column.
-/

namespace Packrat.Emit

open Text (Literal.string Literal.char)

/-- Text in braces on one line. -/
def inBraces (content : String) : String := "\x7b " ++ content ++ " \x7d"

/-- The label of a block. -/
def Label.text : Label → String
  | choice n => "'c" ++ toString n
  | sequence n => "'s" ++ toString n

/-- The variable of the items of a repetition. -/
def itemsVariable (number : Nat) : String := "items" ++ toString number

/-- The variable of the offset at which a pass of a repetition began. -/
def beforeVariable (number : Nat) : String := "before" ++ toString number

/-- A truth value. -/
def boolText (b : Bool) : String := if b then "true" else "false"

/-- An entry of a character class. -/
def partText : ClassPart → String
  | .single c => "ClassPart::Char(" ++ Literal.char c ++ "), "
  | .range first last =>
    "ClassPart::Range(" ++ Literal.char first ++ ", " ++ Literal.char last ++ "), "

/-- An expression for an outcome. -/
def Outcome.text : Outcome → String
  | noMatch => "None"
  | emptyMatch => "Some(empty())"
  | answer => "Some(value)"
  | verdict negated => "(" ++ (if negated then "!" else "") ++ "pass).then(empty)"
  | elements => "Some(Value::Array(items))"
  | items n nonempty =>
    let all := "Some(Value::Array(" ++ itemsVariable n ++ "))"
    if nonempty then
      "if " ++ itemsVariable n ++ ".is_empty() " ++ inBraces "None" ++ " else " ++ inBraces all
    else all
  | rule function => function ++ "(s)?"
  | literal value ignoreCase description =>
    "s." ++ (if ignoreCase then "literal_ignore_case" else "literal") ++ "("
      ++ Literal.string value ++ ", " ++ Literal.string description ++ ")"
  | charClass members description =>
    "s.class(&CharClass \x7b parts: &[" ++ String.join (members.parts.map partText)
      ++ "], inverted: " ++ boolText members.inverted ++ ", ignore_case: "
      ++ boolText members.ignoreCase ++ " \x7d, " ++ Literal.string description ++ ")"
  | any => "s.any()"

/-- The arguments of a code function that is called at a place. -/
def argumentList (options : Options) (place : String) (slots : List Nat) : List String :=
  (place ++ ".offset()")
    :: (if options.trackLines then [place ++ ".line", place ++ ".column"] else [])
    ++ slots.map fun slot => "r.value(" ++ toString slot ++ ")"

/-- The parameters of a code function that sees these labels. -/
def parameterList (options : Options) (labels : List String) : List String :=
  "offset: usize"
    :: (if options.trackLines then ["line: usize", "column: usize"] else [])
    ++ (parameters labels).map fun name => name ++ ": &Value"

/-- A code function has a parameter for each of its arguments if it has one for each label. -/
theorem length_argumentList {options : Options} {slots : List Nat} {labels : List String}
    (h : slots.length = (parameters labels).length) (place : String) :
    (argumentList options place slots).length = (parameterList options labels).length := by
  cases hlines : options.trackLines <;> simp [argumentList, parameterList, hlines, h]

/-- A list in parentheses. -/
def inParens (items : List String) : String := "(" ++ ", ".intercalate items ++ ")"

/-- The test whether a slot holds a match. -/
def isMatchText (slot : Nat) : String := "r.is_match(" ++ toString slot ++ ")"

mutual
/-- A statement without the line end behind it. -/
def Stmt.text (options : Options) : Stmt → String
  | .suspend => "s.silence();"
  | .resume => "s.unsilence();"
  | .fail description => "s.fail(" ++ Literal.string description ++ ");"
  | .savePlace slot => "r.set_pos(" ++ toString slot ++ ", s.save());"
  | .restorePlace slot => "s.restore(r.pos(" ++ toString slot ++ "));"
  | .beginAt slot => "let start = r.pos(" ++ toString slot ++ ");"
  | .restoreStart => "s.restore(start);"
  | .set slot outcome => "r.set(" ++ toString slot ++ ", " ++ outcome.text ++ ");"
  | .runAction call =>
    "let value = action_" ++ toString call.site
      ++ inParens (argumentList options "start" call.slots) ++ "?;"
  | .runPredicate call =>
    "let pass = predicate_" ++ toString call.site
      ++ inParens (argumentList options "s.pos()" call.slots) ++ "?;"
  | .gather slots =>
    "let items = vec!["
      ++ String.join (slots.map fun slot => "r.value(" ++ toString slot ++ ").clone(), ") ++ "];"
  | .startItems n => "let mut " ++ itemsVariable n ++ " = Vec::new();"
  | .markOffset n => "let " ++ beforeVariable n ++ " = s.offset();"
  | .takeItem slot n =>
    "match r.take(" ++ toString slot ++ ") "
      ++ inBraces ("Some(item) => " ++ itemsVariable n ++ ".push(item), None => break")
  | .stopUnlessMoved n => "if s.offset() == " ++ beforeVariable n ++ " " ++ inBraces "break;"
  | .leave label => "break " ++ label.text ++ ";"
  | .ifMatch slot yes [] => "if " ++ isMatchText slot ++ " " ++ inBraces (oneLine options yes)
  | .ifMatch slot yes (n :: no) =>
    "if " ++ isMatchText slot ++ " " ++ inBraces (oneLine options yes) ++ " else "
      ++ inBraces (oneLine options (n :: no))
  | .unlessMatch slot body => "if !" ++ isMatchText slot ++ " " ++ inBraces (oneLine options body)
  | .onMatch slot body =>
    "if " ++ isMatchText slot ++ " \x7b\n" ++ lines options body ++ "\x7d"
  | .ifRefused yes no =>
    "if value.is_null() " ++ inBraces (oneLine options yes) ++ " else "
      ++ inBraces (oneLine options no)
  | .block label body => label.text ++ ": \x7b\n" ++ lines options body ++ "\x7d"
  | .loop body => "loop \x7b\n" ++ lines options body ++ "\x7d"
  | .recall rule =>
    "if let Some(result) = s.cached(" ++ toString rule ++ ") " ++ inBraces "return Ok(result);"
  | .beginHere => "let start = s.save();"
  | .makeRegisters count => "let mut r = Registers::<Pos>::new(" ++ toString count ++ ");"
  | .takeResult slot => "let result = r.take(" ++ toString slot ++ ");"
  | .store rule => "s.store(" ++ toString rule ++ ", &start, &result);"
  | .giveResult => "Ok(result)"

/-- Statements one to a line. -/
def lines (options : Options) : List Stmt → String
  | [] => ""
  | s :: ss => s.text options ++ "\n" ++ lines options ss

/-- Statements on one line, with blanks between them. -/
def oneLine (options : Options) : List Stmt → String
  | [] => ""
  | [s] => s.text options
  | s :: ss => s.text options ++ " " ++ oneLine options ss
end

/-- The function of a rule. -/
def ruleFunction (options : Options) (functions : Array String) (index : Nat)
    (rule : RuleProgram) : String :=
  "fn " ++ functions[index]?.getD ""
    ++ "(s: &mut State<'_, Pos>) -> Result<Option<Value>, ActionError> \x7b\n"
    ++ lines options (functionBody options functions index rule) ++ "\x7d\n"

/-- The function of a code block. -/
def codeFunction (options : Options) (index : Nat) (site : CodeSite) : String :=
  let (kind, answer) := match site.kind with
    | .action => ("action", "Value")
    | .predicate => ("predicate", "bool")
  "fn " ++ kind ++ "_" ++ toString index ++ inParens (parameterList options site.labels)
    ++ " -> Result<" ++ answer ++ ", ActionError> \x7b" ++ site.code ++ "\x7d\n"

/-- Rule names with their functions, without rules that have the name of an earlier one. -/
def entryPoints (seen : List String) : List (String × String) → List (String × String)
  | [] => []
  | (name, function) :: rest =>
    if name ∈ seen then entryPoints seen rest
    else (name, function) :: entryPoints (name :: seen) rest

/-- The function that a host calls. -/
def entryFunction (options : Options) (program : Program) (functions : Array String) : String :=
  let arm := fun (name, function) => Literal.string name ++ " => " ++ function ++ "(&mut s)?,\n"
  "pub fn parse(input: &str, start_rule: Option<&str>) -> Result<Value, ParseError> \x7b\n"
    ++ "let mut s = State::<Pos>::" ++ (if options.cache then "with_cache" else "new")
    ++ "(input);\n"
    ++ "let result = match start_rule.unwrap_or(" ++ Literal.string program.startName
    ++ ") \x7b\n"
    ++ String.join ((entryPoints [] (program.ruleNames.zip functions.toList)).map arm)
    ++ "name => return Err(ParseError::InvalidStartRule(name.to_owned())),\n\x7d;\n"
    ++ "Ok(s.finish(result)?)\n\x7d\n"

/-- What every module begins with. -/
def header : String :=
  "// Generated by pegleg, do not edit.\n"
    ++ "#![allow(unused_mut, unused_variables, unused_labels, unused_imports, non_snake_case, "
    ++ "clippy::all)]\n"
    ++ "use pegleg_runtime::\x7bempty, ActionError, CharClass, ClassPart, LineColumn, Offset, "
    ++ "ParseError, Position, Registers, State, Value\x7d;\n"

end Packrat.Emit

/-- The source of a parser for the program. -/
def Packrat.Program.source (program : Packrat.Program) (options : Packrat.Options) : String :=
  let functions := (Packrat.Emit.ruleFunctions program.ruleNames).toArray
  Packrat.Emit.header
    ++ (match program.initializer with
      | some code => code ++ "\n"
      | none => "")
    ++ "type Pos = " ++ (if options.trackLines then "LineColumn" else "Offset") ++ ";\n"
    ++ "pub const RULE_NAMES: &[&str] = &["
    ++ String.join (program.ruleNames.map fun name => Packrat.Text.Literal.string name ++ ", ")
    ++ "];\n"
    ++ Packrat.Emit.entryFunction options program functions
    ++ String.join (program.rules.toList.mapIdx (Packrat.Emit.ruleFunction options functions))
    ++ String.join (program.code.toList.mapIdx (Packrat.Emit.codeFunction options))
