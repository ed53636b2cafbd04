import Packrat.Grammar.Basic
import Packrat.Text.Literal

/-!
# Grammars as an outline

One line for each expression, indented by its depth: the form of the expression, what distinguishes
it, and its slots once they are assigned. The outline is for reading; it is not grammar text.
-/

namespace Packrat

/-- The name of a slot in an outline. -/
def slotName (slot : Nat) : String := "r" ++ toString slot

/-- The labels in view of a code block, in parentheses if there are any. -/
def Params.outline : Params → String
  | [] => ""
  | ps => " (" ++ ", ".intercalate (ps.map fun (name, slot) => name ++ ": " ++ slotName slot) ++ ")"

namespace Expr

/-- What an outline says about an expression beside its form. -/
def outlineDetail : Expr → String
  | named _ name _ => " " ++ Text.Literal.string name
  | action _ code params _ | predicate _ _ code params =>
    " \x7b" ++ code ++ "\x7d" ++ params.outline
  | labeled _ label _ => " " ++ label
  | ruleRef _ name => " " ++ name
  | literal _ value ignoreCase =>
    " " ++ Text.Literal.string value ++ (if ignoreCase then "i" else "")
  | charClass _ _ raw => " " ++ raw
  | choice .. | sequence .. | lookahead .. | optional .. | repeated .. | any .. => ""

/-- The line of an expression. -/
def outlineLine (depth : Nat) (e : Expr) : String :=
  let result := match e.info.result with
    | some slot => " -> " ++ slotName slot
    | none => ""
  let place := match e.info.place with
    | some slot => " @" ++ slotName slot
    | none => ""
  String.ofList (List.replicate (2 * depth) ' ') ++ e.kindName ++ e.outlineDetail ++ result
    ++ place ++ "\n"

mutual
/-- The lines of an expression and of everything inside it. -/
def outline (depth : Nat) : Expr → String
  | named i n b => outlineLine depth (named i n b) ++ b.outline (depth + 1)
  | choice i items => outlineLine depth (choice i items) ++ outlineAll (depth + 1) items
  | action i c p b => outlineLine depth (action i c p b) ++ b.outline (depth + 1)
  | sequence i items => outlineLine depth (sequence i items) ++ outlineAll (depth + 1) items
  | labeled i l b => outlineLine depth (labeled i l b) ++ b.outline (depth + 1)
  | lookahead i n b => outlineLine depth (lookahead i n b) ++ b.outline (depth + 1)
  | optional i b => outlineLine depth (optional i b) ++ b.outline (depth + 1)
  | repeated i n b => outlineLine depth (repeated i n b) ++ b.outline (depth + 1)
  | predicate i n c p => outlineLine depth (predicate i n c p)
  | ruleRef i n => outlineLine depth (ruleRef i n)
  | literal i v c => outlineLine depth (literal i v c)
  | charClass i k r => outlineLine depth (charClass i k r)
  | any i => outlineLine depth (any i)

/-- The lines of several expressions. -/
def outlineAll (depth : Nat) : List Expr → String
  | [] => ""
  | e :: es => e.outline depth ++ outlineAll depth es
end

end Expr

/-- The grammar as an outline. -/
def Grammar.outline (g : Grammar) : String :=
  let front := match g.initializer with
    | some i => "initializer \x7b" ++ i.code ++ "\x7d\n"
    | none => ""
  let rules := g.rules.map fun r =>
    "\nrule " ++ r.name ++ " (" ++ toString r.registers ++ " registers):\n" ++ r.body.outline 1
  front ++ "start " ++ g.start ++ "\n" ++ String.join rules

end Packrat
