import Packrat.Options
import Packrat.Program.Basic

/-!
# Statements of emitted functions

The body of an emitted rule function is a list of statements over two objects, the state of the
parse and the registers of the call, and a few local variables. The statements form a small
language of their own, which says what the function does without saying how it is written down:

* an operation leaves its outcome in its slot and the cursor either behind the match or where it
  was;
* a failing sequence leaves the block it is in, a matching alternative leaves the block of its
  choice, and blocks carry numbers because they nest;
* a repetition collects items in a variable and remembers where each pass began, both numbered like
  the blocks, so that an inner repetition has its own.

Numbers are handed out from one counter in the order in which the operations begin.

Around the statements of its body, a rule function looks up a remembered result first, if results
are remembered, makes the registers of the call, and stores and returns the outcome last.
-/

namespace Packrat.Emit

/-- The name of a block that can be left. -/
inductive Label where
  | choice (number : Nat)
  | sequence (number : Nat)
  deriving DecidableEq, Repr

/-- A call of a code function: its site, and the slots of its labels. -/
structure CodeCall where
  site : Nat
  slots : List Nat
  deriving DecidableEq, Repr

/-- What may be put into a slot as an outcome. -/
inductive Outcome where
  | noMatch
  /-- A match of the empty text. -/
  | emptyMatch
  /-- The answer of the last action. -/
  | answer
  /-- The empty text if the last predicate agreed, or did not if `negated`. -/
  | verdict (negated : Bool)
  /-- The values gathered from the elements of a sequence. -/
  | elements
  /-- The items of a repetition, which fails without any if `nonempty`. -/
  | items (number : Nat) (nonempty : Bool)
  /-- The outcome of a rule, by the name of its function. -/
  | rule (function : String)
  | literal (value : String) (ignoreCase : Bool) (description : String)
  | charClass (members : CharClass) (description : String)
  | any
  deriving DecidableEq, Repr

/-- A statement. -/
inductive Stmt where
  | suspend
  | resume
  | fail (description : String)
  /-- Keeps the cursor in a slot. -/
  | savePlace (slot : Nat)
  /-- Puts the cursor back to the place in a slot. -/
  | restorePlace (slot : Nat)
  /-- Takes the place in a slot as the start of an action. -/
  | beginAt (slot : Nat)
  /-- Puts the cursor back to the start of an action. -/
  | restoreStart
  | set (slot : Nat) (outcome : Outcome)
  /-- Calls an action at its start. -/
  | runAction (call : CodeCall)
  /-- Calls a predicate at the cursor. -/
  | runPredicate (call : CodeCall)
  /-- Gathers the values in slots. -/
  | gather (slots : List Nat)
  /-- Starts the items of a repetition. -/
  | startItems (number : Nat)
  /-- Notes where a pass of a repetition begins. -/
  | markOffset (number : Nat)
  /-- Takes the item in a slot, or leaves the repetition if there is none. -/
  | takeItem (slot number : Nat)
  /-- Leaves the repetition if the pass has consumed nothing. -/
  | stopUnlessMoved (number : Nat)
  | leave (label : Label)
  /-- Runs a few statements on one line if the slot holds a match, or others if it does not. -/
  | ifMatch (slot : Nat) (yes no : List Stmt)
  /-- Runs a few statements on one line if the slot holds no match. -/
  | unlessMatch (slot : Nat) (body : List Stmt)
  /-- Runs statements on lines of their own if the slot holds a match. -/
  | onMatch (slot : Nat) (body : List Stmt)
  /-- Runs the first statements if the last action refused the match, and the others if not. -/
  | ifRefused (yes no : List Stmt)
  | block (label : Label) (body : List Stmt)
  | loop (body : List Stmt)
  /-- Returns the remembered outcome of a rule, if there is one. -/
  | recall (rule : Nat)
  /-- Takes the cursor as the start of a rule. -/
  | beginHere
  /-- Makes the registers of the call. -/
  | makeRegisters (count : Nat)
  /-- Takes the outcome of the rule out of its slot. -/
  | takeResult (slot : Nat)
  /-- Remembers the outcome of a rule. -/
  | store (rule : Nat)
  /-- Returns the outcome of the rule. -/
  | giveResult
  deriving Repr, Inhabited

/-- What ends a choice once an alternative matched; the last alternative needs no end. -/
def leaveChoice (label : Label) (result : Nat) (isLast : Bool) : List Stmt :=
  if isLast then [] else [.ifMatch result [.leave label] []]

mutual
/-- The statements of an operation and the next free number. `functions` are those of the rules. -/
def statements (functions : Array String) : Op → Nat → List Stmt × Nat
  | .named result description body, n =>
    let (body, n) := statements functions body n
    (.suspend :: body ++ [.resume, .unlessMatch result [.fail description]], n)
  | .choice result items, n =>
    let (items, n') := choiceStatements functions (.choice n) result items (n + 1)
    ([.block (.choice n) items], n')
  | .action result place site slots body, n =>
    let (body, n) := statements functions body n
    (.savePlace place :: body ++ [.onMatch result [
      .beginAt place,
      .runAction ⟨site, slots⟩,
      .ifRefused [.set result .noMatch, .restoreStart] [.set result .answer]]], n)
  | .sequence result place items, n =>
    let label := .sequence n
    let (elements, n') :=
      sequenceStatements functions [.set result .noMatch, .restorePlace place, .leave label]
        items (n + 1)
    ([.savePlace place, .block label (elements ++ [
      .gather (items.map Op.result),
      .set result .elements])], n')
  | .lookahead result place negated body, n =>
    let (body, n) := statements functions body n
    let (onMatch, onFail) : Outcome × Outcome :=
      if negated then (.noMatch, .emptyMatch) else (.emptyMatch, .noMatch)
    ([.savePlace place, .suspend] ++ body ++ [.resume,
      .ifMatch result [.set result onMatch, .restorePlace place] [.set result onFail]], n)
  | .predicate result negated site slots, n =>
    ([.runPredicate ⟨site, slots⟩, .set result (.verdict negated)], n)
  | .optional result body, n =>
    let (body, n) := statements functions body n
    (body ++ [.unlessMatch result [.set result .emptyMatch]], n)
  | .repeated result nonempty body, n =>
    let (pass, n') := statements functions body (n + 1)
    ([.startItems n,
      .loop (.markOffset n :: pass ++ [.takeItem body.result n, .stopUnlessMoved n]),
      .set result (.items n nonempty)], n')
  | .call result rule, n => ([.set result (.rule (functions[rule]?.getD ""))], n)
  | .literal result value ignoreCase description, n =>
    ([.set result (.literal value ignoreCase description)], n)
  | .charClass result members description, n =>
    ([.set result (.charClass members description)], n)
  | .any result, n => ([.set result .any], n)

/-- The statements of alternatives, each of which leaves the block of the choice if it matched. -/
def choiceStatements (functions : Array String) (label : Label) (result : Nat) :
    List Op → Nat → List Stmt × Nat
  | [], n => ([], n)
  | o :: os, n =>
    let (first, n) := statements functions o n
    let (rest, n) := choiceStatements functions label result os n
    (first ++ leaveChoice label result os.isEmpty ++ rest, n)

/-- The statements of elements, each of which gives the sequence up if it failed. -/
def sequenceStatements (functions : Array String) (giveUp : List Stmt) :
    List Op → Nat → List Stmt × Nat
  | [], n => ([], n)
  | o :: os, n =>
    let (first, n) := statements functions o n
    let (rest, n) := sequenceStatements functions giveUp os n
    (first ++ .unlessMatch o.result giveUp :: rest, n)
end

/-- The statements of the function of a rule. A remembered result is looked up first and stored
last. -/
def functionBody (options : Options) (functions : Array String) (index : Nat)
    (rule : RuleProgram) : List Stmt :=
  (if options.cache then [.recall index, .beginHere] else [])
    ++ .makeRegisters rule.registers :: (statements functions rule.body 1).1
    ++ .takeResult rule.body.result :: (if options.cache then [.store index] else [])
    ++ [.giveResult]

end Packrat.Emit
