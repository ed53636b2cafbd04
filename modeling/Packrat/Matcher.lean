import Packrat.Actions
import Packrat.Compile
import Packrat.Registers
import Packrat.State

/-!
# Running a program

A matcher is a program whose code sites are bound to functions of a host. It evaluates operations
over a frame: the state of the parse and the registers of the rule being matched.

## The contract of an operation

After an operation has run, its outcome is in its slot. With a match there, the cursor stands behind
it; without one, the cursor is back where it was. An operation that may have moved the cursor before
it knows that it fails keeps the place in a slot of its own. Everything under a lookahead and under
a named expression runs while reporting is suspended.

## Fuel

Evaluation follows the operations inward. Rules can call themselves without end, so each call of a
rule inside another uses up one unit of fuel, and the fuel that is left also bounds the passes of
each repetition. Running out is an outcome of its own and never looks like a failed match.
`Matcher.eval` evaluates an operation over a function that runs rules; `Matcher.call` ties the knot.
-/

namespace Packrat

/-- What ends a run before its result. -/
inductive Halt where
  /-- A code block raised an error. -/
  | action (text : String)
  | fault (f : Fault)
  | outOfFuel
  deriving DecidableEq, Repr

/-- A function for a code site. -/
inductive Binding where
  | action (h : Handler Value)
  | predicate (h : Handler Bool)

/-- Who offers the function. -/
def Binding.offer : Binding → Offer
  | action h => h.offer
  | predicate h => h.offer

/-- A program bound to the code of a host. -/
structure Matcher where
  program : Program
  /-- The functions of the code sites, in the order of the sites. -/
  bindings : Array Binding
  options : Options
  /-- Source of a parser for the same program. -/
  source : String

/-- What the operations of a rule work on. -/
structure Frame where
  state : State
  registers : Registers Cursor

/-- A computation over frames. What it did before it halted stays on record. -/
abbrev Run (α : Type) := EStateM Halt Frame α

namespace Run

/-- Turns a broken rule of use into a halt. -/
def ofFault {α : Type} : Except Fault α → Run α
  | .ok a => pure a
  | .error f => throw (.fault f)

/-- Changes the state of the parse. -/
def change (f : State → State) : Run Unit :=
  modify fun fr => { fr with state := f fr.state }

/-- Takes a step of the parse. -/
def step {α : Type} (f : State → α × State) : Run α :=
  modifyGet fun fr =>
    let (a, state) := f fr.state
    (a, { fr with state })

/-- The cursor. -/
def cursor : Run Cursor := return (← get).state.cursor

/-- Puts the cursor elsewhere. -/
def moveTo (c : Cursor) : Run Unit := change (·.moveTo c)

/-- Keeps the cursor in a slot. -/
def savePlace (slot : Nat) : Run Unit := do
  let fr ← get
  let registers ← ofFault (fr.registers.setPlace? slot fr.state.cursor)
  set { fr with registers }

/-- The place in a slot. -/
def place (slot : Nat) : Run Cursor := do
  ofFault ((← get).registers.place? slot)

/-- Puts an outcome into a slot. -/
def setOutcome (slot : Nat) (result : Option Value) : Run Unit := do
  let fr ← get
  let registers ← ofFault (fr.registers.set? slot result)
  set { fr with registers }

/-- Whether a slot holds a match. -/
def isMatch (slot : Nat) : Run Bool := do
  ofFault ((← get).registers.isMatch? slot)

/-- The value in a slot. -/
def value (slot : Nat) : Run Value := do
  ofFault ((← get).registers.value? slot)

/-- Takes the match out of a slot. -/
def take (slot : Nat) : Run (Option Value) := do
  let fr ← get
  let (result, registers) ← ofFault (fr.registers.take? slot)
  set { fr with registers }
  return result

/-- Suspends reporting. -/
def suspend : Run Unit := change State.suspend

/-- Resumes reporting. -/
def resume : Run Unit := do
  let fr ← get
  let state ← ofFault fr.state.resume?
  set { fr with state }

/-- Runs a computation while reporting is suspended. -/
def silently (x : Run Unit) : Run Unit := do
  suspend
  x
  resume

/-- The values in slots, in order. -/
def values : List Nat → Run (List Value)
  | [] => return []
  | slot :: slots => do
    let v ← value slot
    return v :: (← values slots)

end Run

/-- A match of the empty text, or none. -/
def emptyIf (b : Bool) : Option Value := if b then some .empty else none

namespace Matcher

open Run

/-! ## Code blocks -/

/-- What the code at a site sees of a match that began at a place. -/
def context (m : Matcher) (site : Nat) (slots : List Nat) (begun : Cursor) (matched : Value) :
    Run Context := do
  match m.program.code[site]? with
  | none => throw (.fault (.wrongCode site))
  | some s =>
    let here ← cursor
    return {
      offset := begun.offset
      lineColumn := begun.position.lineColumn
      labels := s.labels.zip (← values slots)
      matched
      text := String.ofList (begun.textUpTo here) }

/-- Notes the call of a code block and hands on its answer. -/
def callCode {α : Type} (site : Nat) (cx : Context) (h : Handler α) : Run α := do
  change (·.note (.called site cx))
  match h.run cx with
  | .ok a => return a
  | .error text => throw (.action text)

/-- The answer of an action. -/
def runAction (m : Matcher) (site : Nat) (cx : Context) : Run Value :=
  match m.bindings[site]? with
  | some (.action h) => callCode site cx h
  | _ => throw (.fault (.wrongCode site))

/-- The answer of a predicate that stands at the cursor. -/
def runPredicate (m : Matcher) (site : Nat) (slots : List Nat) : Run Bool := do
  let cx ← m.context site slots (← cursor) .null
  match m.bindings[site]? with
  | some (.predicate h) => callCode site cx h
  | _ => throw (.fault (.wrongCode site))

/-! ## Operations -/

/-- The items of a repetition: matches that a pass puts into the slot, until a pass fails or
consumes nothing. -/
def collect (pass : Run Unit) (slot : Nat) : (fuel : Nat) → Run (List Value)
  | 0 => throw .outOfFuel
  | fuel + 1 => do
    let before := (← cursor).offset
    pass
    match ← take slot with
    | none => return []
    | some item =>
      if (← cursor).offset = before then return [item]
      else return item :: (← collect pass slot fuel)

mutual
/-- Evaluates an operation. `call` gives the outcome of a rule at the cursor, and `fuel` bounds the
passes of a repetition. -/
def eval (m : Matcher) (call : Nat → Run (Option Value)) (fuel : Nat) : Op → Run Unit
  | .named r description body => do
    silently (m.eval call fuel body)
    if !(← isMatch r) then change (·.fail description)
  | .choice r alternatives => m.firstMatch call fuel r alternatives
  | .action r slot site slots body => do
    savePlace slot
    m.eval call fuel body
    if ← isMatch r then
      let begun ← place slot
      let cx ← m.context site slots begun (← value r)
      let answer ← m.runAction site cx
      if answer.isNull then
        setOutcome r none
        moveTo begun
      else setOutcome r (some answer)
  | .sequence r slot elements => do
    savePlace slot
    if ← m.allMatch call fuel elements then
      setOutcome r (some (.arr (← values (elements.map Op.result))))
    else
      setOutcome r none
      moveTo (← place slot)
  | .lookahead r slot negated body => do
    savePlace slot
    silently (m.eval call fuel body)
    if ← isMatch r then
      setOutcome r (emptyIf !negated)
      moveTo (← place slot)
    else setOutcome r (emptyIf negated)
  | .predicate r negated site slots => do
    let answer ← m.runPredicate site slots
    setOutcome r (emptyIf (answer != negated))
  | .optional r body => do
    m.eval call fuel body
    if !(← isMatch r) then setOutcome r (some .empty)
  | .repeated r nonempty body => do
    let items ← collect (m.eval call fuel body) body.result fuel
    setOutcome r (if nonempty && items.isEmpty then none else some (.arr items))
  | .call r rule => do
    setOutcome r (← call rule)
  | .literal r text ignoreCase description => do
    setOutcome r (← Run.step (·.literal text ignoreCase description))
  | .charClass r members description => do
    setOutcome r (← Run.step (·.charClass members description))
  | .any r => do
    setOutcome r (← Run.step State.any)

/-- Runs alternatives until one has put a match into the slot. -/
def firstMatch (m : Matcher) (call : Nat → Run (Option Value)) (fuel slot : Nat) :
    List Op → Run Unit
  | [] => return
  | o :: os => do
    m.eval call fuel o
    if ← isMatch slot then return else m.firstMatch call fuel slot os

/-- Runs elements as long as each of them matches, and says whether all did. -/
def allMatch (m : Matcher) (call : Nat → Run (Option Value)) (fuel : Nat) : List Op → Run Bool
  | [] => return true
  | o :: os => do
    m.eval call fuel o
    if ← isMatch o.result then m.allMatch call fuel os else return false
end

/-- Runs the body of a rule and takes its outcome. -/
def ruleBody (m : Matcher) (call : Nat → Run (Option Value)) (fuel : Nat) (r : RuleProgram) :
    Run (Option Value) := do
  m.eval call fuel r.body
  take r.body.result

/-- The outcome of a rule at the cursor, remembered or found by running its body on registers of
its own. -/
def call (m : Matcher) : (fuel rule : Nat) → Run (Option Value)
  | 0, _ => throw .outOfFuel
  | fuel + 1, rule => do
    let fr ← get
    match fr.state.lookUp rule with
    | some (result, state) =>
      set { fr with state }
      return result
    | none =>
      match m.program.rules[rule]? with
      | none => throw (.fault (.noSuchRuleIndex rule))
      | some r =>
        let begun := fr.state.cursor
        let outer := fr.registers
        let state := fr.state.note (.entered rule begun.offset fr.state.reporting)
        set { state, registers := .blank r.registers : Frame }
        let result ← m.ruleBody (m.call fuel) fuel r
        modify fun after => ⟨after.state.remember rule begun result, outer⟩
        return result

/-! ## Parses -/

/-- Why a parse has no value. -/
inductive Failure where
  | parse (e : ParseError)
  | fault (f : Fault)
  | outOfFuel
  deriving DecidableEq, Repr

/-- The value of a parse or why there is none, and what happened on the way, oldest first. -/
structure Report where
  result : Except Failure Value
  journal : List Event

/-- The frame in front of a text. -/
def initialFrame (m : Matcher) (text : List Char) : Frame :=
  ⟨State.start m.options.trackLines m.options.cache text, .blank 0⟩

/-- Matches a rule at the beginning of a text. -/
def runRule (m : Matcher) (fuel : Nat) (text : List Char) (rule : Nat) :
    EStateM.Result Halt Frame (Option Value) :=
  m.call fuel rule (m.initialFrame text)

/-- The index of the rule to start from. -/
def startIndex (m : Matcher) : Option String → Except ParseError Nat
  | none => .ok m.program.start
  | some name =>
    match m.program.ruleIndex? name with
    | some rule => .ok rule
    | none => .error (.unknownStart name)

/-- The verdict on a finished run. -/
def verdict : EStateM.Result Halt Frame (Option Value) → Except Failure Value
  | .ok result fr => (fr.state.finish result).mapError fun e => .parse (.mismatch e)
  | .error (.action text) _ => .error (.parse (.action text))
  | .error (.fault f) _ => .error (.fault f)
  | .error .outOfFuel _ => .error .outOfFuel

/-- The frame at the end of a run. -/
def finalFrame : EStateM.Result Halt Frame (Option Value) → Frame
  | .ok _ fr | .error _ fr => fr

/-- Matches the whole text, from the named rule or else from the first one. -/
def parse (m : Matcher) (fuel : Nat) (text : String) (start : Option String) : Report :=
  match m.startIndex start with
  | .error e => ⟨.error (.parse e), []⟩
  | .ok rule =>
    let outcome := m.runRule fuel text.toList rule
    ⟨verdict outcome, (finalFrame outcome).state.journal.reverse⟩

/-- Fuel that no parse of a text that fits into memory uses up, other than one without end. -/
def ampleFuel : Nat := 1000000000000000

/-- Name of the rule to start from. -/
def startRule (m : Matcher) : String := m.program.startName

/-- Who offers the function of a code site. -/
def offerOf? (m : Matcher) (site : Nat) : Option Offer := m.bindings[site]?.map Binding.offer

/-! ## Binding -/

/-- The function for a code site, or which one is missing. -/
def bindSite (h : Actions) (site : CodeSite) : Except BuildError Binding :=
  match site.kind with
  | .action =>
    match h.findAction? site.code with
    | some f => .ok (.action f)
    | none => .error (.missingAction (Text.trim site.code))
  | .predicate =>
    match h.findPredicate? site.code with
    | some f => .ok (.predicate f)
    | none => .error (.missingPredicate (Text.trim site.code))

/-- Binds a compiled grammar to the code of a host. -/
def bind (c : Compiled) (h : Actions) (options : Options) : Except BuildError Matcher := do
  let bindings ← c.program.code.toList.mapM (bindSite h)
  return ⟨c.program, bindings.toArray, options, c.source⟩

end Matcher

/-- Why there is no matcher for a grammar text. -/
inductive BuildFailure where
  | build (e : BuildError)
  | fault (f : Fault)
  deriving DecidableEq, Repr

/-- Compiles grammar text and binds it to the code of a host. -/
def buildMatcher (text : String) (h : Actions) (options : Options) :
    Except BuildFailure Matcher :=
  match compile text options with
  | .error (.grammar e) => .error (.build (.grammar e))
  | .error (.fault f) => .error (.fault f)
  | .ok c => (Matcher.bind c h options).mapError .build

end Packrat
