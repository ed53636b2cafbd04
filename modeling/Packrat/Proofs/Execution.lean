import Packrat.Emit.Source
import Packrat.Matcher

/-!
# What emitted statements do

Emitted functions are written in a small part of the language they are emitted in: calls on the
state and on the registers, local variables, blocks with labels, loops, branches, returns and calls
of other functions of the module. This module gives these statements the meaning they have there.
It says nothing about operations, and it does not know how a statement came about.

## Scopes and endings

A variable lives until the block ends in which it was declared, and hides an earlier one of its
name. A statement is followed by the next one unless it leaves a block, ends a loop or returns from
the function (`Flow`). A block is left from anywhere inside, through loops and other blocks.

## Aborts

An error of a code block ends all functions at once, as `?` hands it on. So does a broken rule of
use, and running out of fuel, which is spent as it is by a matcher: one unit for each function
inside another, and what is left bounds the passes of each loop. Besides, there is what no compiler
would accept: variables that nobody declared or that hold something else, functions that are not
there or take another number of arguments, a label around nothing, a function without a result. All
of that is `Abort.invalid`.
-/

namespace Packrat.Emit

/-! ### Machines -/

/-- The local variables of an emitted function. -/
inductive Variable where
  /-- Where a rule or an action begins. -/
  | start
  /-- The answer of an action. -/
  | value
  /-- The answer of a predicate. -/
  | pass
  /-- The values of the elements of a sequence. -/
  | items
  /-- The items of a repetition. -/
  | itemsOf (number : Nat)
  /-- Where a pass of a repetition began. -/
  | beforeOf (number : Nat)
  /-- The outcome of the rule. -/
  | result
  deriving DecidableEq

/-- What a variable holds. -/
inductive Content where
  | cursor (c : Cursor)
  | value (v : Value)
  | flag (b : Bool)
  | values (vs : List Value)
  | offset (n : Nat)
  | outcome (r : Option Value)

/-- Variables, the latest declaration first. -/
abbrev Locals := List (Variable × Content)

/-- Changes the latest variable of a name. -/
def Locals.replace (x : Variable) (c : Content) : Locals → Locals
  | [] => []
  | (y, d) :: rest => if y = x then (y, c) :: rest else (y, d) :: Locals.replace x c rest

/-- What comes behind a statement. -/
inductive Flow where
  | next
  | leave (label : Label)
  /-- The innermost loop ends. -/
  | stop
  | give (result : Option Value)

/-- What ends a function before its result. -/
inductive Abort where
  | halt (h : Halt)
  /-- The module is not a program. -/
  | invalid
  deriving DecidableEq

/-- What the statements of a function work on. -/
structure Machine where
  state : State
  /-- The registers, once they are made. -/
  registers : Option (Registers Cursor)
  locals : Locals

/-- A computation over machines. -/
abbrev Exec (α : Type) := EStateM Abort Machine α

namespace Exec

variable {α : Type}

/-- Calls on the state and the registers. -/
def use (x : Run α) : Exec α := fun mc =>
  match mc.registers with
  | none => .error .invalid mc
  | some registers =>
    match x ⟨mc.state, registers⟩ with
    | .ok a fr => .ok a { mc with state := fr.state, registers := some fr.registers }
    | .error e fr => .error (.halt e) { mc with state := fr.state, registers := some fr.registers }

/-- Declares a variable. -/
def declare (x : Variable) (c : Content) : Exec Unit :=
  modify fun mc => { mc with locals := (x, c) :: mc.locals }

/-- Changes the latest variable of a name. -/
def assign (x : Variable) (c : Content) : Exec Unit :=
  modify fun mc => { mc with locals := mc.locals.replace x c }

/-- The contents of a variable, as what they are used for. -/
def read (x : Variable) (as? : Content → Option α) : Exec α := do
  match (← get).locals.lookup x with
  | none => throw .invalid
  | some c =>
    match as? c with
    | none => throw .invalid
    | some a => return a

/-- Runs a block: what it declares ends with it. -/
def inBlock (x : Exec α) : Exec α := do
  let depth := (← get).locals.length
  let a ← x
  modify fun mc => { mc with locals := mc.locals.drop (mc.locals.length - depth) }
  return a

/-- Hands on the error of a code block. -/
def answer : Except String α → Exec α
  | .ok a => return a
  | .error text => throw (.halt (.action text))

/-- The passes of a loop. -/
def loop (pass : Exec Flow) : (fuel : Nat) → Exec Flow
  | 0 => throw (.halt .outOfFuel)
  | fuel + 1 => do
    match ← inBlock pass with
    | .next => loop pass fuel
    | .stop => return .next
    | flow => return flow

end Exec

/-- The contents as a cursor. -/
def Content.cursor? : Content → Option Cursor
  | .cursor c => some c
  | _ => none

/-- The contents as a value. -/
def Content.value? : Content → Option Value
  | .value v => some v
  | _ => none

/-- The contents as a truth value. -/
def Content.flag? : Content → Option Bool
  | .flag b => some b
  | _ => none

/-- The contents as a list of values. -/
def Content.values? : Content → Option (List Value)
  | .values vs => some vs
  | _ => none

/-- The contents as an offset. -/
def Content.offset? : Content → Option Nat
  | .offset n => some n
  | _ => none

/-- The contents as an outcome. -/
def Content.outcome? : Content → Option (Option Value)
  | .outcome r => some r
  | _ => none

/-! ### Code functions -/

/-- What a code function is called with. -/
structure Arguments where
  offset : Nat
  /-- Line and column, if they are tracked. -/
  lineColumn : Option (Nat × Nat)
  /-- The values of the labels in view, in the order of the parameters. -/
  labels : List Value

/-- What the code functions of a module do, by their numbers. -/
structure CodeFunctions where
  action : Nat → Arguments → Except String Value
  predicate : Nat → Arguments → Except String Bool

open Exec

/-- What statements are executed in. -/
structure Setting where
  options : Options
  program : Program
  code : CodeFunctions
  /-- The functions of the rules. -/
  call : String → State → EStateM.Result Abort State (Option Value)
  /-- Bounds the passes of a loop. -/
  fuel : Nat

/-- There is a code function of this kind with this number, and it has as many parameters for labels
as it is called with. -/
def Accepts (program : Program) (kind : CodeKind) (call : CodeCall) : Prop :=
  ∃ site, program.code[call.site]? = some site ∧ site.kind = kind ∧
    call.slots.length = (parameters site.labels).length

section

variable (e : Setting)

/-- The arguments of a code function that is called for a place. -/
def callArguments (kind : CodeKind) (call : CodeCall) (place : Cursor) : Exec Arguments := do
  match e.program.code[call.site]? with
  | none => throw .invalid
  | some site =>
    if site.kind = kind ∧ call.slots.length = (parameters site.labels).length then
      let labels ← use (Run.values call.slots)
      match e.options.trackLines, place.position.lineColumn with
      | true, some lineColumn => return ⟨place.offset, some lineColumn, labels⟩
      | true, none => throw .invalid
      | false, _ => return ⟨place.offset, none, labels⟩
    else throw .invalid

/-! ### Statements -/

/-- Calls the function of another rule, which has registers and variables of its own. -/
def callFunction (function : String) : Exec (Option Value) := fun mc =>
  match e.call function mc.state with
  | .ok result state => .ok result { mc with state }
  | .error abort state => .error abort { mc with state }

/-- What an outcome stands for. -/
def Outcome.eval : Outcome → Exec (Option Value)
  | .noMatch => return none
  | .emptyMatch => return some .empty
  | .answer => return some (← read .value Content.value?)
  | .verdict negated => do
    let pass ← read .pass Content.flag?
    return emptyIf (if negated then !pass else pass)
  | .elements => return some (.arr (← read .items Content.values?))
  | .items n nonempty => do
    let items ← read (.itemsOf n) Content.values?
    return if nonempty && items.isEmpty then none else some (.arr items)
  | .rule function => callFunction e function
  | .literal value ignoreCase description => use (Run.step (·.literal value ignoreCase description))
  | .charClass members description => use (Run.step (·.charClass members description))
  | .any => use (Run.step State.any)

mutual
/-- Executes a statement. -/
def exec : Stmt → Exec Flow
  | .suspend => do
    use Run.suspend
    return .next
  | .resume => do
    use Run.resume
    return .next
  | .fail description => do
    use (Run.change (·.fail description))
    return .next
  | .savePlace slot => do
    use (Run.savePlace slot)
    return .next
  | .restorePlace slot => do
    use (Run.moveTo (← use (Run.place slot)))
    return .next
  | .beginAt slot => do
    declare .start (.cursor (← use (Run.place slot)))
    return .next
  | .restoreStart => do
    use (Run.moveTo (← read .start Content.cursor?))
    return .next
  | .set slot outcome => do
    use (Run.setOutcome slot (← outcome.eval e))
    return .next
  | .runAction site => do
    let arguments ← callArguments e .action site (← read .start Content.cursor?)
    declare .value (.value (← answer (e.code.action site.site arguments)))
    return .next
  | .runPredicate site => do
    let arguments ← callArguments e .predicate site (← use Run.cursor)
    declare .pass (.flag (← answer (e.code.predicate site.site arguments)))
    return .next
  | .gather slots => do
    declare .items (.values (← use (Run.values slots)))
    return .next
  | .startItems n => do
    declare (.itemsOf n) (.values [])
    return .next
  | .markOffset n => do
    declare (.beforeOf n) (.offset (← use Run.cursor).offset)
    return .next
  | .takeItem slot n => do
    match ← use (Run.take slot) with
    | some item =>
      assign (.itemsOf n) (.values ((← read (.itemsOf n) Content.values?) ++ [item]))
      return .next
    | none => return .stop
  | .stopUnlessMoved n => do
    let here ← use Run.cursor
    return if here.offset = (← read (.beforeOf n) Content.offset?) then .stop else .next
  | .leave label => return .leave label
  | .ifMatch slot yes no => do
    if ← use (Run.isMatch slot) then inBlock (execAll yes) else inBlock (execAll no)
  | .unlessMatch slot body => do
    if ← use (Run.isMatch slot) then return .next else inBlock (execAll body)
  | .onMatch slot body => do
    if ← use (Run.isMatch slot) then inBlock (execAll body) else return .next
  | .ifRefused yes no => do
    if (← read .value Content.value?).isNull then inBlock (execAll yes) else inBlock (execAll no)
  | .block label body => do
    match ← inBlock (execAll body) with
    | .leave other => return if other = label then .next else .leave other
    | flow => return flow
  | .loop body => loop (execAll body) e.fuel
  | .recall rule => do
    let mc ← get
    match mc.state.lookUp rule with
    | some (result, state) =>
      set { mc with state }
      return .give result
    | none => return .next
  | .beginHere => do
    declare .start (.cursor (← get).state.cursor)
    return .next
  | .makeRegisters count => do
    modify fun mc => { mc with registers := some (.blank count) }
    return .next
  | .takeResult slot => do
    declare .result (.outcome (← use (Run.take slot)))
    return .next
  | .store rule => do
    let begun ← read .start Content.cursor?
    let result ← read .result Content.outcome?
    modify fun mc => { mc with state := mc.state.remember rule begun result }
    return .next
  | .giveResult => return .give (← read .result Content.outcome?)

/-- Executes statements one after the other, until one of them does not go on to the next. -/
def execAll : List Stmt → Exec Flow
  | [] => return .next
  | s :: ss => do
    match ← exec s with
    | .next => execAll ss
    | flow => return flow
end

end

/-! ### Modules -/

/-- The end of a function: it returned a result. -/
def returned : EStateM.Result Abort Machine Flow → EStateM.Result Abort State (Option Value)
  | .ok (.give result) mc => .ok result mc.state
  | .ok _ mc => .error .invalid mc.state
  | .error e mc => .error e mc.state

section

variable (options : Options) (program : Program) (code : CodeFunctions)

/-- Calls the function of a name in the module of a program. -/
def runFunction : (fuel : Nat) → String → State → EStateM.Result Abort State (Option Value)
  | 0, _, s => .error (.halt .outOfFuel) s
  | fuel + 1, name, s =>
    match (ruleFunctions program.ruleNames).findIdx? (· == name) with
    | none => .error .invalid s
    | some i =>
      match program.rules[i]? with
      | none => .error .invalid s
      | some r =>
        returned (execAll ⟨options, program, code, runFunction fuel, fuel⟩
          (functionBody options (ruleFunctions program.ruleNames).toArray i r) ⟨s, none, []⟩)

/-- The verdict on a finished parse, if the module is a program. -/
def verdict? : EStateM.Result Abort State (Option Value) → Option (Except Matcher.Failure Value)
  | .ok result s => some ((s.finish result).mapError fun e => .parse (.mismatch e))
  | .error (.halt (.action text)) _ => some (.error (.parse (.action text)))
  | .error (.halt (.fault f)) _ => some (.error (.fault f))
  | .error (.halt .outOfFuel) _ => some (.error .outOfFuel)
  | .error .invalid _ => none

/-- Calls the function that a host calls. -/
def runModule (fuel : Nat) (text : String) (start : Option String) :
    Option (Except Matcher.Failure Value) :=
  let name := start.getD program.startName
  let functions := ruleFunctions program.ruleNames
  match (entryPoints [] (program.ruleNames.zip functions)).lookup name with
  | none => some (.error (.parse (.unknownStart name)))
  | some function => verdict? (runFunction options program code fuel function
      (State.start options.trackLines options.cache text.toList))

end

end Packrat.Emit
