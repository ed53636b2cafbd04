import Packrat.Matcher

/-!
# The meaning of a grammar

A grammar has a meaning before it has slots or a program: this module evaluates the expressions
themselves. Every expression hands its value to the one around it, and the labels in view travel
along as nested scopes, innermost first. Nothing is stored in a register, no code block has a
number, and a rule is looked up by its name at every reference.

## Scopes

A rule, an action, each alternative of a choice, the body of a label, of a lookahead, of an
optional and of a repetition are evaluated in a scope of their own, which ends with them; the
elements of a sequence and the body of a named expression share the scope they stand in. A label
is bound behind the match of its expression, in the innermost scope.

## What a parse shares with the matcher

The state of the parse is the one the matcher works on, so terminals, the report of failures and
the memory are the same. A host call is recorded as the host sees it, by the text of the code block.

## Fuel

As for the matcher, each call of a rule inside another uses up a unit of fuel, and what is left
bounds the passes of each repetition. A reference to no rule matches nothing, and a code block that
the host does not know answers `null` or `false`; neither happens to a grammar that was compiled
and bound.
-/

namespace Packrat

/-- The call of a code block, as the host sees it. -/
structure HostCall where
  kind : CodeKind
  /-- Text between the outer braces. -/
  code : String
  context : Context

/-- How far a parse has come. -/
structure Course where
  state : State
  /-- The calls of code blocks, newest first. -/
  calls : List HostCall

/-- The course with another state. -/
def Course.update (k : Course) (f : State → State) : Course := { k with state := f k.state }

/-- The course after one more call of a code block. -/
def Course.asked (k : Course) (call : HostCall) : Course := { k with calls := call :: k.calls }

/-- What ends a parse before its result. -/
inductive Stop where
  /-- A code block raised an error. -/
  | raised (text : String)
  | outOfFuel
  deriving DecidableEq

/-- A computation over courses. -/
abbrev Parse (α : Type) := EStateM Stop Course α

namespace Parse

/-- The cursor. -/
def cursor : Parse Cursor := return (← get).state.cursor

/-- Changes the state. -/
def change (f : State → State) : Parse Unit := modify (·.update f)

/-- Puts the cursor elsewhere. -/
def moveTo (c : Cursor) : Parse Unit := change (·.moveTo c)

/-- Takes a step of the parse. -/
def step {α : Type} (f : State → α × State) : Parse α :=
  modifyGet fun k => ((f k.state).1, k.update fun s => (f s).2)

/-- Suspends reporting for a while. -/
def silently {α : Type} (x : Parse α) : Parse α := do
  let before := (← get).state.suspended
  change State.suspend
  let a ← x
  change fun s => { s with suspended := before }
  return a

/-- Records the call of a code block and hands on its answer. -/
def ask {α : Type} (call : HostCall) (answer : Except String α) : Parse α := do
  modify (·.asked call)
  match answer with
  | .ok a => return a
  | .error text => throw (.raised text)

/-- The items of a repetition, until a pass fails or consumes nothing. -/
def collect (pass : Parse (Option Value)) : (fuel : Nat) → Parse (List Value)
  | 0 => throw .outOfFuel
  | fuel + 1 => do
    let begun ← cursor
    match ← pass with
    | none => return []
    | some item =>
      if (← cursor).offset = begun.offset then return [item]
      else return item :: (← collect pass fuel)

/-- The remembered outcome of a rule at the cursor, or else the one of its body, which is then
remembered. -/
def remembered (rule : Nat) (body : Parse (Option Value)) : Parse (Option Value) := do
  let before ← get
  match before.state.lookUp rule with
  | some (result, state) =>
    set { before with state }
    return result
  | none =>
    change (·.note (.entered rule before.state.offset before.state.reporting))
    let result ← body
    change (·.remember rule before.state.cursor result)
    return result

end Parse

/-- The answer of an action. -/
def Actions.act (h : Actions) (code : String) (cx : Context) : Except String Value :=
  match h.findAction? code with
  | some f => f.run cx
  | none => .ok .null

/-- The answer of a predicate. -/
def Actions.judge (h : Actions) (code : String) (cx : Context) : Except String Bool :=
  match h.findPredicate? code with
  | some f => f.run cx
  | none => .ok false

/-- What a code block sees of a match between two cursors. -/
def Context.ofMatch (labels : Scope Value) (begun ended : Cursor) (matched : Value) : Context where
  offset := begun.offset
  lineColumn := begun.position.lineColumn
  labels
  matched
  text := String.ofList (begun.textUpTo ended)

/-- Binds a label in the innermost scope. -/
def bindLabel (label : String) (v : Value) : List (Scope Value) → List (Scope Value)
  | [] => []
  | scope :: outer => scope.rebind label v :: outer

/-- What an expression gives in nested scopes: nothing, or its value and the scopes behind it. -/
abbrev Hit := Option (Value × List (Scope Value))

/-- The value of an expression in a scope of its own. -/
def Parse.enclosed (body : List (Scope Value) → Parse Hit) (scopes : List (Scope Value)) :
    Parse (Option Value) :=
  return (← body ([] :: scopes)).map Prod.fst

/-- A value that leaves the scopes as they are. -/
def Hit.within (scopes : List (Scope Value)) (v : Option Value) : Hit := v.map (·, scopes)

open Parse

section

variable (h : Actions) (call : String → Parse (Option Value)) (fuel : Nat)

mutual
/-- Evaluates an expression in nested scopes. `call` gives the outcome of a rule at the cursor, and
`fuel` bounds the passes of a repetition. -/
def Expr.meaning : Expr → List (Scope Value) → Parse Hit
  | .named _ name body, scopes => do
    let hit ← silently (body.meaning scopes)
    if hit.isNone then change (·.fail name)
    return hit
  | .choice _ items, scopes => return Hit.within scopes (← Expr.meaningFirst items scopes)
  | .action _ code _ body, scopes => do
    let begun ← cursor
    match ← body.meaning ([] :: scopes) with
    | none => return none
    | some (matched, inner) =>
      let cx := Context.ofMatch (Scope.inView inner) begun (← cursor) matched
      let answer ← ask ⟨.action, code, cx⟩ (h.act code cx)
      if answer.isNull then
        moveTo begun
        return none
      else return some (answer, scopes)
  | .sequence _ items, scopes => do
    let begun ← cursor
    match ← Expr.meaningAll items scopes with
    | none =>
      moveTo begun
      return none
    | some (values, scopes) => return some (.arr values, scopes)
  | .labeled _ label body, scopes => do
    let v ← enclosed body.meaning scopes
    return v.map fun v => (v, bindLabel label v scopes)
  | .lookahead _ negated body, scopes => do
    let begun ← cursor
    let v ← silently (enclosed body.meaning scopes)
    if v.isSome then moveTo begun
    return Hit.within scopes (emptyIf (v.isSome != negated))
  | .predicate _ negated code _, scopes => do
    let here ← cursor
    let cx := Context.ofMatch (Scope.inView scopes) here here .null
    let agrees ← ask ⟨.predicate, code, cx⟩ (h.judge code cx)
    return Hit.within scopes (emptyIf (agrees != negated))
  | .optional _ body, scopes => do
    let v ← enclosed body.meaning scopes
    return some (v.getD .empty, scopes)
  | .repeated _ nonempty body, scopes => do
    let items ← collect (enclosed body.meaning scopes) fuel
    return if nonempty && items.isEmpty then none else some (.arr items, scopes)
  | .ruleRef _ name, scopes => return Hit.within scopes (← call name)
  | .literal _ value ignoreCase, scopes =>
    return Hit.within scopes (← step (·.literal value ignoreCase (Text.quote value)))
  | .charClass _ members raw, scopes => return Hit.within scopes (← step (·.charClass members raw))
  | .any _, scopes => return Hit.within scopes (← step State.any)

/-- The value of the first alternative that matches, each in a scope of its own. -/
def Expr.meaningFirst : List Expr → List (Scope Value) → Parse (Option Value)
  | [], _ => return none
  | e :: es, scopes => do
    match ← enclosed e.meaning scopes with
    | some v => return some v
    | none => Expr.meaningFirst es scopes

/-- The values of expressions that match one after the other, with the scopes behind them. -/
def Expr.meaningAll :
    List Expr → List (Scope Value) → Parse (Option (List Value × List (Scope Value)))
  | [], scopes => return some ([], scopes)
  | e :: es, scopes => do
    match ← e.meaning scopes with
    | none => return none
    | some (v, scopes) =>
      return (← Expr.meaningAll es scopes).map fun (vs, scopes) => (v :: vs, scopes)
end

/-- A reference is evaluated by the call alone, and leaves the scopes as they are. -/
theorem Expr.meaning_ruleRef (info : Info) (name : String) (scopes : List (Scope Value)) :
    (Expr.ruleRef info name).meaning h call fuel scopes =
      (return .within scopes (← call name)) := by
  rw [Expr.meaning]

end

namespace Grammar

/-- The place of the first rule of a name. -/
def number (g : Grammar) (name : String) : Nat := g.rules.findIdx (·.name == name)

/-- The outcome of a rule at the cursor, remembered or found by evaluating its body. -/
def outcome (g : Grammar) (h : Actions) : (fuel : Nat) → String → Parse (Option Value)
  | 0, _ => throw .outOfFuel
  | fuel + 1, name =>
    match g.find? name with
    | none => return none
    | some r =>
      remembered (g.number name) (enclosed (r.body.meaning h (g.outcome h fuel) fuel) [])

/-- The verdict on a finished parse. -/
def verdict : EStateM.Result Stop Course (Option Value) → Except Matcher.Failure Value
  | .ok result k => (k.state.finish result).mapError fun e => .parse (.mismatch e)
  | .error (.raised text) _ => .error (.parse (.action text))
  | .error .outOfFuel _ => .error .outOfFuel

/-- The course at the end of a parse. -/
def finalCourse : EStateM.Result Stop Course (Option Value) → Course
  | .ok _ k | .error _ k => k

/-- The value of a text or why there is none, and the calls of code blocks, oldest first. -/
structure Evaluation where
  result : Except Matcher.Failure Value
  calls : List HostCall

/-- The course in front of a text. -/
def initialCourse (options : Options) (text : List Char) : Course :=
  ⟨State.start options.trackLines options.cache text, []⟩

/-- Evaluates the whole text, from the named rule or else from the first one. -/
def evaluate (g : Grammar) (h : Actions) (options : Options) (fuel : Nat) (text : String)
    (start : Option String) : Evaluation :=
  let name := start.getD g.start
  if g.defines name then
    let ending := g.outcome h fuel name (initialCourse options text.toList)
    ⟨verdict ending, (finalCourse ending).calls.reverse⟩
  else ⟨.error (.parse (.unknownStart name)), []⟩

end Grammar

end Packrat
