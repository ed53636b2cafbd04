import Packrat.Grammar.Basic
import Packrat.Scope

/-!
# Assigning slots

Every expression of a rule gets a slot for its outcome, and those that may have to go back get one
for the place. Slots come from a pool that counts who holds each of them; a slot nobody holds is
handed out again, lowest first, so expressions whose lifetimes are disjoint share storage.

## Who holds a slot, and for how long

An expression holds the slot of its place while it runs. A sequence holds the slots of all its
elements until it has collected them, and a repetition holds the slot of its item. Besides, a label
holds the slot of its value for as long as its scope is open, because a code block may still read
it: that is what keeps a label's value from being overwritten between the match and the use.

## Scopes

A rule, an action, each alternative of a choice, the body of a label, of a lookahead, of an optional
and of a repetition open a scope of their own; a sequence and a named expression do not, so labels
inside a parenthesized sequence stay in view behind it. A label used twice in one scope means the
later value and gives up the slot of the earlier one.
-/

namespace Packrat

/-- The slots of a rule while they are being assigned. -/
structure Pool where
  /-- How many hold each slot. -/
  holders : List Nat := []
  /-- The open scopes, innermost first. -/
  scopes : List (Scope Nat) := []
  deriving Repr

namespace Pool

/-- Hands out the lowest slot that nobody holds. -/
def acquire (p : Pool) : Nat × Pool :=
  let slot := p.holders.findIdx (· == 0)
  if slot < p.holders.length then (slot, { p with holders := p.holders.set slot 1 })
  else (p.holders.length, { p with holders := p.holders ++ [1] })

/-- One more holder of a slot. -/
def retain (p : Pool) (slot : Nat) : Pool := { p with holders := p.holders.modify slot (· + 1) }

/-- One holder of a slot less. -/
def release (p : Pool) (slot : Nat) : Pool := { p with holders := p.holders.modify slot (· - 1) }

/-- Releases several slots. -/
def releaseAll (p : Pool) (slots : List Nat) : Pool := slots.foldl release p

/-- Opens a scope. -/
def openScope (p : Pool) : Pool := { p with scopes := [] :: p.scopes }

/-- Closes the innermost scope; its labels give up their slots. -/
def closeScope (p : Pool) : Pool :=
  match p.scopes with
  | [] => p
  | scope :: outer => Pool.releaseAll { p with scopes := outer } (scope.map Prod.snd)

/-- Makes a label of the innermost scope hold a slot, in place of the one it held. -/
def bindLabel (p : Pool) (label : String) (slot : Nat) : Pool :=
  let p := p.retain slot
  match p.scopes with
  | [] => p
  | scope :: outer =>
    let q := { p with scopes := scope.rebind label slot :: outer }
    match scope.lookup label with
    | some old => q.release old
    | none => q

/-- The labels in view, with their slots. -/
def inView (p : Pool) : Params := Scope.inView p.scopes

end Pool

namespace Expr

mutual
/-- Assigns slots to an expression whose outcome goes to `result`. -/
def assign (result : Nat) : Expr → Pool → Expr × Pool
  | named i name body, p =>
    let (body, p) := body.assign result p
    (named { i with result, place := none } name body, p)
  | choice i items, p =>
    let (items, p) := assignAlternatives result items p
    (choice { i with result, place := none } items, p)
  | action i code _ body, p =>
    let (place, p) := p.acquire
    let (body, p) := body.assign result p.openScope
    (action { i with result, place } code p.inView body, p.closeScope.release place)
  | sequence i items, p =>
    let (place, p) := p.acquire
    let (items, slots, p) := assignElements items p
    (sequence { i with result, place } items, (p.releaseAll slots).release place)
  | labeled i label body, p =>
    let (body, p) := body.assign result p.openScope
    (labeled { i with result, place := none } label body, p.closeScope.bindLabel label result)
  | lookahead i negated body, p =>
    let (place, p) := p.acquire
    let (body, p) := body.assign result p.openScope
    (lookahead { i with result, place } negated body, p.closeScope.release place)
  | predicate i negated code _, p =>
    (predicate { i with result, place := none } negated code p.inView, p)
  | optional i body, p =>
    let (body, p) := body.assign result p.openScope
    (optional { i with result, place := none } body, p.closeScope)
  | repeated i nonempty body, p =>
    let (item, p) := p.acquire
    let (body, p) := body.assign item p.openScope
    (repeated { i with result, place := none } nonempty body, p.closeScope.release item)
  | ruleRef i name, p => (ruleRef { i with result, place := none } name, p)
  | literal i value ignoreCase, p =>
    (literal { i with result, place := none } value ignoreCase, p)
  | charClass i members raw, p => (charClass { i with result, place := none } members raw, p)
  | any i, p => (any { i with result, place := none }, p)

/-- Assigns slots to alternatives, each in a scope of its own, all with the same outcome slot. -/
def assignAlternatives (result : Nat) : List Expr → Pool → List Expr × Pool
  | [], p => ([], p)
  | e :: es, p =>
    let (e, p) := e.assign result p.openScope
    let (es, p) := assignAlternatives result es p.closeScope
    (e :: es, p)

/-- Assigns slots to the elements of a sequence, each with an outcome slot of its own, and lists
those slots. -/
def assignElements : List Expr → Pool → List Expr × List Nat × Pool
  | [], p => ([], [], p)
  | e :: es, p =>
    let (slot, p) := p.acquire
    let (e, p) := e.assign slot p
    let (es, slots, p) := assignElements es p
    (e :: es, slot :: slots, p)
end

end Expr

/-- Assigns slots in the body of a rule and counts them. -/
def Rule.assign (r : Rule) : Rule :=
  let (result, p) := Pool.acquire {}
  let (body, p) := r.body.assign result p.openScope
  let p := p.closeScope.release result
  { r with body, registers := p.holders.length }

/-- Assigns slots in every rule. -/
def Grammar.assignSlots (g : Grammar) : Grammar := { g with rules := g.rules.map Rule.assign }

end Packrat
