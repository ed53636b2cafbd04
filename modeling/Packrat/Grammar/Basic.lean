import Packrat.CharClass
import Packrat.Span

/-!
# Grammars

A grammar is a list of named rules, each with an expression as its body, and the name of the rule to
start from. Names need not be distinct: wherever a name is looked up, the first rule of that name is
meant.

Every expression carries an `Info`: where it stands in the grammar text and, once slots have been
assigned, which slot takes its outcome and which keeps the place to go back to. Code blocks carry
the labels in view, each with the slot of its value; they too are filled in with the slots.

Expressions nest through lists, so proofs about them go by `Expr.inductionOn`, which hands over the
hypothesis for every element of a choice or a sequence.
-/

namespace Packrat

/-- Labels in view of a code block, with the slots of their values, outer ones first. -/
abbrev Params := List (String × Nat)

/-- What is known about an expression besides its form. -/
structure Info where
  span : Span
  /-- Slot for the outcome of the match. -/
  result : Option Nat := none
  /-- Slot for the place to go back to. -/
  place : Option Nat := none
  deriving DecidableEq, Repr, Inhabited

/-- A parsing expression. -/
inductive Expr where
  /-- Reports a failure under a name of its own instead of the failures inside. -/
  | named (info : Info) (name : String) (body : Expr)
  /-- The first alternative that matches. -/
  | choice (info : Info) (alternatives : List Expr)
  /-- Hands what matched to a code block, whose answer becomes the value. -/
  | action (info : Info) (code : String) (params : Params) (body : Expr)
  | sequence (info : Info) (elements : List Expr)
  /-- Makes the value visible to code blocks further on. -/
  | labeled (info : Info) (label : String) (body : Expr)
  /-- Matches nothing, provided that the body would match, or would not if `negated`. -/
  | lookahead (info : Info) (negated : Bool) (body : Expr)
  /-- Matches nothing, provided that a code block agrees, or does not if `negated`. -/
  | predicate (info : Info) (negated : Bool) (code : String) (params : Params)
  | optional (info : Info) (body : Expr)
  /-- As many matches as there are, with at least one if `nonempty`. -/
  | repeated (info : Info) (nonempty : Bool) (body : Expr)
  | ruleRef (info : Info) (name : String)
  | literal (info : Info) (value : String) (ignoreCase : Bool)
  /-- A character class and its normalized source form, which is also what it fails with. -/
  | charClass (info : Info) (members : CharClass) (raw : String)
  | any (info : Info)
  deriving Repr, Inhabited

namespace Expr

/-- The information on an expression. -/
def info : Expr → Info
  | named i .. | choice i .. | action i .. | sequence i .. | labeled i .. | lookahead i ..
  | predicate i .. | optional i .. | repeated i .. | ruleRef i .. | literal i .. | charClass i ..
  | any i => i

/-- Where the expression stands in the grammar text. -/
def span (e : Expr) : Span := e.info.span

/-- The name of the form of an expression. -/
def kindName : Expr → String
  | named .. => "named"
  | choice .. => "choice"
  | action .. => "action"
  | sequence .. => "sequence"
  | labeled .. => "labeled"
  | lookahead _ negated _ => if negated then "simple_not" else "simple_and"
  | predicate _ negated .. => if negated then "semantic_not" else "semantic_and"
  | optional .. => "optional"
  | repeated _ nonempty _ => if nonempty then "one_or_more" else "zero_or_more"
  | ruleRef .. => "rule_ref"
  | literal .. => "literal"
  | charClass .. => "class"
  | any .. => "any"

/-- The expressions directly inside an expression. -/
def children : Expr → List Expr
  | choice _ items | sequence _ items => items
  | named _ _ body | action _ _ _ body | labeled _ _ body | lookahead _ _ body
  | optional _ body | repeated _ _ body => [body]
  | predicate .. | ruleRef .. | literal .. | charClass .. | any .. => []

/-- The first expression occurs in the second, or is it. -/
inductive Inside (e : Expr) : Expr → Prop
  | self : Inside e e
  | child {c b : Expr} : c ∈ b.children → Inside e c → Inside e b

theorem forall_inside_iff {P : Expr → Prop} {b : Expr} :
    (∀ e, e.Inside b → P e) ↔ P b ∧ ∀ c ∈ b.children, ∀ e, e.Inside c → P e := by
  constructor
  · intro h
    exact ⟨h b .self, fun c hc e he => h e (.child hc he)⟩
  · rintro ⟨hb, hchildren⟩ e (_ | ⟨hc, he⟩)
    · exact hb
    · exact hchildren _ hc e he

/-- Induction over expressions, with a hypothesis for each element of a list. -/
@[elab_as_elim]
theorem inductionOn {motive : Expr → Prop}
    (named : ∀ info name body, motive body → motive (.named info name body))
    (choice : ∀ info items, (∀ e ∈ items, motive e) → motive (.choice info items))
    (action : ∀ info code params body, motive body → motive (.action info code params body))
    (sequence : ∀ info items, (∀ e ∈ items, motive e) → motive (.sequence info items))
    (labeled : ∀ info label body, motive body → motive (.labeled info label body))
    (lookahead : ∀ info negated body, motive body → motive (.lookahead info negated body))
    (predicate : ∀ info negated code params, motive (.predicate info negated code params))
    (optional : ∀ info body, motive body → motive (.optional info body))
    (repeated : ∀ info nonempty body, motive body → motive (.repeated info nonempty body))
    (ruleRef : ∀ info name, motive (.ruleRef info name))
    (literal : ∀ info value ignoreCase, motive (.literal info value ignoreCase))
    (charClass : ∀ info members raw, motive (.charClass info members raw))
    (any : ∀ info, motive (.any info)) (e : Expr) : motive e :=
  Expr.rec (motive_1 := motive) (motive_2 := fun items => ∀ e ∈ items, motive e)
    (fun i n b h => named i n b h) (fun i l h => choice i l h) (fun i c p b h => action i c p b h)
    (fun i l h => sequence i l h) (fun i l b h => labeled i l b h)
    (fun i n b h => lookahead i n b h) predicate (fun i b h => optional i b h)
    (fun i n b h => repeated i n b h) ruleRef literal charClass any
    (fun _ h => nomatch h)
    (fun e es he hes x hx => by
      rcases List.mem_cons.mp hx with rfl | hx
      · exact he
      · exact hes x hx)
    e

/-! ### Comparing -/

mutual
/-- Whether two expressions are the same, with all that is known about them. -/
def same : Expr → Expr → Bool
  | named i name body, named i' name' body' => i == i' && name == name' && body.same body'
  | choice i items, choice i' items' => i == i' && sameAll items items'
  | action i code params body, action i' code' params' body' =>
    i == i' && code == code' && params == params' && body.same body'
  | sequence i items, sequence i' items' => i == i' && sameAll items items'
  | labeled i label body, labeled i' label' body' => i == i' && label == label' && body.same body'
  | lookahead i negated body, lookahead i' negated' body' =>
    i == i' && negated == negated' && body.same body'
  | predicate i negated code params, predicate i' negated' code' params' =>
    i == i' && negated == negated' && code == code' && params == params'
  | optional i body, optional i' body' => i == i' && body.same body'
  | repeated i nonempty body, repeated i' nonempty' body' =>
    i == i' && nonempty == nonempty' && body.same body'
  | ruleRef i name, ruleRef i' name' => i == i' && name == name'
  | literal i value ignoreCase, literal i' value' ignoreCase' =>
    i == i' && value == value' && ignoreCase == ignoreCase'
  | charClass i members raw, charClass i' members' raw' =>
    i == i' && members == members' && raw == raw'
  | any i, any i' => i == i'
  | _, _ => false

/-- Whether two lists of expressions are the same. -/
def sameAll : List Expr → List Expr → Bool
  | [], [] => true
  | e :: es, e' :: es' => e.same e' && sameAll es es'
  | _, _ => false
end

theorem sameAll_iff {items items' : List Expr}
    (ih : ∀ e ∈ items, ∀ e', e.same e' = true ↔ e = e') :
    sameAll items items' = true ↔ items = items' := by
  induction items generalizing items' with
  | nil => cases items' <;> simp [sameAll]
  | cons e es ihes =>
    obtain ⟨he, hes⟩ := List.forall_mem_cons.mp ih
    cases items' <;> simp [sameAll, he, ihes hes]

theorem same_iff {e e' : Expr} : e.same e' = true ↔ e = e' := by
  induction e using Expr.inductionOn generalizing e' with
  | named _ _ _ ih | action _ _ _ _ ih | labeled _ _ _ ih | lookahead _ _ _ ih | optional _ _ ih
  | repeated _ _ _ ih => cases e' <;> simp [same, ih, and_assoc]
  | choice _ _ ih | sequence _ _ ih =>
    cases e' <;> simp [same, sameAll_iff fun e he e' => ih e he]
  | _ => cases e' <;> simp [same, and_assoc]

instance : DecidableEq Expr := fun _ _ => decidable_of_iff _ same_iff

end Expr

/-- The code block in front of the rules. -/
structure Initializer where
  span : Span
  /-- Text between the outer braces. -/
  code : String
  deriving DecidableEq, Repr

/-- A named expression. -/
structure Rule where
  span : Span
  name : String
  body : Expr
  /-- Slots that a call of the rule needs, zero before slots are assigned. -/
  registers : Nat := 0
  deriving DecidableEq, Repr, Inhabited

/-- Rules and the name of the one to start from. -/
structure Grammar where
  initializer : Option Initializer
  rules : List Rule
  start : String
  deriving DecidableEq, Repr, Inhabited

namespace Grammar

/-- The first rule of a name. -/
def find? (g : Grammar) (name : String) : Option Rule := g.rules.find? (·.name == name)

/-- The place of the first rule of a name in the list. -/
def findIndex? (g : Grammar) (name : String) : Option Nat :=
  g.rules.findIdx? (·.name == name)

/-- Rule names in order. -/
def ruleNames (g : Grammar) : List String := g.rules.map (·.name)

end Grammar

end Packrat
