import Packrat.CharClass

/-!
# Programs

A program is a grammar made ready to run: references are rule indices, slots are certain, labels are
gone, and every code block is an entry of one list, to which the operations refer by index. The same
program is run by the matcher and written out as source.
-/

namespace Packrat

/-- What a code block is for. -/
inductive CodeKind where
  /-- Makes the value of a match. -/
  | action
  /-- Decides whether to go on. -/
  | predicate
  deriving DecidableEq, Repr

/-- A code block with the labels it sees. -/
structure CodeSite where
  kind : CodeKind
  /-- Text between the outer braces. -/
  code : String
  labels : List String
  deriving DecidableEq, Repr

/-- An executable expression; the first field is the slot for its outcome. -/
inductive Op where
  | named (result : Nat) (description : String) (body : Op)
  | choice (result : Nat) (alternatives : List Op)
  /-- `slots` are those of the labels of the code site, in the same order. -/
  | action (result place site : Nat) (slots : List Nat) (body : Op)
  | sequence (result place : Nat) (elements : List Op)
  | lookahead (result place : Nat) (negated : Bool) (body : Op)
  | predicate (result : Nat) (negated : Bool) (site : Nat) (slots : List Nat)
  | optional (result : Nat) (body : Op)
  | repeated (result : Nat) (nonempty : Bool) (body : Op)
  | call (result rule : Nat)
  | literal (result : Nat) (value : String) (ignoreCase : Bool) (description : String)
  | charClass (result : Nat) (members : CharClass) (description : String)
  | any (result : Nat)
  deriving Repr, Inhabited

namespace Op

/-- The slot for the outcome. -/
def result : Op → Nat
  | named r .. | choice r .. | action r .. | sequence r .. | lookahead r .. | predicate r ..
  | optional r .. | repeated r .. | call r .. | literal r .. | charClass r .. | any r => r

/-- Induction over operations, with a hypothesis for each element of a list. -/
@[elab_as_elim]
theorem inductionOn {motive : Op → Prop}
    (named : ∀ result description body, motive body → motive (.named result description body))
    (choice : ∀ result items, (∀ o ∈ items, motive o) → motive (.choice result items))
    (action : ∀ result place site slots body,
      motive body → motive (.action result place site slots body))
    (sequence : ∀ result place items,
      (∀ o ∈ items, motive o) → motive (.sequence result place items))
    (lookahead : ∀ result place negated body,
      motive body → motive (.lookahead result place negated body))
    (predicate : ∀ result negated site slots, motive (.predicate result negated site slots))
    (optional : ∀ result body, motive body → motive (.optional result body))
    (repeated : ∀ result nonempty body, motive body → motive (.repeated result nonempty body))
    (call : ∀ result rule, motive (.call result rule))
    (literal : ∀ result value ignoreCase description,
      motive (.literal result value ignoreCase description))
    (charClass : ∀ result members description, motive (.charClass result members description))
    (any : ∀ result, motive (.any result)) (o : Op) : motive o :=
  Op.rec (motive_1 := motive) (motive_2 := fun items => ∀ o ∈ items, motive o)
    (fun r d b h => named r d b h) (fun r l h => choice r l h)
    (fun r p s ss b h => action r p s ss b h) (fun r p l h => sequence r p l h)
    (fun r p n b h => lookahead r p n b h) predicate (fun r b h => optional r b h)
    (fun r n b h => repeated r n b h) call literal charClass any
    (fun _ h => nomatch h)
    (fun o os ho hos x hx => by
      rcases List.mem_cons.mp hx with rfl | hx
      · exact ho
      · exact hos x hx)
    o

/-! ### Comparing -/

mutual
/-- Whether two operations are the same. -/
def same : Op → Op → Bool
  | named r description body, named r' description' body' =>
    r == r' && description == description' && body.same body'
  | choice r items, choice r' items' => r == r' && sameAll items items'
  | action r place site slots body, action r' place' site' slots' body' =>
    r == r' && place == place' && site == site' && slots == slots' && body.same body'
  | sequence r place items, sequence r' place' items' =>
    r == r' && place == place' && sameAll items items'
  | lookahead r place negated body, lookahead r' place' negated' body' =>
    r == r' && place == place' && negated == negated' && body.same body'
  | predicate r negated site slots, predicate r' negated' site' slots' =>
    r == r' && negated == negated' && site == site' && slots == slots'
  | optional r body, optional r' body' => r == r' && body.same body'
  | repeated r nonempty body, repeated r' nonempty' body' =>
    r == r' && nonempty == nonempty' && body.same body'
  | call r rule, call r' rule' => r == r' && rule == rule'
  | literal r value ignoreCase description, literal r' value' ignoreCase' description' =>
    r == r' && value == value' && ignoreCase == ignoreCase' && description == description'
  | charClass r members description, charClass r' members' description' =>
    r == r' && members == members' && description == description'
  | any r, any r' => r == r'
  | _, _ => false

/-- Whether two lists of operations are the same. -/
def sameAll : List Op → List Op → Bool
  | [], [] => true
  | o :: os, o' :: os' => o.same o' && sameAll os os'
  | _, _ => false
end

theorem sameAll_iff {items items' : List Op} (ih : ∀ o ∈ items, ∀ o', o.same o' = true ↔ o = o') :
    sameAll items items' = true ↔ items = items' := by
  induction items generalizing items' with
  | nil => cases items' <;> simp [sameAll]
  | cons o os ihos =>
    obtain ⟨ho, hos⟩ := List.forall_mem_cons.mp ih
    cases items' <;> simp [sameAll, ho, ihos hos]

theorem same_iff {o o' : Op} : o.same o' = true ↔ o = o' := by
  induction o using Op.inductionOn generalizing o' with
  | named _ _ _ ih | action _ _ _ _ _ ih | lookahead _ _ _ _ ih | optional _ _ ih
  | repeated _ _ _ ih => cases o' <;> simp [same, ih, and_assoc]
  | choice _ _ ih | sequence _ _ _ ih =>
    cases o' <;> simp [same, sameAll_iff fun o ho o' => ih o ho, and_assoc]
  | _ => cases o' <;> simp [same, and_assoc]

instance : DecidableEq Op := fun _ _ => decidable_of_iff _ same_iff

end Op

/-- An executable rule. -/
structure RuleProgram where
  name : String
  /-- Slots that a call needs. -/
  registers : Nat
  body : Op
  deriving DecidableEq, Repr, Inhabited

/-- An executable grammar. -/
structure Program where
  /-- The code in front of the rules. -/
  initializer : Option String
  rules : Array RuleProgram
  /-- Index of the rule to start from. -/
  start : Nat
  code : Array CodeSite
  deriving DecidableEq, Repr, Inhabited

namespace Program

/-- Index of the first rule of a name. -/
def ruleIndex? (p : Program) (name : String) : Option Nat :=
  p.rules.findIdx? (·.name == name)

/-- Rule names in order. -/
def ruleNames (p : Program) : List String := p.rules.toList.map (·.name)

theorem ruleIndex?_eq (p : Program) (name : String) :
    p.ruleIndex? name = p.ruleNames.findIdx? (· == name) := by
  obtain ⟨initializer, ⟨rules⟩, start, code⟩ := p
  rw [ruleNames, List.findIdx?_map]
  exact List.findIdx?_toArray _ rules

/-- Name of the rule to start from. -/
def startName (p : Program) : String := (p.rules[p.start]?.map (·.name)).getD ""

end Program

end Packrat
