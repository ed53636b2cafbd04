import Packrat.Proofs.Mirror

/-!
# Evaluations in step

Two evaluations of one expression may start in different courses and call different rules: one
counts the lines and the other does not, or the rules of one grammar are those of another one with
some left out. This module says once when the two stay in step.

`InStep R τ h` lists what the single steps of a parse have to do with a relation `R` of courses,
where `τ` is what a cursor of the one is on the other side. `Pairs R x y` says that from related
courses two computations end alike: with one value or for one reason, and in related courses. Then
`Expr.meaning_pairs` goes through the expressions: an expression is paired with itself as soon as
the rules are that it refers to. No fuel is compared with another; the two end after the same number
of calls.

## Main results

* `Pairs.bind`, `Pairs.silently`, `Pairs.collect`: how pairs are put together
* `Expr.meaning_pairs`: an expression goes the same way on both sides if its rules do
* `Grammar.outcome_pairs`: so do the rules themselves
-/

namespace Packrat

open Parse

variable {α β : Type} {R : Course → Course → Prop} {τ : Cursor → Cursor} {h : Actions}

/-- A cursor that some related course has had. -/
def MetBy (R : Course → Course → Prop) (c : Cursor) : Prop := ∃ k k', R k k' ∧ k.state.cursor = c

/-- The steps of a parse keep the relation, and the answers of the host do not tell the sides
apart. -/
structure InStep (R : Course → Course → Prop) (τ : Cursor → Cursor) (h : Actions) : Prop where
  ahead (c : Cursor) : (τ c).ahead = c.ahead
  offset (c : Cursor) : (τ c).offset = c.offset
  cursor {k k' : Course} : R k k' → k'.state.cursor = τ k.state.cursor
  suspended {k k' : Course} : R k k' → k'.state.suspended = k.state.suspended
  moveTo {k k' : Course} {c : Cursor} : R k k' → MetBy R c →
    R (k.update (·.moveTo c)) (k'.update (·.moveTo (τ c)))
  skip {k k' : Course} (n : Nat) : R k k' →
    R (k.update fun s => s.moveTo (s.cursor.skip n)) (k'.update fun s => s.moveTo (s.cursor.skip n))
  failAt {k k' : Course} (n : Nat) (d : String) : R k k' →
    R (k.update fun s => s.failAt (s.cursor.skip n) d)
      (k'.update fun s => s.failAt (s.cursor.skip n) d)
  suspend {k k' : Course} (n : Nat) : R k k' →
    R (k.update fun s => { s with suspended := n }) (k'.update fun s => { s with suspended := n })
  asked {k k' : Course} {begun : Cursor} (kind : CodeKind) (code : String) (labels : Scope Value)
      (ended : Cursor) (v : Value) : R k k' → MetBy R begun →
    R (k.asked ⟨kind, code, .ofMatch labels begun ended v⟩)
      (k'.asked ⟨kind, code, .ofMatch labels (τ begun) (τ ended) v⟩)
  act (code : String) (labels : Scope Value) (begun ended : Cursor) (v : Value) :
    h.act code (.ofMatch labels (τ begun) (τ ended) v) = h.act code (.ofMatch labels begun ended v)
  judge (code : String) (labels : Scope Value) (begun ended : Cursor) (v : Value) :
    h.judge code (.ofMatch labels (τ begun) (τ ended) v) =
      h.judge code (.ofMatch labels begun ended v)

/-! ### Pairs -/

/-- The same value or the same reason for none, in related courses. -/
inductive Paired (R : Course → Course → Prop) :
    EStateM.Result Stop Course α → EStateM.Result Stop Course α → Prop
  | ok {a : α} {k k' : Course} : R k k' → Paired R (.ok a k) (.ok a k')
  | error {e : Stop} {k k' : Course} : R k k' → Paired R (.error e k) (.error e k')

/-- From related courses, both computations end alike. -/
def Pairs (R : Course → Course → Prop) (x y : Parse α) : Prop :=
  ∀ ⦃k k'⦄, R k k' → Paired R (x k) (y k')

namespace Pairs

theorem pure (a : α) : Pairs R (pure a : Parse α) (pure a) := fun _ _ hR => .ok hR

theorem throw (e : Stop) : Pairs R (throw e : Parse α) (throw e) := fun _ _ hR => .error hR

theorem bind {x y : Parse α} {f g : α → Parse β} (hxy : Pairs R x y)
    (hfg : ∀ a, Pairs R (f a) (g a)) : Pairs R (x >>= f) (y >>= g) := by
  intro k k' hR
  have hends := hxy hR
  rw [bind_apply, bind_apply]
  generalize x k = ending, y k' = ending' at hends
  cases hends with
  | ok hR' => exact hfg _ hR'
  | error hR' => exact .error hR'

theorem change {f f' : State → State} (hf : ∀ ⦃k k'⦄, R k k' → R (k.update f) (k'.update f')) :
    Pairs R (change f) (change f') := fun _ _ hR => .ok (hf hR)

section

variable (hR : InStep R τ h)

include hR

/-- Where the one side reads a cursor, the other one reads what it is there. -/
theorem cursor_bind {f g : Cursor → Parse β} (hfg : ∀ c, MetBy R c → Pairs R (f c) (g (τ c))) :
    Pairs R (cursor >>= f) (cursor >>= g) := by
  intro k k' hk
  have hends := hfg k.state.cursor ⟨k, k', hk, rfl⟩ hk
  rw [← hR.cursor hk] at hends
  exact hends

theorem moveTo {c : Cursor} (hc : MetBy R c) : Pairs R (moveTo c) (moveTo (τ c)) :=
  change fun _ _ hk => hR.moveTo hk hc

theorem fail (d : String) : Pairs R (Parse.change (·.fail d)) (Parse.change (·.fail d)) :=
  change fun _ _ hk => hR.failAt 0 d hk

/-- What a terminal does depends on the text ahead, and that is the same on both sides. -/
theorem step {f : State → α × State} (hf : Foreseen f) : Pairs R (step f) (step f) := by
  intro k k' hk
  have hahead : k'.state.cursor.ahead = k.state.cursor.ahead := by
    rw [hR.cursor hk, hR.ahead]
  have happly : ∀ k : Course, Parse.step f k =
      .ok (f k.state).1 (k.update fun s => (f s).2) := fun _ => rfl
  rw [happly, happly]
  rcases hf k.state.cursor.ahead with ⟨a, n, hs⟩ | ⟨a, n, d, hs⟩
  · simp only [Course.update, hs k.state rfl, hs k'.state hahead]
    exact .ok (hR.skip n hk)
  · simp only [Course.update, hs k.state rfl, hs k'.state hahead]
    exact .ok (hR.failAt n d hk)

/-- Behind a silent computation, reporting is suspended on both sides as often as before. -/
theorem silently {x y : Parse α} (hxy : Pairs R x y) : Pairs R (silently x) (silently y) := by
  intro k k' hk
  have happly : ∀ (z : Parse α) (k : Course), Parse.silently z k = (z >>= fun a => do
      Parse.change fun s => { s with suspended := k.state.suspended }
      return a) (k.update State.suspend) := fun _ _ => rfl
  have hsuspended : k.state.suspended = k'.state.suspended := (hR.suspended hk).symm
  have hsuspend : R (k.update State.suspend) (k'.update State.suspend) := by
    have hmore := hR.suspend (k.state.suspended + 1) hk
    unfold Course.update State.suspend at *
    rwa [← hsuspended]
  rw [happly, happly, ← hsuspended]
  refine bind hxy (fun a => ?_) hsuspend
  exact (change fun _ _ hk => hR.suspend k.state.suspended hk).bind fun _ => .pure a

/-- A code block is asked the same on both sides, and answers the same. -/
theorem ask {begun : Cursor} (kind : CodeKind) (code : String) (labels : Scope Value)
    (ended : Cursor) (v : Value) (hbegun : MetBy R begun) (answer : Except String α) :
    Pairs R (ask ⟨kind, code, .ofMatch labels begun ended v⟩ answer)
      (ask ⟨kind, code, .ofMatch labels (τ begun) (τ ended) v⟩ answer) := by
  intro k k' hk
  have hasked := hR.asked kind code labels ended v hk hbegun
  cases answer with
  | ok a => exact .ok hasked
  | error text => exact .error hasked

theorem collect {x y : Parse (Option Value)} (hxy : Pairs R x y) (fuel : Nat) :
    Pairs R (collect x fuel) (collect y fuel) := by
  induction fuel with
  | zero => exact .throw _
  | succ fuel ih =>
    rw [Parse.collect, Parse.collect]
    refine .cursor_bind hR fun begun _ => hxy.bind fun hit => ?_
    cases hit with
    | none => exact .pure _
    | some item =>
      refine .cursor_bind hR fun ended _ => ?_
      rw [hR.offset, hR.offset]
      split
      · exact .pure _
      · exact ih.bind fun _ => .pure _

end

end Pairs

/-! ### Expressions -/

section

variable {call call' : String → Parse (Option Value)} {fuel : Nat}

/-- The expression goes the same way on both sides. -/
def MeaningPairs (R : Course → Course → Prop) (h : Actions)
    (call call' : String → Parse (Option Value)) (fuel : Nat) (e : Expr) : Prop :=
  ∀ scopes, Pairs R (e.meaning h call fuel scopes) (e.meaning h call' fuel scopes)

theorem MeaningPairs.enclosed {e : Expr} (he : MeaningPairs R h call call' fuel e)
    (scopes : List (Scope Value)) :
    Pairs R (enclosed (e.meaning h call fuel) scopes) (enclosed (e.meaning h call' fuel) scopes) :=
  (he ([] :: scopes)).bind fun _ => .pure _

theorem meaningFirst_pairs {items : List Expr}
    (hitems : ∀ e ∈ items, MeaningPairs R h call call' fuel e) (scopes : List (Scope Value)) :
    Pairs R (Expr.meaningFirst h call fuel items scopes)
      (Expr.meaningFirst h call' fuel items scopes) := by
  induction items with
  | nil => exact .pure _
  | cons e es ih =>
    obtain ⟨he, hes⟩ := List.forall_mem_cons.mp hitems
    rw [Expr.meaningFirst, Expr.meaningFirst]
    refine (he.enclosed scopes).bind fun hit => ?_
    cases hit with
    | none => exact ih hes
    | some v => exact .pure _

theorem meaningAll_pairs {items : List Expr}
    (hitems : ∀ e ∈ items, MeaningPairs R h call call' fuel e) (scopes : List (Scope Value)) :
    Pairs R (Expr.meaningAll h call fuel items scopes)
      (Expr.meaningAll h call' fuel items scopes) := by
  induction items generalizing scopes with
  | nil => exact .pure _
  | cons e es ih =>
    obtain ⟨he, hes⟩ := List.forall_mem_cons.mp hitems
    rw [Expr.meaningAll, Expr.meaningAll]
    refine (he scopes).bind fun hit => ?_
    cases hit with
    | none => exact .pure _
    | some found => exact (ih hes found.2).bind fun _ => .pure _

/-- An expression goes the same way on both sides if the rules do that it refers to. -/
theorem Expr.meaning_pairs (hR : InStep R τ h) (e : Expr)
    (hcall : ∀ ref ∈ e.references, Pairs R (call ref.name) (call' ref.name)) :
    MeaningPairs R h call call' fuel e := by
  induction e using Expr.inductionOn with
  | named i name body ih =>
    intro scopes
    rw [meaning, meaning]
    refine (Pairs.silently hR (ih hcall scopes)).bind fun hit => ?_
    cases hit with
    | none => exact (Pairs.fail hR name).bind fun _ => .pure _
    | some found => exact .pure _
  | choice i items ih =>
    intro scopes
    rw [meaning, meaning]
    refine (meaningFirst_pairs (fun e he => ih e he fun ref href => ?_) scopes).bind
      fun _ => .pure _
    exact hcall ref (references_child_subset (e := .choice i items) he href)
  | action i code params body ih =>
    intro scopes
    rw [meaning, meaning]
    refine .cursor_bind hR fun begun hbegun => (ih hcall ([] :: scopes)).bind fun hit => ?_
    cases hit with
    | none => exact .pure _
    | some found =>
      obtain ⟨matched, inner⟩ := found
      refine .cursor_bind hR fun ended _ => ?_
      dsimp only
      rw [hR.act]
      refine (Pairs.ask hR .action code _ ended matched hbegun _).bind fun answer => ?_
      split
      · exact (Pairs.moveTo hR hbegun).bind fun _ => .pure _
      · exact .pure _
  | sequence i items ih =>
    intro scopes
    rw [meaning, meaning]
    refine .cursor_bind hR fun begun hbegun => ?_
    refine (meaningAll_pairs (fun e he => ih e he fun ref href => ?_) scopes).bind fun hit => ?_
    · exact hcall ref (references_child_subset (e := .sequence i items) he href)
    · cases hit with
      | none => exact (Pairs.moveTo hR hbegun).bind fun _ => .pure _
      | some found => exact .pure _
  | labeled i label body ih =>
    intro scopes
    rw [meaning, meaning]
    exact ((ih hcall).enclosed scopes).bind fun _ => .pure _
  | lookahead i negated body ih =>
    intro scopes
    rw [meaning, meaning]
    refine .cursor_bind hR fun begun hbegun => ?_
    refine (Pairs.silently hR ((ih hcall).enclosed scopes)).bind fun v => ?_
    cases v with
    | none => exact .pure _
    | some v => exact (Pairs.moveTo hR hbegun).bind fun _ => .pure _
  | predicate i negated code params =>
    intro scopes
    rw [meaning, meaning]
    refine .cursor_bind hR fun here hhere => ?_
    dsimp only
    rw [hR.judge]
    exact (Pairs.ask hR .predicate code _ here .null hhere _).bind fun _ => .pure _
  | optional i body ih =>
    intro scopes
    rw [meaning, meaning]
    exact ((ih hcall).enclosed scopes).bind fun _ => .pure _
  | repeated i nonempty body ih =>
    intro scopes
    rw [meaning, meaning]
    exact (Pairs.collect hR ((ih hcall).enclosed scopes) fuel).bind fun _ => .pure _
  | ruleRef i name =>
    intro scopes
    rw [meaning_ruleRef, meaning_ruleRef]
    exact (hcall ⟨name, i.span⟩ List.mem_cons_self).bind fun _ => .pure _
  | literal i value ignoreCase =>
    intro scopes
    rw [meaning, meaning]
    exact (Pairs.step hR (foreseen_literal value ignoreCase _)).bind fun _ => .pure _
  | charClass i members raw =>
    intro scopes
    rw [meaning, meaning]
    exact (Pairs.step hR (foreseen_charValue members.accepts raw)).bind fun _ => .pure _
  | any i =>
    intro scopes
    rw [meaning, meaning]
    exact (Pairs.step hR (foreseen_charValue _ State.anyCharacter)).bind fun _ => .pure _

end

/-! ### Rules -/

/-- Remembering keeps the relation, if the one side remembers a rule by one number and the other
side by another. -/
structure Remembers (R : Course → Course → Prop) (τ : Cursor → Cursor) (rule rule' : Nat) :
    Prop where
  miss {k k' : Course} : R k k' → k.state.lookUp rule = none → k'.state.lookUp rule' = none
  hit {k k' : Course} {result : Option Value} {s : State} : R k k' →
    k.state.lookUp rule = some (result, s) →
      ∃ s', k'.state.lookUp rule' = some (result, s') ∧
        R { k with state := s } { k' with state := s' }
  entered {k k' : Course} (offset : Nat) (reporting : Bool) : R k k' →
    R (k.update (·.note (.entered rule offset reporting)))
      (k'.update (·.note (.entered rule' offset reporting)))
  remember {k k' : Course} {begun : Cursor} (result : Option Value) : R k k' → MetBy R begun →
    R (k.update (·.remember rule begun result)) (k'.update (·.remember rule' (τ begun) result))

section

variable {rule rule' : Nat}

theorem Pairs.remembered (hR : InStep R τ h) (hmemory : Remembers R τ rule rule')
    {x y : Parse (Option Value)} (hxy : Pairs R x y) :
    Pairs R (remembered rule x) (remembered rule' y) := by
  intro k k' hk
  cases hlook : k.state.lookUp rule with
  | some found =>
    obtain ⟨result, s⟩ := found
    obtain ⟨s', hlook', hs⟩ := hmemory.hit hk hlook
    rw [remembered_of_hit hlook, remembered_of_hit hlook']
    exact .ok hs
  | none =>
    have hoffset : k'.state.offset = k.state.offset := by
      rw [State.offset, State.offset, hR.cursor hk, hR.offset]
    have hreporting : k'.state.reporting = k.state.reporting := by
      rw [State.reporting, State.reporting, hR.suspended hk]
    rw [remembered_of_miss x hlook, remembered_of_miss y (hmemory.miss hk hlook), hoffset,
      hreporting, hR.cursor hk]
    refine hxy.bind (fun result => ?_) (hmemory.entered _ _ hk)
    exact (change fun _ _ hk' => hmemory.remember result hk' ⟨k, k', hk, rfl⟩).bind fun _ => .pure _

end

/-- Rules of two grammars go the same way, if the names that they lead to mean the same rules in
both. -/
theorem Grammar.outcome_pairs {g g' : Grammar} {S : String → Prop} (hR : InStep R τ h)
    (hmemory : ∀ name, S name → Remembers R τ (g.number name) (g'.number name))
    (hfind : ∀ name, S name → g.find? name = g'.find? name)
    (hclosed : ∀ name r, S name → g.find? name = some r → ∀ ref ∈ r.body.references, S ref.name)
    (fuel : Nat) {name : String} (hname : S name) :
    Pairs R (g.outcome h fuel name) (g'.outcome h fuel name) := by
  induction fuel generalizing name with
  | zero => exact .throw _
  | succ fuel ih =>
    rw [outcome, outcome, ← hfind name hname]
    cases hr : g.find? name with
    | none => exact .pure _
    | some r =>
      refine Pairs.remembered hR (hmemory name hname) (MeaningPairs.enclosed ?_ [])
      exact r.body.meaning_pairs hR fun ref href => ih (hclosed name r hname hr ref href)

/-- Rules of one grammar go the same way from related courses. -/
theorem Grammar.outcome_pairs_self {g : Grammar} (hR : InStep R τ h)
    (hmemory : ∀ rule, Remembers R τ rule rule) (fuel : Nat) (name : String) :
    Pairs R (g.outcome h fuel name) (g.outcome h fuel name) :=
  outcome_pairs (S := fun _ => True) hR (fun _ _ => hmemory _) (fun _ _ => rfl)
    (fun _ _ _ _ _ _ => trivial) fuel trivial

theorem Paired.verdict_eq {x y : EStateM.Result Stop Course (Option Value)} (hxy : Paired R x y)
    (hfinish : ∀ k k', R k k' → ∀ result : Option Value,
      k.state.finish result = k'.state.finish result) : Grammar.verdict x = Grammar.verdict y := by
  cases hxy with
  | @ok result k k' hk => simp only [Grammar.verdict, hfinish k k' hk]
  | @error e _ _ _ => cases e <;> rfl

theorem Paired.finalCourse {x y : EStateM.Result Stop Course (Option Value)} (hxy : Paired R x y) :
    R (Grammar.finalCourse x) (Grammar.finalCourse y) := by
  cases hxy with
  | ok hk => exact hk
  | error hk => exact hk

end Packrat
