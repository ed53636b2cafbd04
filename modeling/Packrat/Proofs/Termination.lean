import Mathlib.Data.Finset.Card
import Mathlib.Data.Finset.Dedup
import Packrat.Proofs.Compilation
import Packrat.Proofs.Contract
import Packrat.Proofs.Literals
import Packrat.Proofs.Proxies

/-!
# Parses end

A grammar without leftmost cycles may still run in circles. The check looks at the first element of
a sequence only, and where that one can match nothing, the parse goes on to the second without
having moved. Grammars in which no sequence begins that way (`Grammar.FirstsConsume`) have no other
gap: their parses end on every text, repetitions of what matches nothing included.

Whether an expression can match nothing is read off its form (`Grammar.Nullable`); the relation is
the least one that its clauses allow, so rules that are nullable only because of each other are not.
What matches without moving the cursor is nullable, and that is proved together with termination:
each needs the other at every call.

## The measure

A call of a rule either comes in leftmost position, and leads to a rule of smaller `Grammar.height`,
the number of rules that can be reached through leftmost references; or the cursor has moved, and
less text is left. A body repeats its passes as long as the cursor moves. So fuel enough for every
parse is known in advance: for each character that is left, as much as there are rules, and two more
(`evaluate_ends`).

Parses are taken without a memory, and without any rule removed; neither changes results.

## Main results

* `Expr.meaning_ends`: an expression ends if its calls do, and what does not move is nullable
* `Grammar.outcome_ends`: so does a rule, with enough fuel
* `buildMatcher_terminates`: a built matcher has a result for every text and start
-/

namespace Packrat

/-! ### What can match nothing -/

/-- The expression may match without consuming anything, as far as its form tells. -/
inductive Grammar.Nullable (g : Grammar) : Expr → Prop
  | named {i : Info} {name : String} {body : Expr} : g.Nullable body →
      g.Nullable (.named i name body)
  | choice {i : Info} {items : List Expr} {e : Expr} : e ∈ items → g.Nullable e →
      g.Nullable (.choice i items)
  | action {i : Info} {code : String} {params : Params} {body : Expr} : g.Nullable body →
      g.Nullable (.action i code params body)
  | sequence {i : Info} {items : List Expr} : (∀ e ∈ items, g.Nullable e) →
      g.Nullable (.sequence i items)
  | labeled {i : Info} {label : String} {body : Expr} : g.Nullable body →
      g.Nullable (.labeled i label body)
  | lookahead {i : Info} {negated : Bool} {body : Expr} : g.Nullable (.lookahead i negated body)
  | predicate {i : Info} {negated : Bool} {code : String} {params : Params} :
      g.Nullable (.predicate i negated code params)
  | optional {i : Info} {body : Expr} : g.Nullable (.optional i body)
  | zeroOrMore {i : Info} {body : Expr} : g.Nullable (.repeated i false body)
  | oneOrMore {i : Info} {body : Expr} : g.Nullable body → g.Nullable (.repeated i true body)
  | ruleRef {i : Info} {name : String} {rule : Rule} : g.find? name = some rule →
      g.Nullable rule.body → g.Nullable (.ruleRef i name)
  | literal {i : Info} {ignoreCase : Bool} : g.Nullable (.literal i "" ignoreCase)

/-- No sequence inside an expression has a nullable element in front of all others. -/
def Expr.FirstsConsume (g : Grammar) (e : Expr) : Prop :=
  ∀ (i : Info) (first next : Expr) (rest : List Expr),
    (Expr.sequence i (first :: next :: rest)).Inside e → ¬ g.Nullable first

/-- No sequence of the grammar has a nullable element in front of all others. -/
def Grammar.FirstsConsume (g : Grammar) : Prop := ∀ rule ∈ g.rules, rule.body.FirstsConsume g

/-- The name means a rule whose body is nullable. -/
def Grammar.NullableRule (g : Grammar) (name : String) : Prop :=
  ∃ rule, g.find? name = some rule ∧ g.Nullable rule.body

theorem Expr.FirstsConsume.child {g : Grammar} {e c : Expr} (h : e.FirstsConsume g)
    (hc : c ∈ e.children) : c.FirstsConsume g :=
  fun i first next rest hinside => h i first next rest (.child hc hinside)

theorem Expr.FirstsConsume.of_children {g : Grammar} {e : Expr}
    (hself : ∀ i first next rest, e = .sequence i (first :: next :: rest) → ¬ g.Nullable first)
    (hchildren : ∀ c ∈ e.children, c.FirstsConsume g) : e.FirstsConsume g := by
  rintro i first next rest (_ | ⟨hc, hinside⟩)
  · exact hself i first next rest rfl
  · exact hchildren _ hc i first next rest hinside

theorem Expr.leftmost_subset_references (e : Expr) : e.leftmost ⊆ e.references := by
  induction e using Expr.inductionOn with
  | choice i items ih =>
    intro ref href
    rw [leftmost, leftmostAll_eq_flatMap, List.mem_flatMap] at href
    obtain ⟨e, he, href⟩ := href
    rw [references, referencesAll_eq_flatMap, List.mem_flatMap]
    exact ⟨e, he, ih e he href⟩
  | sequence i items ih =>
    cases items with
    | nil => exact fun ref href => href
    | cons first rest =>
      intro ref href
      exact List.mem_append_left _ (ih first List.mem_cons_self href)
  | named _ _ _ ih | action _ _ _ _ ih | labeled _ _ _ ih | lookahead _ _ _ ih | optional _ _ ih
  | repeated _ _ _ ih => exact ih
  | _ => exact fun ref href => href

/-! ### Courses that only go on -/

/-- Number of characters that are left. -/
def Course.left (k : Course) : Nat := k.state.cursor.ahead.length

/-- The second course has come from the first: it has no memory either, and its cursor stands in the
same place or further on. -/
structure Course.Onward (k k' : Course) : Prop where
  forgetful : k'.state.memory = none
  between : ∃ cs, k.state.cursor.Between cs k'.state.cursor

namespace Course.Onward

variable {k k' k'' : Course}

theorem refl (h : k.state.memory = none) : k.Onward k := ⟨h, [], .refl _⟩

theorem trans (h : k.Onward k') (h' : k'.Onward k'') : k.Onward k'' := by
  obtain ⟨cs, hcs⟩ := h.between
  obtain ⟨ds, hds⟩ := h'.between
  exact ⟨h'.forgetful, cs ++ ds, hcs.trans hds⟩

theorem left_le (h : k.Onward k') : k'.left ≤ k.left := by
  obtain ⟨cs, hcs⟩ := h.between
  rw [left, left, hcs.ahead, List.length_append]
  exact Nat.le_add_left _ _

/-- The cursor has moved exactly if less is left. -/
theorem offset_eq_iff (h : k.Onward k') :
    k'.state.cursor.offset = k.state.cursor.offset ↔ k'.left = k.left := by
  obtain ⟨cs, hcs⟩ := h.between
  rw [Cursor.offset, Cursor.offset, hcs.position, Position.offset_advance, Nat.add_eq_left,
    Text.byteLength_eq_zero_iff, left, left, hcs.ahead, List.length_append, Nat.right_eq_add,
    List.length_eq_zero_iff]

/-- A report of a failure moves nothing. -/
theorem failed (h : k.Onward k') (d : String) : k.Onward (k'.update (·.fail d)) := by
  refine ⟨(State.memory_failAt ..).trans h.forgetful, ?_⟩
  obtain ⟨cs, hcs⟩ := h.between
  exact ⟨cs, (State.cursor_failAt ..).symm ▸ hcs⟩

theorem asked (h : k.Onward k') (call : HostCall) : k.Onward (k'.asked call) :=
  ⟨h.forgetful, h.between⟩

/-- Back where it began, the parse has gone on by nothing. -/
theorem back (h : k.Onward k') : k.Onward (k'.update (·.moveTo k.state.cursor)) :=
  ⟨h.forgetful, [], .refl _⟩

end Course.Onward

/-- What holds behind a match or a failure: the parse has gone on, and by something unless what
matched was `free` to match nothing. -/
structure Advances {α : Type} (free : Prop) (k : Course) (hit : Option α) (k' : Course) : Prop where
  onward : k.Onward k'
  consumes : hit.isSome → k'.left = k.left → free

theorem Advances.none {α : Type} {free : Prop} {k k' : Course} (h : k.Onward k') :
    Advances free k (none : Option α) k' := ⟨h, nofun⟩

theorem Advances.of_free {α : Type} {free : Prop} {k k' : Course} (h : k.Onward k') (hfree : free)
    (hit : Option α) : Advances free k hit k' := ⟨h, fun _ _ => hfree⟩

theorem Advances.mono {α β : Type} {free free' : Prop} {k k' : Course} {hit : Option α}
    {hit' : Option β} (h : Advances free k hit k') (hhit : hit'.isSome → hit.isSome)
    (hfree : free → free') : Advances free' k hit' k' :=
  ⟨h.onward, fun hsome hleft => hfree (h.consumes (hhit hsome) hleft)⟩

/-! ### Endings -/

namespace Parse

variable {α β : Type} {k : Course} {P P' : α → Course → Prop} {Q : β → Course → Prop}

/-- The computation ends, with a result as `P` has it or with the error of a code block. -/
def Ends (x : Parse α) (k : Course) (P : α → Course → Prop) : Prop :=
  match x k with
  | .ok a k' => P a k'
  | .error e _ => e ≠ .outOfFuel

theorem Ends.mono {x : Parse α} (h : x.Ends k P) (hP : ∀ a k', P a k' → P' a k') :
    x.Ends k P' := by
  unfold Ends at h ⊢
  cases hx : x k with
  | ok a k' =>
    rw [hx] at h
    exact hP a k' h
  | error e k' =>
    rw [hx] at h
    exact h

theorem Ends.pure {a : α} (h : P a k) : (pure a : Parse α).Ends k P := h

theorem Ends.bind {x : Parse α} {f : α → Parse β} (h : x.Ends k P)
    (hf : ∀ a k', P a k' → (f a).Ends k' Q) : (x >>= f).Ends k Q := by
  unfold Ends at h ⊢
  rw [bind_apply]
  cases hx : x k with
  | ok a k' =>
    rw [hx] at h
    exact hf a k' h
  | error e k' =>
    rw [hx] at h
    exact h

/-- Behind a step that cannot fail, the rest of the computation decides. -/
theorem Ends.of_ok {x : Parse α} {f : α → Parse β} {a : α} {k' : Course} (hx : x k = .ok a k')
    (hf : (f a).Ends k' Q) : (x >>= f).Ends k Q := by
  unfold Ends
  rw [bind_apply, hx]
  exact hf

theorem Ends.ask (call : HostCall) (answer : Except String α) :
    (ask call answer).Ends k fun _ k' => k' = k.asked call := by
  cases answer with
  | ok a => exact rfl
  | error text => exact Stop.noConfusion

/-- A suspension of reporting moves nothing. -/
theorem Ends.silently {free : Prop} {x : Parse (Option α)}
    (h : x.Ends (k.update State.suspend) (Advances free (k.update State.suspend))) :
    (silently x).Ends k (Advances free k) := by
  refine .of_ok rfl (.of_ok rfl (h.bind fun hit k' hhit => .of_ok rfl (.pure ?_)))
  exact ⟨⟨hhit.onward.forgetful, hhit.onward.between⟩, hhit.consumes⟩

end Parse

/-! ### Expressions -/

section

variable {g : Grammar} {h : Actions} {call : String → Parse (Option Value)} {fuel n : Nat}
  {scopes : List (Scope Value)} {k : Course}

/-- With fewer than `n` characters left, a call of the rule ends. -/
def CallEnds (g : Grammar) (call : String → Parse (Option Value)) (n : Nat) (name : String) :
    Prop :=
  ∀ k : Course, k.state.memory = none → k.left < n →
    (call name).Ends k (Advances (g.NullableRule name) k)

/-- With no more than `n` characters left, the calls that an expression makes end: those in leftmost
position wherever the cursor stands, the others behind a step forward. -/
structure CallsEnd (g : Grammar) (call : String → Parse (Option Value)) (n : Nat) (e : Expr) :
    Prop where
  leftmost : ∀ ref ∈ e.leftmost, CallEnds g call (n + 1) ref.name
  references : ∀ ref ∈ e.references, CallEnds g call n ref.name

theorem CallEnds.later {n' : Nat} {name : String} (hcall : CallEnds g call n name) (hle : n' ≤ n) :
    CallEnds g call n' name :=
  fun k hk hleft => hcall k hk (Nat.lt_of_lt_of_le hleft hle)

/-- Behind a step forward, all calls end. -/
theorem CallsEnd.of_references {e : Expr}
    (hcalls : ∀ ref ∈ e.references, CallEnds g call (n + 1) ref.name) : CallsEnd g call n e where
  leftmost ref href := hcalls ref (e.leftmost_subset_references href)
  references ref href := (hcalls ref href).later (Nat.le_succ n)

/-- The expression ends with no more than `n` characters left, and it is nullable if it matches
without moving the cursor. -/
def MeaningEnds (g : Grammar) (h : Actions) (call : String → Parse (Option Value)) (fuel n : Nat)
    (e : Expr) : Prop :=
  ∀ (scopes : List (Scope Value)) (k : Course), k.state.memory = none → k.left ≤ n →
    (e.meaning h call fuel scopes).Ends k (Advances (g.Nullable e) k)

theorem MeaningEnds.enclosed {e : Expr} (he : MeaningEnds g h call fuel n e)
    (scopes : List (Scope Value)) (hk : k.state.memory = none) (hn : k.left ≤ n) :
    (Parse.enclosed (e.meaning h call fuel) scopes).Ends k (Advances (g.Nullable e) k) := by
  refine (he ([] :: scopes) k hk hn).bind fun hit k' hhit => .pure (hhit.mono ?_ id)
  intro hsome
  rwa [Option.isSome_map] at hsome

/-- Alternatives end, and one of them is nullable if one matches without moving the cursor. -/
theorem meaningFirst_ends {items : List Expr} (hitems : ∀ e ∈ items, MeaningEnds g h call fuel n e)
    (hk : k.state.memory = none) (hn : k.left ≤ n) :
    (Expr.meaningFirst h call fuel items scopes).Ends k
      (Advances (∃ e ∈ items, g.Nullable e) k) := by
  induction items generalizing k with
  | nil => exact .pure (.none (.refl hk))
  | cons e es ih =>
    rw [Expr.meaningFirst]
    obtain ⟨he, hes⟩ := List.forall_mem_cons.mp hitems
    refine (he.enclosed _ hk hn).bind fun hit k₁ hhit => ?_
    cases hit with
    | some v => exact .pure (hhit.mono id fun hnull => ⟨e, List.mem_cons_self, hnull⟩)
    | none =>
      have hle := hhit.onward.left_le
      refine (ih hes hhit.onward.forgetful (hle.trans hn)).mono fun hit k₂ hrest => ?_
      refine ⟨hhit.onward.trans hrest.onward, fun hsome hleft => ?_⟩
      have hle' := hrest.onward.left_le
      obtain ⟨e', he', hnull⟩ := hrest.consumes hsome (by omega)
      exact ⟨e', List.mem_cons_of_mem _ he', hnull⟩

/-- Elements in sequence end, and all of them are nullable if they match without moving the cursor.
-/
theorem meaningAll_ends {items : List Expr} (hitems : ∀ e ∈ items, MeaningEnds g h call fuel n e)
    (hk : k.state.memory = none) (hn : k.left ≤ n) :
    (Expr.meaningAll h call fuel items scopes).Ends k
      (Advances (∀ e ∈ items, g.Nullable e) k) := by
  induction items generalizing k scopes with
  | nil => exact .pure (.of_free (.refl hk) nofun _)
  | cons e es ih =>
    rw [Expr.meaningAll]
    obtain ⟨he, hes⟩ := List.forall_mem_cons.mp hitems
    refine (he scopes k hk hn).bind fun hit k₁ hhit => ?_
    cases hit with
    | none => exact .pure (.none hhit.onward)
    | some found =>
      obtain ⟨v, inner⟩ := found
      have hle := hhit.onward.left_le
      refine (ih hes hhit.onward.forgetful (hle.trans hn)).bind fun hit k₂ hrest => .pure ?_
      refine ⟨hhit.onward.trans hrest.onward, fun hsome hleft => ?_⟩
      have hle' := hrest.onward.left_le
      rw [Option.isSome_map] at hsome
      refine List.forall_mem_cons.mpr ⟨hhit.consumes rfl (by omega), ?_⟩
      exact hrest.consumes hsome (by omega)

/-- A repetition ends because every pass but the last moves the cursor. -/
theorem collect_ends {free : Prop} {pass : Parse (Option Value)}
    (hpass : ∀ k : Course, k.state.memory = none → k.left ≤ n → pass.Ends k (Advances free k))
    (hk : k.state.memory = none) (hn : k.left ≤ n) {count : Nat} (hcount : k.left < count) :
    (Parse.collect pass count).Ends k fun items k' =>
      k.Onward k' ∧ (items ≠ [] → k'.left = k.left → free) := by
  induction count generalizing k with
  | zero => omega
  | succ count ih =>
    refine .of_ok rfl ((hpass k hk hn).bind fun hit k₁ hhit => ?_)
    cases hit with
    | none => exact .pure ⟨hhit.onward, nofun⟩
    | some item =>
      refine .of_ok rfl ?_
      split
      · exact .pure ⟨hhit.onward, fun _ => hhit.consumes rfl⟩
      · next hmoved =>
        have hle := hhit.onward.left_le
        have hne : k₁.left ≠ k.left := fun heq => hmoved (hhit.onward.offset_eq_iff.mpr heq)
        have hrest := ih hhit.onward.forgetful (hle.trans hn) (by omega)
        refine hrest.bind fun items k₂ hitems => .pure ⟨hhit.onward.trans hitems.1, ?_⟩
        intro _ hleft
        have hle' := hitems.1.left_le
        omega

/-! ### Terminals -/

/-- A literal consumes as many characters as it has. -/
theorem length_literal {s t : State} {value : String} {ignoreCase : Bool} {d : String} {v : Value}
    (hs : s.literal value ignoreCase d = (some v, t)) :
    t.cursor.ahead.length + value.toList.length = s.cursor.ahead.length := by
  obtain ⟨taken, rest, hsplit, hlength, -, -, rfl⟩ := State.literal_matched hs
  rw [State.cursor_moveTo, hsplit, List.length_append, hlength, Nat.add_comm]

/-- A step over one character consumes it. -/
theorem length_charValue {s t : State} {p : Char → Bool} {d : String} {v : Value}
    (hs : s.charValue p d = (some v, t)) :
    t.cursor.ahead.length + 1 = s.cursor.ahead.length := by
  obtain ⟨text, ⟨position, _ | ⟨c, rest⟩⟩, suspended, failure, expected, memory, journal⟩ := s
  · cases hs
  · by_cases hp : p c
    · simp only [State.charValue, State.charWhere, hp, if_true] at hs
      obtain ⟨-, rfl⟩ := Prod.mk.inj hs
      rfl
    · simp only [State.charValue, State.charWhere, hp] at hs
      cases hs

/-- A terminal ends. -/
theorem step_ends {free : Prop} {f : State → Option Value × State} (hf : Takes f)
    (hfree : ∀ s v t, f s = (some v, t) → t.cursor.ahead.length = s.cursor.ahead.length → free)
    (hk : k.state.memory = none) :
    (Parse.step f >>= fun v => pure (Hit.within scopes v)).Ends k (Advances free k) := by
  refine .of_ok rfl (.pure ?_)
  change Advances free k (Hit.within scopes (f k.state).1) ⟨(f k.state).2, k.calls⟩
  rcases hf k.state with ⟨n, heq⟩ | ⟨place, d, heq⟩
  · rw [heq]
    refine ⟨⟨hk, _, k.state.cursor.between_skip n⟩, fun _ hleft => ?_⟩
    exact hfree _ _ _ heq hleft
  · rw [heq]
    exact .none ⟨(State.memory_failAt ..).trans hk, [], (State.cursor_failAt ..).symm ▸ .refl _⟩

/-! ### All expressions -/

/-- The elements of a sequence end. The first one consumes something unless it is the only one, so
the calls in the others are made behind a step forward. -/
theorem elements_end {i : Info} {items : List Expr}
    (ih : ∀ e ∈ items, ∀ {n : Nat}, e.FirstsConsume g → CallsEnd g call n e → n < fuel →
      MeaningEnds g h call fuel n e)
    (he : (Expr.sequence i items).FirstsConsume g) (hcalls : CallsEnd g call n (.sequence i items))
    (hfuel : n < fuel) (hk : k.state.memory = none) (hn : k.left ≤ n) :
    (Expr.meaningAll h call fuel items scopes).Ends k (Advances (∀ e ∈ items, g.Nullable e) k) := by
  have hreferences : ∀ e ∈ items, ∀ ref ∈ e.references, CallEnds g call n ref.name :=
    fun e hmem ref href => hcalls.references ref (Expr.references_child_subset hmem href)
  match items with
  | [] => exact meaningAll_ends nofun hk hn
  | first :: rest =>
    have hfirst : MeaningEnds g h call fuel n first := by
      refine ih first List.mem_cons_self (he.child List.mem_cons_self) ⟨hcalls.leftmost, ?_⟩ hfuel
      exact hreferences first List.mem_cons_self
    cases rest with
    | nil => exact meaningAll_ends (List.forall_mem_singleton.mpr hfirst) hk hn
    | cons next rest =>
      have hconsumes : ¬ g.Nullable first := he i first next rest .self
      rw [Expr.meaningAll]
      refine (hfirst scopes k hk hn).bind fun hit k₁ hhit => ?_
      cases hit with
      | none => exact .pure (.none hhit.onward)
      | some found =>
        obtain ⟨v, inner⟩ := found
        have hle := hhit.onward.left_le
        have hmoved : k₁.left ≠ k.left := fun heq => hconsumes (hhit.consumes rfl heq)
        obtain ⟨n, rfl⟩ : ∃ n', n = n' + 1 := ⟨n - 1, by omega⟩
        have hrest : ∀ e ∈ next :: rest, MeaningEnds g h call fuel n e := by
          intro e hmem
          have hmem' := List.mem_cons_of_mem first hmem
          exact ih e hmem' (he.child hmem') (.of_references (hreferences e hmem')) (by omega)
        refine (meaningAll_ends hrest hhit.onward.forgetful (by omega)).bind
          fun hit k₂ hlast => .pure ⟨hhit.onward.trans hlast.onward, fun _ hleft => ?_⟩
        have hle' := hlast.onward.left_le
        omega

/-- An expression ends if its calls do. -/
theorem Expr.meaning_ends (e : Expr) (he : e.FirstsConsume g) (hcalls : CallsEnd g call n e)
    (hfuel : n < fuel) : MeaningEnds g h call fuel n e := by
  induction e using Expr.inductionOn generalizing n with
  | named i name body ih =>
    intro scopes k hk hn
    have hbody := ih (he.child List.mem_cons_self) ⟨hcalls.leftmost, hcalls.references⟩ hfuel
    refine (Parse.Ends.silently (hbody scopes _ hk hn)).bind fun hit k' hhit => ?_
    cases hit with
    | none =>
      have honward := hhit.onward.failed name
      exact .of_ok rfl (.pure (.none honward))
    | some found => exact .pure (hhit.mono id .named)
  | choice i items ih =>
    intro scopes k hk hn
    have hitems : ∀ e ∈ items, MeaningEnds g h call fuel n e := by
      intro e hmem
      refine ih e hmem (he.child hmem) ⟨fun ref href => ?_, fun ref href => ?_⟩ hfuel
      · refine hcalls.leftmost ref ?_
        rw [leftmost, leftmostAll_eq_flatMap]
        exact List.mem_flatMap_of_mem hmem href
      · exact hcalls.references ref (references_child_subset hmem href)
    refine (meaningFirst_ends hitems hk hn).bind fun v k' hv => .pure (hv.mono ?_ ?_)
    · intro hsome
      rwa [Hit.within, Option.isSome_map] at hsome
    · rintro ⟨e, hmem, hnull⟩
      exact .choice hmem hnull
  | action i code params body ih =>
    intro scopes k hk hn
    have hbody := ih (he.child List.mem_cons_self) ⟨hcalls.leftmost, hcalls.references⟩ hfuel
    refine .of_ok rfl ((hbody ([] :: scopes) k hk hn).bind fun hit k' hhit => ?_)
    cases hit with
    | none => exact .pure (.none hhit.onward)
    | some found =>
      obtain ⟨matched, inner⟩ := found
      refine .of_ok rfl (Parse.Ends.bind (.ask _ _) ?_)
      rintro answer _ rfl
      split
      · exact .of_ok rfl (.pure (.none (hhit.onward.asked _).back))
      · exact .pure ⟨hhit.onward.asked _, fun _ hleft => .action (hhit.consumes rfl hleft)⟩
  | sequence i items ih =>
    intro scopes k hk hn
    refine .of_ok rfl ((elements_end ih he hcalls hfuel hk hn).bind fun hit k' hhit => ?_)
    cases hit with
    | none => exact .of_ok rfl (.pure (.none hhit.onward.back))
    | some found =>
      obtain ⟨vs, inner⟩ := found
      exact .pure (hhit.mono (fun _ => rfl) .sequence)
  | labeled i label body ih =>
    intro scopes k hk hn
    have hbody := ih (he.child List.mem_cons_self) ⟨hcalls.leftmost, hcalls.references⟩ hfuel
    refine (hbody.enclosed _ hk hn).bind fun v k' hv => .pure (hv.mono ?_ .labeled)
    intro hsome
    rwa [Option.isSome_map] at hsome
  | lookahead i negated body ih =>
    intro scopes k hk hn
    have hbody := ih (he.child List.mem_cons_self) ⟨hcalls.leftmost, hcalls.references⟩ hfuel
    refine .of_ok rfl (Parse.Ends.bind (Parse.Ends.silently (hbody.enclosed _ hk hn))
      fun v k' hv => ?_)
    cases v with
    | none => exact .pure (.of_free hv.onward .lookahead _)
    | some v => exact .of_ok rfl (.pure (.of_free hv.onward.back .lookahead _))
  | predicate i negated code params =>
    intro scopes k hk hn
    refine .of_ok rfl (Parse.Ends.bind (.ask _ _) ?_)
    rintro agrees _ rfl
    exact .pure (.of_free ((Course.Onward.refl hk).asked _) .predicate _)
  | optional i body ih =>
    intro scopes k hk hn
    have hbody := ih (he.child List.mem_cons_self) ⟨hcalls.leftmost, hcalls.references⟩ hfuel
    exact (hbody.enclosed _ hk hn).bind fun v k' hv => .pure (.of_free hv.onward .optional _)
  | repeated i nonempty body ih =>
    intro scopes k hk hn
    have hbody := ih (he.child List.mem_cons_self) ⟨hcalls.leftmost, hcalls.references⟩ hfuel
    have hpasses := collect_ends (fun k hk hn => hbody.enclosed scopes hk hn) hk hn
      (Nat.lt_of_le_of_lt hn hfuel)
    refine hpasses.bind fun items k' hitems => .pure ⟨hitems.1, fun hsome hleft => ?_⟩
    cases nonempty with
    | false => exact .zeroOrMore
    | true =>
      refine .oneOrMore (hitems.2 ?_ hleft)
      rintro rfl
      cases hsome
  | ruleRef i name =>
    intro scopes k hk hn
    have hcall := hcalls.leftmost ⟨name, i.span⟩ (List.mem_singleton.mpr rfl) k hk
      (Nat.lt_succ_of_le hn)
    refine hcall.bind fun v k' hv => .pure (hv.mono ?_ ?_)
    · intro hsome
      rwa [Hit.within, Option.isSome_map] at hsome
    · rintro ⟨rule, hrule, hnull⟩
      exact .ruleRef hrule hnull
  | literal i value ignoreCase =>
    intro scopes k hk hn
    refine step_ends (takes_literal value ignoreCase _) (fun s v t hs hleft => ?_) hk
    have hlength := length_literal hs
    have hempty : value.toList = [] := List.length_eq_zero_iff.mp (by omega)
    rw [String.toList_eq_nil_iff.mp hempty]
    exact .literal
  | charClass i members raw =>
    intro scopes k hk hn
    refine step_ends (takes_charValue members.accepts raw) (fun s v t hs hleft => ?_) hk
    have hlength := length_charValue hs
    omega
  | any i =>
    intro scopes k hk hn
    refine step_ends (takes_charValue _ State.anyCharacter) (fun s v t hs hleft => ?_) hk
    have hlength := length_charValue hs
    omega

end

/-! ### Rules -/

namespace Grammar

variable {g : Grammar} {h : Actions} {k : Course}

open scoped Classical in
/-- Number of rule names that leftmost references lead to. -/
noncomputable def height (g : Grammar) (name : String) : Nat :=
  (g.ruleNames.toFinset.filter (Relation.TransGen g.Leftmost name)).card

theorem height_le (g : Grammar) (name : String) : g.height name ≤ g.rules.length := by
  classical
  calc g.height name ≤ g.ruleNames.toFinset.card := Finset.card_filter_le _ _
    _ ≤ g.ruleNames.length := List.toFinset_card_le _
    _ = g.rules.length := List.length_map _

/-- Without leftmost cycles, a leftmost reference leads down. -/
theorem height_lt_of_leftmost (hg : g.Acyclic) {a b : String} (hab : g.Leftmost a b)
    (hb : b ∈ g.ruleNames) : g.height b < g.height a := by
  classical
  refine Finset.card_lt_card ((Finset.ssubset_iff_of_subset fun c hc => ?_).mpr ⟨b, ?_, ?_⟩)
  · obtain ⟨hmem, hbc⟩ := Finset.mem_filter.mp hc
    exact Finset.mem_filter.mpr ⟨hmem, .head hab hbc⟩
  · exact Finset.mem_filter.mpr ⟨List.mem_toFinset.mpr hb, .single hab⟩
  · intro hmem
    exact hg b (Finset.mem_filter.mp hmem).2

/-- Fuel enough for a rule with no more than `left` characters left. -/
noncomputable def fuelFor (g : Grammar) (left : Nat) (name : String) : Nat :=
  left * (g.rules.length + 2) + g.height name + 2

theorem fuelFor_mono {left left' : Nat} (hle : left ≤ left') (name : String) :
    g.fuelFor left name ≤ g.fuelFor left' name := by
  have hmul := Nat.mul_le_mul_right (g.rules.length + 2) hle
  unfold fuelFor
  omega

/-- Behind a step forward there is fuel for every rule. -/
theorem fuelFor_lt (g : Grammar) (left : Nat) (name name' : String) :
    g.fuelFor left name' < g.fuelFor (left + 1) name := by
  have hheight := g.height_le name'
  have hmul := Nat.add_one_mul left (g.rules.length + 2)
  unfold fuelFor
  omega

theorem remembered_ends {free : Prop} {body : Parse (Option Value)} {rule : Nat}
    (hk : k.state.memory = none)
    (hbody : (body).Ends (k.update (·.note (.entered rule k.state.offset k.state.reporting)))
      (Advances free k)) :
    (Parse.remembered rule body).Ends k (Advances free k) := by
  have hmiss := State.lookUp_of_forgetful hk rule
  refine .of_ok rfl ?_
  rw [hmiss]
  refine .of_ok rfl (hbody.bind fun hit k' hhit => .of_ok rfl (.pure ?_))
  have hsame : k'.update (·.remember rule k.state.cursor hit) = k' := by
    rw [Course.update, State.remember_of_forgetful hhit.onward.forgetful]
  change Advances free k hit (k'.update (·.remember rule k.state.cursor hit))
  rwa [hsame]

/-- A rule ends, with fuel that is known in advance, and it is nullable if it matches without moving
the cursor. -/
theorem outcome_ends (hacyclic : g.Acyclic) (hreferences : ∀ ref ∈ g.references, g.defines ref.name)
    (hfirsts : g.FirstsConsume) {fuel : Nat} {name : String} (hk : k.state.memory = none)
    (hfuel : g.fuelFor k.left name ≤ fuel) :
    (g.outcome h fuel name).Ends k (Advances (g.NullableRule name) k) := by
  induction fuel generalizing k name with
  | zero =>
    unfold fuelFor at hfuel
    omega
  | succ fuel ih =>
    rw [outcome]
    cases hrule : g.find? name with
    | none => exact .pure (.none (.refl hk))
    | some rule =>
      have hmem := List.mem_of_find?_eq_some hrule
      have hresolved : ∀ ref ∈ rule.body.references, ref.name ∈ g.ruleNames := fun ref href =>
        defines_iff_mem.mp (hreferences ref (mem_references_iff.mpr ⟨rule, hmem, href⟩))
      have hcalls : CallsEnd g (g.outcome h fuel) k.left rule.body := by
        refine ⟨fun ref href k' hk' hleft => ?_, fun ref href k' hk' hleft => ?_⟩
        · have hdown := height_lt_of_leftmost hacyclic ⟨rule, hrule, ref, href, rfl⟩
            (hresolved ref (rule.body.leftmost_subset_references href))
          have hmono := fuelFor_mono (g := g) (Nat.le_of_lt_succ hleft) ref.name
          refine ih hk' (hmono.trans ?_)
          unfold fuelFor at hfuel ⊢
          omega
        · have hforward := g.fuelFor_lt k'.left name ref.name
          have hmono : g.fuelFor (k'.left + 1) name ≤ g.fuelFor k.left name :=
            fuelFor_mono hleft name
          exact ih hk' (by omega)
      have hpasses : k.left < fuel := by
        have hmul : k.left ≤ k.left * (g.rules.length + 2) := Nat.le_mul_of_pos_right _ (by omega)
        unfold fuelFor at hfuel
        omega
      refine remembered_ends hk ?_
      let entering := k.update (·.note (.entered (g.number name) k.state.offset k.state.reporting))
      have hentering : entering.state.memory = none := hk
      have hbody := (rule.body.meaning_ends (h := h) (hfirsts rule hmem) hcalls hpasses).enclosed
        [] hentering (Nat.le_refl k.left)
      refine hbody.mono fun hit k' hhit => ?_
      exact ⟨⟨hhit.onward.forgetful, hhit.onward.between⟩,
        fun hsome hleft => ⟨rule, hrule, hhit.consumes hsome hleft⟩⟩

/-- Without a memory, an evaluation ends with any fuel beyond a bound that is linear in the length
of the text. -/
theorem evaluate_ends (hacyclic : g.Acyclic)
    (hreferences : ∀ ref ∈ g.references, g.defines ref.name) (hfirsts : g.FirstsConsume)
    (trackLines : Bool) {fuel : Nat} (text : String) (start : Option String)
    (hfuel : (text.toList.length + 1) * (g.rules.length + 2) ≤ fuel) :
    (g.evaluate h { cache := false, trackLines } fuel text start).result ≠ .error .outOfFuel := by
  unfold evaluate
  dsimp only
  split
  · have hbound : g.fuelFor text.toList.length (start.getD g.start) ≤ fuel := by
      have hheight := g.height_le (start.getD g.start)
      have hmul := Nat.add_one_mul text.toList.length (g.rules.length + 2)
      unfold fuelFor
      omega
    have hends := outcome_ends (h := h) hacyclic hreferences hfirsts
      (k := initialCourse { cache := false, trackLines } text.toList) rfl hbound
    unfold Parse.Ends at hends
    show verdict _ ≠ _
    cases hrun : g.outcome h fuel (start.getD g.start)
        (initialCourse { cache := false, trackLines } text.toList) with
    | ok hit k =>
      show (k.state.finish hit).mapError _ ≠ _
      cases k.state.finish hit <;> nofun
    | error e k =>
      rw [hrun] at hends
      cases e with
      | raised => nofun
      | outOfFuel => exact absurd rfl hends
  · nofun

/-- The matcher of a grammar with all its rules has a result for every text and start. -/
theorem exists_gives_of_firstsConsume {options : Options} {m : Matcher} (hg : g.Sound)
    (hchoosable : ∀ rule ∈ g.rules, rule.body.choosable = true) (hfirsts : g.FirstsConsume)
    (hm : g.matcher h options = .ok m) (text : String) (start : Option String) :
    ∃ r, m.Gives text start r := by
  have hends := evaluate_ends (h := h) hg.acyclic hg.references hfirsts m.options.trackLines text
    start (Nat.le_refl _)
  exact ⟨_, ((adequate_of_matcher hm hchoosable).gives text start _).mpr ⟨hends, _, rfl⟩⟩

/-- A name that no rule has is refused before the parse begins. -/
theorem gives_unknownStart {options : Options} {m : Matcher} (hm : g.matcher h options = .ok m)
    {name : String} (hname : g.defines name = false) (text : String) :
    m.Gives text (some name) (.error (.parse (.unknownStart name))) := by
  have hindex : g.findIndex? name = none := by
    rw [← Option.not_isSome_iff_eq_none, isSome_findIndex?, hname]
    exact Bool.false_ne_true
  have hstart : m.startIndex (some name) = .error (.unknownStart name) := by
    rw [startIndex_of_matcher hm, Option.getD_some, hindex]
  refine ⟨nofun, 0, ?_⟩
  simp only [Matcher.parse, hstart]

/-- Where the matchers of one grammar have a result for everything, so have those of a grammar that
stands for it. -/
theorem StandsFor.exists_gives {g' : Grammar} (hstands : g'.StandsFor g) {options : Options}
    {m' : Matcher} (hm' : g'.matcher h options = .ok m')
    (hgives : ∀ m, g.matcher h options = .ok m → ∀ text start, ∃ r, m.Gives text start r)
    (text : String) (start : Option String) : ∃ r, m'.Gives text start r := by
  obtain ⟨m, hm⟩ : ∃ m, g.matcher h options = .ok m := by
    cases hm : g.matcher h options with
    | ok m => exact ⟨m, rfl⟩
    | error e => nomatch hm'.symm.trans ((hstands.missing h options e).mp hm)
  obtain ⟨r, hr⟩ := hgives m hm text start
  obtain ⟨hdefault, hnamed⟩ := hstands.gives hm hm' text r
  cases start with
  | none => exact ⟨r, hdefault.mp hr⟩
  | some name =>
    cases hname : g'.defines name with
    | true => exact ⟨r, (hnamed name hname).mp hr⟩
    | false => exact ⟨_, gives_unknownStart hm' hname text⟩

end Grammar

/-- A matcher of a checked grammar with distinct rule names in which no sequence begins with a
nullable element has a result for every text and every start: its parses end, and none of them
breaks a rule of use. -/
theorem buildMatcher_terminates {text : String} {g : Grammar} (hparse : Grammar.parse text = .ok g)
    (hnames : g.ruleNames.Nodup) (hreferences : g.checkReferences = .ok ())
    (hleft : g.checkLeftRecursion = .ok ()) (hfirsts : g.FirstsConsume) {h : Actions}
    {options : Options} {m : Matcher} (hm : buildMatcher text h options = .ok m) (input : String)
    (start : Option String) : ∃ r, m.Gives input start r ∧ ∀ f, r ≠ .error (.fault f) := by
  obtain ⟨g', hchecked, hmatcher⟩ := buildMatcher_eq_ok_iff_matcher.mp hm
  obtain rfl := Except.ok.inj
    (hchecked.symm.trans (checkedGrammar_eq_ok_iff.mpr ⟨hparse, hreferences, hleft⟩))
  have hformed := Grammar.wellFormed_of_parse hparse
  have hg : g'.Sound := (Grammar.sound_iff hnames hformed.start).mpr ⟨hreferences, hleft⟩
  obtain ⟨-, -, hstands⟩ := hg.removeProxies
  have hgives : ∀ m, g'.matcher h options = .ok m → ∀ text start, ∃ r, m.Gives text start r :=
    fun m => Grammar.exists_gives_of_firstsConsume hg hformed.choosable hfirsts
  obtain ⟨r, hr, fuel, hfuel⟩ := hstands.exists_gives hmatcher hgives input start
  have hadequate := Grammar.adequate_of_matcher hmatcher hformed.choosable_removeProxies
  exact ⟨r, ⟨hr, fuel, hfuel⟩, fun f => hfuel ▸ hadequate.faultless fuel input start f⟩

/-- A rule that calls itself behind a literal, and one that repeats what may match nothing. -/
def loopingText : String := "s='a' s/t;t=('b'?)*"

/-- What is read from the text. -/
def looping : Grammar where
  initializer := none
  rules := [
    ⟨⟨0, 10⟩, "s", .choice ⟨⟨2, 9⟩, none, none⟩ [
      .sequence ⟨⟨2, 7⟩, none, none⟩ [
        .literal ⟨⟨2, 6⟩, none, none⟩ "a" false, .ruleRef ⟨⟨6, 7⟩, none, none⟩ "s"],
      .ruleRef ⟨⟨8, 9⟩, none, none⟩ "t"], 0⟩,
    ⟨⟨10, 19⟩, "t", .repeated ⟨⟨12, 19⟩, none, none⟩ false (
      .optional ⟨⟨13, 17⟩, none, none⟩ (.literal ⟨⟨13, 16⟩, none, none⟩ "b" false)), 0⟩]
  start := "s"

theorem firstsConsume_looping : looping.FirstsConsume := by
  have hleaf : ∀ {e : Expr}, e.children = [] → (∀ i items, e ≠ .sequence i items) →
      e.FirstsConsume looping := by
    intro e hchildren hsequence
    refine .of_children (fun i first next rest heq => absurd heq (hsequence i _)) ?_
    rw [hchildren]
    exact nofun
  refine List.forall_mem_cons.mpr ⟨?_, List.forall_mem_singleton.mpr ?_⟩
  · refine .of_children nofun (List.forall_mem_cons.mpr ⟨?_, ?_⟩)
    · refine .of_children ?_ ?_
      · rintro i first next rest heq hnull
        obtain ⟨-, rfl, -⟩ : _ ∧ _ ∧ _ := by simpa using heq
        generalize hvalue : "a" = value at hnull
        cases hnull
        nomatch hvalue
      · exact List.forall_mem_cons.mpr
          ⟨hleaf rfl nofun, List.forall_mem_singleton.mpr (hleaf rfl nofun)⟩
    · exact List.forall_mem_singleton.mpr (hleaf rfl nofun)
  · refine .of_children nofun (List.forall_mem_singleton.mpr ?_)
    exact .of_children nofun (List.forall_mem_singleton.mpr (hleaf rfl nofun))

theorem looping_checked : Grammar.parse loopingText = .ok looping ∧
    looping.checkReferences = .ok () ∧ looping.checkLeftRecursion = .ok () :=
  ⟨by decide +kernel, by rfl, by cbv⟩

theorem looping_builds (h : Actions) (options : Options) :
    ∃ m, buildMatcher loopingText h options = .ok m := by
  have hchecked := checkedGrammar_eq_ok_iff.mpr looping_checked
  have hcode : looping.removeProxies.1.assignSlots.lower.toOption.map (·.code) = some #[] := by cbv
  cases hp : looping.removeProxies.1.assignSlots.lower with
  | error e =>
    rw [hp] at hcode
    cases hcode
  | ok program =>
    rw [hp] at hcode
    have hnone : program.code = #[] := Option.some.inj hcode
    have hbind : program.code.toList.mapM (Matcher.bindSite h) = .ok [] := by
      rw [hnone]
      rfl
    exact ⟨_, buildMatcher_eq_ok_iff.mpr ⟨looping, program, [], hchecked, hp, hbind, rfl⟩⟩

theorem buildMatcher_terminates_looping : looping.ruleNames.Nodup ∧ looping.FirstsConsume ∧
    ∃ m, buildMatcher loopingText .passthrough {} = .ok m ∧
      ∀ input start, ∃ r, m.Gives input start r ∧ ∀ f, r ≠ .error (.fault f) := by
  have hnames : looping.ruleNames.Nodup := by decide
  obtain ⟨hparse, hreferences, hleft⟩ := looping_checked
  obtain ⟨m, hm⟩ := looping_builds .passthrough {}
  refine ⟨hnames, firstsConsume_looping, m, hm, fun input start => ?_⟩
  exact buildMatcher_terminates hparse hnames hreferences hleft firstsConsume_looping hm input start

end Packrat
