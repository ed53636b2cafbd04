import Packrat.Proofs.Adequacy

/-!
# Slots that operations leave alone

An operation writes to its own slots and to those of the operations inside it, and to no others.
What it keeps in a slot is therefore safe as long as the slot belongs to none of the operations that
run before it is read again. `Op.Guarded` asks for that of one operation: the place to go back to is
in a slot that the body does not touch, and the outcome of an element in one that no later element
touches. `Op.Orderly` asks it of all operations inside, too.

Operations of lowered grammars are orderly. The reason is the accounts of the pool: a slot that
something still holds is never handed out again.

## Main results

* `Expr.discreet`: the operation of every expression is orderly and leaves owned slots alone
* `Grammar.orderly_of_lower`: so are the rules of a lowered grammar
-/

namespace Packrat

namespace Op

/-- The operations directly inside an operation. -/
def children : Op → List Op
  | choice _ items | sequence _ _ items => items
  | named _ _ body | action _ _ _ _ body | lookahead _ _ _ body | optional _ body
  | repeated _ _ body => [body]
  | predicate .. | call .. | literal .. | charClass .. | any .. => []

/-- The first operation occurs in the second, or is it. -/
inductive Inside (o : Op) : Op → Prop
  | self : Inside o o
  | child {c b : Op} : c ∈ b.children → Inside o c → Inside o b

theorem forall_inside_iff {P : Op → Prop} {b : Op} :
    (∀ o, o.Inside b → P o) ↔ P b ∧ ∀ c ∈ b.children, ∀ o, o.Inside c → P o := by
  constructor
  · intro h
    exact ⟨h b .self, fun c hc o ho => h o (.child hc ho)⟩
  · rintro ⟨hb, hchildren⟩ o (_ | ⟨hc, ho⟩)
    · exact hb
    · exact hchildren _ hc o ho

theorem Inside.of_child {o c b : Op} (h : o.Inside b) (hc : c ∈ o.children) : c.Inside b := by
  induction h with
  | self => exact .child hc .self
  | child hb _ ih => exact .child hb ih

/-- The slots of an operation itself. -/
def ownSlots : Op → List Nat
  | action r place .. | sequence r place .. | lookahead r place .. => [r, place]
  | o => [o.result]

/-- A slot belongs to an operation or to one inside it. -/
def Touches (o : Op) (slot : Nat) : Prop := ∃ n : Op, n.Inside o ∧ slot ∈ n.ownSlots

theorem touches_iff {o : Op} {slot : Nat} :
    o.Touches slot ↔ slot ∈ o.ownSlots ∨ ∃ c ∈ o.children, c.Touches slot := by
  constructor
  · rintro ⟨n, _ | ⟨hc, hn⟩, hslot⟩
    · exact .inl hslot
    · exact .inr ⟨_, hc, n, hn, hslot⟩
  · rintro (hslot | ⟨c, hc, n, hn, hslot⟩)
    · exact ⟨o, .self, hslot⟩
    · exact ⟨n, .child hc hn, hslot⟩

theorem touches_result (o : Op) : o.Touches o.result := by
  refine touches_iff.mpr (.inl ?_)
  cases o <;> exact List.mem_cons_self

/-- What an operation keeps in a slot is still there when it is read, and the outcomes it waits for
are put where it looks for them. -/
def Guarded : Op → Prop
  | named r _ body | optional r body => body.result = r
  | choice r items => items ≠ [] ∧ ∀ o ∈ items, o.result = r
  | action r place _ _ body | lookahead r place _ body => body.result = r ∧ ¬ body.Touches place
  | sequence r place items => r ≠ place ∧ (∀ o ∈ items, ¬ o.Touches place) ∧
      items.Pairwise fun o later => ¬ later.Touches o.result
  | _ => True

/-- All operations inside are guarded. -/
def Orderly (o : Op) : Prop := ∀ n : Op, n.Inside o → n.Guarded

theorem orderly_iff {o : Op} : o.Orderly ↔ o.Guarded ∧ ∀ c ∈ o.children, c.Orderly :=
  forall_inside_iff

theorem Orderly.guarded {o : Op} (h : o.Orderly) : o.Guarded := h o .self

theorem Orderly.child {o c : Op} (h : o.Orderly) (hc : c ∈ o.children) : c.Orderly :=
  (orderly_iff.mp h).2 c hc

theorem Orderly.inside {o b : Op} (h : b.Orderly) (ho : o.Inside b) : o.Orderly := by
  induction ho with
  | self => exact h
  | child hc _ ih => exact ih (h.child hc)

/-- What holds of an operation's own slots and of those that its parts touch holds of all it
touches. -/
theorem orderly_and_touches {o : Op} {P : Nat → Prop} (hguarded : o.Guarded)
    (hown : ∀ slot ∈ o.ownSlots, P slot)
    (hchildren : ∀ c ∈ o.children, c.Orderly ∧ ∀ slot, c.Touches slot → P slot) :
    o.Orderly ∧ ∀ slot, o.Touches slot → P slot := by
  refine ⟨orderly_iff.mpr ⟨hguarded, fun c hc => (hchildren c hc).1⟩, fun slot hslot => ?_⟩
  rcases touches_iff.mp hslot with hmem | ⟨c, hc, hslot⟩
  · exact hown slot hmem
  · exact (hchildren c hc).2 slot hslot

/-- An operation without parts touches the slot of its outcome only. -/
theorem orderly_and_touches_leaf {o : Op} {P : Nat → Prop} (hguarded : o.Guarded)
    (hparts : o.children = []) (hown : o.ownSlots = [o.result]) (hresult : P o.result) :
    o.Orderly ∧ ∀ slot, o.Touches slot → P slot := by
  refine orderly_and_touches hguarded ?_ ?_
  · rw [hown]
    exact List.forall_mem_singleton.mpr hresult
  · rw [hparts]
    exact nofun

end Op

namespace Expr

variable {names : List String}

/-- An expression whose operation is orderly, and touches none of the owned slots but the one for
its outcome, as long as it gets its slots from a pool. -/
def Discreet (names : List String) (e : Expr) : Prop :=
  ∀ {owned : List Nat} {r : Nat} {p : Pool} {sites sites' : Array CodeSite} {o : Op},
    p.Accounts owned → r ∈ owned → (e.assign r p).1.lower names sites = .ok (o, sites') →
      o.Orderly ∧ ∀ slot, o.Touches slot → slot = r ∨ slot ∉ owned

section

variable {items : List Expr} {owned : List Nat} {r : Nat} {p : Pool}
  {sites sites' : Array CodeSite} {os : List Op}

theorem discreet_alternatives (ih : ∀ e ∈ items, Discreet names e) (h : p.Accounts owned)
    (hr : r ∈ owned)
    (hlower : lowerAll names (assignAlternatives r items p).1 sites = .ok (os, sites')) :
    ∀ o ∈ os, o.result = r ∧ o.Orderly ∧ ∀ slot, o.Touches slot → slot = r ∨ slot ∉ owned := by
  induction items generalizing p sites os with
  | nil =>
    obtain ⟨rfl, -⟩ := lowerAll_nil.mp hlower
    exact nofun
  | cons e es ihes =>
    obtain ⟨b, inner, bs, hb, hbs, rfl⟩ := lowerAll_cons.mp hlower
    have hclosed := (e.assign_keeps h.openScope hr).closeScope h.opened
    refine List.forall_mem_cons.mpr ⟨⟨e.result_of_lower hb, ?_⟩, ?_⟩
    · exact ih e List.mem_cons_self h.openScope hr hb
    · exact ihes (fun e he => ih e (List.mem_cons_of_mem _ he)) hclosed.accounts hbs

/-- An element owns the slot of its outcome until all elements have run. -/
theorem discreet_elements (ih : ∀ e ∈ items, Discreet names e) (h : p.Accounts owned)
    (hlower : lowerAll names (assignElements items p).1 sites = .ok (os, sites')) :
    (∀ o ∈ os, o.Orderly ∧ ∀ slot, o.Touches slot → slot ∉ owned) ∧
      os.Pairwise fun o later => ¬ later.Touches o.result := by
  induction items generalizing owned p sites os with
  | nil =>
    obtain ⟨rfl, -⟩ := lowerAll_nil.mp hlower
    exact ⟨nofun, .nil⟩
  | cons e es ihes =>
    obtain ⟨b, inner, bs, hb, hbs, rfl⟩ := lowerAll_cons.mp hlower
    have hfirst := e.assign_keeps h.acquire List.mem_cons_self
    obtain ⟨horderly, htouches⟩ := ih e List.mem_cons_self h.acquire List.mem_cons_self hb
    obtain ⟨hrest, hpairwise⟩ := ihes (fun e he => ih e (List.mem_cons_of_mem _ he))
      hfirst.accounts hbs
    refine ⟨List.forall_mem_cons.mpr ⟨⟨horderly, fun slot hslot => ?_⟩, fun o ho => ?_⟩,
      List.pairwise_cons.mpr ⟨fun o ho => ?_, hpairwise⟩⟩
    · rcases htouches slot hslot with rfl | hnot
      · exact h.fresh.1
      · exact fun hmem => hnot (List.mem_cons_of_mem _ hmem)
    · obtain ⟨horderly, htouches⟩ := hrest o ho
      exact ⟨horderly, fun slot hslot hmem => htouches slot hslot (List.mem_cons_of_mem _ hmem)⟩
    · rw [e.result_of_lower hb]
      exact fun hslot => (hrest o ho).2 _ hslot List.mem_cons_self

end

/-- A body that leaves the owned slots alone leaves the slot for a place alone, which is acquired in
front of it. -/
theorem orderly_around_place {owned : List Nat} {r : Nat} {p : Pool} {o b : Op}
    (h : p.Accounts owned) (hr : r ∈ owned) (hparts : o.children = [b])
    (hown : o.ownSlots = [r, p.acquire.1])
    (hbody : b.Orderly ∧ ∀ slot, b.Touches slot → slot = r ∨ slot ∉ p.acquire.1 :: owned)
    (hguarded : ¬ b.Touches p.acquire.1 → o.Guarded) :
    o.Orderly ∧ ∀ slot, o.Touches slot → slot = r ∨ slot ∉ owned := by
  obtain ⟨horderly, htouches⟩ := hbody
  have hplace : ¬ b.Touches p.acquire.1 := by
    intro hslot
    rcases htouches _ hslot with heq | hnot
    · exact h.fresh.1 (heq ▸ hr)
    · exact hnot List.mem_cons_self
  refine Op.orderly_and_touches (hguarded hplace) ?_ ?_
  · rw [hown]
    exact List.forall_mem_cons.mpr ⟨.inl rfl, List.forall_mem_singleton.mpr (.inr h.fresh.1)⟩
  · rw [hparts]
    refine List.forall_mem_singleton.mpr ⟨horderly, fun slot hslot => ?_⟩
    exact (htouches slot hslot).imp_right fun hnot hmem => hnot (List.mem_cons_of_mem _ hmem)

/-- The operation of every expression is orderly, and leaves the owned slots alone. -/
theorem discreet (e : Expr) (he : e.choosable = true) : Discreet names e := by
  induction e using Expr.inductionOn with
  | named i name body ih =>
    intro owned r p sites sites' o h hr hlower
    obtain ⟨_, b, hres, hb, rfl⟩ := lower_named.mp hlower
    obtain rfl := Option.some.inj hres
    have hresult := body.result_of_lower hb
    refine Op.orderly_and_touches hresult ?_ (List.forall_mem_singleton.mpr (ih he h hr hb))
    exact List.forall_mem_singleton.mpr (.inl rfl)
  | choice i items ih =>
    intro owned r p sites sites' o h hr hlower
    obtain ⟨_, bs, hres, hbs, rfl⟩ := lower_choice.mp hlower
    obtain rfl := Option.some.inj hres
    rw [choosable, Bool.and_eq_true] at he
    have hitems := choosableAll_iff.mp he.2
    have hall := discreet_alternatives (fun e hmem => ih e hmem (hitems e hmem)) h hr hbs
    refine Op.orderly_and_touches ⟨?_, fun o ho => (hall o ho).1⟩ ?_ fun o ho => (hall o ho).2
    · rintro rfl
      cases items with
      | nil => cases he.1
      | cons e es =>
        obtain ⟨_, _, _, -, -, heq⟩ := lowerAll_cons.mp hbs
        cases heq
    · exact List.forall_mem_singleton.mpr (.inl rfl)
  | action i code params body ih =>
    intro owned r p sites sites' o h hr hlower
    obtain ⟨_, place, b, inner, hres, hplace, hb, rfl, rfl⟩ := lower_action.mp hlower
    obtain rfl := Option.some.inj hres
    obtain rfl := Option.some.inj hplace
    have hresult := body.result_of_lower hb
    have hbody := ih he h.acquire.openScope (List.mem_cons_of_mem _ hr) hb
    exact orderly_around_place h hr rfl rfl hbody fun hplace => ⟨hresult, hplace⟩
  | sequence i items ih =>
    intro owned r p sites sites' o h hr hlower
    obtain ⟨_, place, bs, hres, hplace, hbs, rfl⟩ := lower_sequence.mp hlower
    obtain rfl := Option.some.inj hres
    obtain rfl := Option.some.inj hplace
    have hitems := choosableAll_iff.mp he
    obtain ⟨hall, hpairwise⟩ := discreet_elements (fun e hmem => ih e hmem (hitems e hmem))
      h.acquire hbs
    have hne : r ≠ p.acquire.1 := ne_of_mem_of_not_mem hr h.fresh.1
    refine Op.orderly_and_touches ⟨hne, fun o ho hslot => (hall o ho).2 _ hslot List.mem_cons_self,
      hpairwise⟩ ?_ fun o ho => ⟨(hall o ho).1, fun slot hslot => .inr fun hmem => ?_⟩
    · exact List.forall_mem_cons.mpr ⟨.inl rfl, List.forall_mem_singleton.mpr (.inr h.fresh.1)⟩
    · exact (hall o ho).2 slot hslot (List.mem_cons_of_mem _ hmem)
  | labeled i label body ih =>
    intro owned r p sites sites' o h hr hlower
    exact ih he h.openScope hr (lower_labeled.mp hlower).2
  | lookahead i negated body ih =>
    intro owned r p sites sites' o h hr hlower
    obtain ⟨_, place, b, hres, hplace, hb, rfl⟩ := lower_lookahead.mp hlower
    obtain rfl := Option.some.inj hres
    obtain rfl := Option.some.inj hplace
    have hresult := body.result_of_lower hb
    have hbody := ih he h.acquire.openScope (List.mem_cons_of_mem _ hr) hb
    exact orderly_around_place h hr rfl rfl hbody fun hplace => ⟨hresult, hplace⟩
  | optional i body ih =>
    intro owned r p sites sites' o h hr hlower
    obtain ⟨_, b, hres, hb, rfl⟩ := lower_optional.mp hlower
    obtain rfl := Option.some.inj hres
    have hresult := body.result_of_lower hb
    refine Op.orderly_and_touches hresult ?_
      (List.forall_mem_singleton.mpr (ih he h.openScope hr hb))
    exact List.forall_mem_singleton.mpr (.inl rfl)
  | repeated i nonempty body ih =>
    intro owned r p sites sites' o h hr hlower
    obtain ⟨_, b, hres, hb, rfl⟩ := lower_repeated.mp hlower
    obtain rfl := Option.some.inj hres
    have hbody := ih he h.acquire.openScope List.mem_cons_self hb
    refine Op.orderly_and_touches trivial (List.forall_mem_singleton.mpr (.inl rfl))
      (List.forall_mem_singleton.mpr ⟨hbody.1, fun slot hslot => .inr fun hmem => ?_⟩)
    rcases hbody.2 slot hslot with rfl | hnot
    · exact h.fresh.1 hmem
    · exact hnot (List.mem_cons_of_mem _ hmem)
  | predicate i negated code params =>
    intro owned r p sites sites' o h hr hlower
    obtain ⟨_, hres, rfl, -⟩ := lower_predicate.mp hlower
    obtain rfl := Option.some.inj hres
    exact Op.orderly_and_touches_leaf trivial rfl rfl (.inl rfl)
  | ruleRef i name =>
    intro owned r p sites sites' o h hr hlower
    obtain ⟨_, rule, hres, -, rfl, -⟩ := lower_ruleRef.mp hlower
    obtain rfl := Option.some.inj hres
    exact Op.orderly_and_touches_leaf trivial rfl rfl (.inl rfl)
  | literal i value ignoreCase =>
    intro owned r p sites sites' o h hr hlower
    obtain ⟨_, hres, rfl, -⟩ := lower_literal.mp hlower
    obtain rfl := Option.some.inj hres
    exact Op.orderly_and_touches_leaf trivial rfl rfl (.inl rfl)
  | charClass i members raw =>
    intro owned r p sites sites' o h hr hlower
    obtain ⟨_, hres, rfl, -⟩ := lower_charClass.mp hlower
    obtain rfl := Option.some.inj hres
    exact Op.orderly_and_touches_leaf trivial rfl rfl (.inl rfl)
  | any i =>
    intro owned r p sites sites' o h hr hlower
    obtain ⟨_, hres, rfl, -⟩ := lower_any.mp hlower
    obtain rfl := Option.some.inj hres
    exact Op.orderly_and_touches_leaf trivial rfl rfl (.inl rfl)

end Expr

/-- The rules of a lowered grammar are orderly. -/
theorem Grammar.orderly_of_lower {g : Grammar} {p : Program} (hp : g.assignSlots.lower = .ok p)
    (hchoosable : ∀ r ∈ g.rules, r.body.choosable = true) {i : Nat} {r : RuleProgram}
    (hr : p.rules[i]? = some r) : r.body.Orderly := by
  obtain ⟨rule, sites, sites', hrule, hb, -⟩ := exists_rule_of_lower hp hr
  exact (Expr.discreet rule.body (hchoosable rule (List.mem_of_getElem? hrule))
    Pool.accounts_root List.mem_cons_self hb).1

end Packrat
