import Mathlib.Data.List.GetD
import Packrat.Grammar.Slots

/-!
# Who holds a slot

A slot is handed out again once nobody holds it, so the count of its holders has to be right at
every moment of the assignment. `Pool.Accounts` says what right means: the holders of a slot are the
expressions around the current one that own it, and the labels of open scopes that stand for it.

Assigning slots to an expression keeps the accounts of whatever was owned before it. A slot that is
acquired is owned by no one and stands for no label, and that is all that the correctness of the
assignment takes from the counts.

## Main results

* `Accounts.fresh`: an acquired slot is neither owned nor in view
* `assign_keeps`: an expression gives back what it acquires, except for its labels
-/

namespace Packrat

namespace Pool

/-- How many hold a slot. -/
def held (p : Pool) (slot : Nat) : Nat := p.holders.getD slot 0

/-- The slots of the labels of all open scopes. -/
def labelSlots (p : Pool) : List Nat := p.scopes.flatten.map Prod.snd

variable {p : Pool} {owned slots : List Nat} {slot : Nat}

theorem mem_labelSlots_of_tail (h : slot ∈ p.scopes.tail.flatten.map Prod.snd) :
    slot ∈ p.labelSlots := by
  obtain ⟨label, hlabel, rfl⟩ := List.mem_map.mp h
  obtain ⟨scope, hscope, hlabel⟩ := List.mem_flatten.mp hlabel
  exact List.mem_map_of_mem (List.mem_flatten_of_mem (List.mem_of_mem_tail hscope) hlabel)

theorem lt_of_held (h : p.held slot ≠ 0) : slot < p.holders.length := by
  by_cases hlt : slot < p.holders.length
  · exact hlt
  · rw [held, List.getD_eq_default _ _ (Nat.le_of_not_lt hlt)] at h
    exact absurd rfl h

theorem labelSlots_of_scopes {q : Pool} (h : q.scopes = p.scopes) :
    q.labelSlots = p.labelSlots := by
  rw [labelSlots, h, labelSlots]

/-! ### Counts -/

theorem acquire_spec (p : Pool) :
    p.held p.acquire.1 = 0 ∧ p.acquire.1 < p.acquire.2.holders.length ∧
      p.holders.length ≤ p.acquire.2.holders.length ∧ p.acquire.2.scopes = p.scopes ∧
        ∀ x, p.acquire.2.held x = if x = p.acquire.1 then 1 else p.held x := by
  unfold acquire
  dsimp only
  split
  · next hlt =>
    have hzero : p.holders[p.holders.findIdx (· == 0)] = 0 := by
      simpa using List.findIdx_getElem (w := hlt)
    refine ⟨?_, ?_, ?_, rfl, ?_⟩
    · rw [held, List.getD_eq_getElem _ _ hlt, hzero]
    · simpa using hlt
    · simp
    · intro x
      simp only [held, List.getD_eq_getElem?_getD, List.getElem?_set]
      grind
  · refine ⟨?_, ?_, ?_, rfl, ?_⟩
    · rw [held, List.getD_eq_default _ _ (Nat.le_refl _)]
    · simp
    · simp
    · intro x
      simp only [held, List.getD_eq_getElem?_getD, List.getElem?_append]
      grind

theorem held_retain (h : slot < p.holders.length) (x : Nat) :
    (p.retain slot).held x = p.held x + if x = slot then 1 else 0 := by
  simp only [retain, held, List.getD_eq_getElem?_getD, List.getElem?_modify]
  by_cases hx : x = slot
  · subst hx
    simp [h]
  · simp [hx, Ne.symm hx]

theorem held_release (p : Pool) (slot x : Nat) :
    (p.release slot).held x = p.held x - if x = slot then 1 else 0 := by
  simp only [release, held, List.getD_eq_getElem?_getD, List.getElem?_modify]
  by_cases hx : x = slot
  · subst hx
    cases p.holders[x]? <;> simp
  · simp [hx, Ne.symm hx]

theorem held_releaseAll (p : Pool) (slots : List Nat) (x : Nat) :
    (p.releaseAll slots).held x = p.held x - slots.count x := by
  induction slots generalizing p with
  | nil => rfl
  | cons slot slots ih =>
    have hcons : p.releaseAll (slot :: slots) = (p.release slot).releaseAll slots := rfl
    rw [hcons, ih, held_release, List.count_cons]
    by_cases hx : x = slot
    · simp only [hx, if_true, beq_self_eq_true]
      omega
    · simp only [if_neg hx, beq_iff_eq, if_neg (Ne.symm hx)]
      omega

@[simp] theorem scopes_release (p : Pool) (slot : Nat) : (p.release slot).scopes = p.scopes := rfl

@[simp] theorem length_release (p : Pool) (slot : Nat) :
    (p.release slot).holders.length = p.holders.length := List.length_modify ..

@[simp] theorem scopes_releaseAll (p : Pool) (slots : List Nat) :
    (p.releaseAll slots).scopes = p.scopes := by
  induction slots generalizing p with
  | nil => rfl
  | cons slot slots ih => exact ih (p.release slot)

@[simp] theorem length_releaseAll (p : Pool) (slots : List Nat) :
    (p.releaseAll slots).holders.length = p.holders.length := by
  induction slots generalizing p with
  | nil => rfl
  | cons slot slots ih => exact (ih (p.release slot)).trans (length_release ..)

@[simp] theorem scopes_openScope (p : Pool) : p.openScope.scopes = [] :: p.scopes := rfl

@[simp] theorem scopes_closeScope (p : Pool) : p.closeScope.scopes = p.scopes.tail := by
  unfold closeScope
  split
  · next h => simp [h]
  · next h => simp [h]

@[simp] theorem length_closeScope (p : Pool) :
    p.closeScope.holders.length = p.holders.length := by
  unfold closeScope
  split
  · rfl
  · simp

/-- Closing a scope and releasing a slot leaves the number of slots as it is. -/
theorem length_le_of_released {slot n : Nat}
    (h : (p.closeScope.release slot).holders.length ≤ n) : p.holders.length ≤ n := by
  rwa [length_release, length_closeScope] at h

/-! ### Accounts -/

/-- Every holder of a slot is accounted for: it is owned by an expression, or it stands for a label
in an open scope. -/
structure Accounts (p : Pool) (owned : List Nat) : Prop where
  held (slot : Nat) : p.held slot = owned.count slot + p.labelSlots.count slot
  opened : p.scopes ≠ []

theorem Accounts.perm {owned' : List Nat} (h : p.Accounts owned) (hperm : owned.Perm owned') :
    p.Accounts owned' :=
  ⟨fun slot => by rw [h.held, hperm.count_eq], h.opened⟩

theorem Accounts.lt (h : p.Accounts owned) (hslot : slot ∈ owned) : slot < p.holders.length := by
  refine lt_of_held ?_
  have hcount : 0 < owned.count slot := List.count_pos_iff.mpr hslot
  have hheld := h.held slot
  omega

/-- An acquired slot is neither owned nor in view. -/
theorem Accounts.fresh (h : p.Accounts owned) :
    p.acquire.1 ∉ owned ∧ p.acquire.1 ∉ p.labelSlots := by
  obtain ⟨hzero, -⟩ := p.acquire_spec
  have hheld := h.held p.acquire.1
  rw [← List.count_eq_zero, ← List.count_eq_zero]
  omega

theorem Accounts.acquire (h : p.Accounts owned) : p.acquire.2.Accounts (p.acquire.1 :: owned) := by
  obtain ⟨hzero, -, -, hscopes, hheld⟩ := p.acquire_spec
  refine ⟨?_, by rw [hscopes]; exact h.opened⟩
  intro x
  have hx := h.held x
  rw [hheld, labelSlots, hscopes, ← labelSlots, List.count_cons]
  by_cases heq : x = p.acquire.1
  · subst heq
    simp only [if_true, beq_self_eq_true]
    omega
  · simp only [if_neg heq, beq_iff_eq, if_neg (Ne.symm heq)]
    omega

theorem Accounts.releaseAll (h : p.Accounts (slots ++ owned)) :
    (p.releaseAll slots).Accounts owned := by
  refine ⟨?_, by rw [scopes_releaseAll]; exact h.opened⟩
  intro x
  have hx := h.held x
  rw [List.count_append] at hx
  rw [held_releaseAll, labelSlots, scopes_releaseAll, ← labelSlots]
  omega

theorem Accounts.release (h : p.Accounts (slot :: owned)) : (p.release slot).Accounts owned :=
  @Accounts.releaseAll p owned [slot] h

theorem Accounts.openScope (h : p.Accounts owned) : p.openScope.Accounts owned :=
  ⟨h.held, nofun⟩

/-- The labels of a closed scope give up their slots. -/
theorem Accounts.held_closeScope (h : p.Accounts owned) (slot : Nat) : p.closeScope.held slot =
    owned.count slot + (p.scopes.tail.flatten.map Prod.snd).count slot := by
  obtain ⟨scope, outer, hscopes⟩ := List.exists_cons_of_ne_nil h.opened
  have hclose : p.closeScope = Pool.releaseAll { p with scopes := outer } (scope.map Prod.snd) := by
    unfold Pool.closeScope
    rw [hscopes]
  have hslot := h.held slot
  rw [labelSlots, hscopes, List.flatten_cons, List.map_append, List.count_append] at hslot
  have hheld : ({ p with scopes := outer } : Pool).held slot = p.held slot := rfl
  rw [hclose, held_releaseAll, hheld, hscopes, List.tail_cons]
  omega

theorem Accounts.closeScope (h : p.Accounts owned) (houter : p.scopes.tail ≠ []) :
    p.closeScope.Accounts owned := by
  refine ⟨fun slot => ?_, by rwa [scopes_closeScope]⟩
  rw [h.held_closeScope, labelSlots, scopes_closeScope]

theorem ite_beq_swap (a b : Nat) : (if a == b then 1 else 0) = if b = a then 1 else 0 := by
  by_cases h : b = a
  · simp [h]
  · simp [h, Ne.symm h]

/-- A label that is bound again gives up the slot that it stood for. -/
theorem count_rebind (scope : Scope Nat) (label : String) (slot x : Nat) :
    ((scope.rebind label slot).map Prod.snd).count x + ((scope.lookup label).toList).count x =
      (scope.map Prod.snd).count x + if x = slot then 1 else 0 := by
  induction scope with
  | nil =>
    rw [Scope.rebind, List.lookup_nil, List.map_cons, List.count_cons, ite_beq_swap]
    rfl
  | cons entry rest ih =>
    obtain ⟨name, old⟩ := entry
    by_cases hname : name = label
    · subst hname
      rw [Scope.rebind, if_pos rfl, List.lookup_cons_self, List.map_cons, List.map_cons,
        List.count_cons, List.count_cons, ite_beq_swap, Option.toList_some, List.count_singleton]
      dsimp only
      omega
    · have hne : (label == name) = false := beq_eq_false_iff_ne.mpr (Ne.symm hname)
      rw [Scope.rebind, if_neg hname, List.lookup_cons, hne, List.map_cons, List.map_cons,
        List.count_cons, List.count_cons]
      dsimp only
      omega

theorem scopes_bindLabel (p : Pool) (label : String) (slot : Nat) {scope : Scope Nat}
    {outer : List (Scope Nat)} (hscopes : p.scopes = scope :: outer) :
    (p.bindLabel label slot).scopes = scope.rebind label slot :: outer := by
  unfold bindLabel
  have hretain : (p.retain slot).scopes = scope :: outer := hscopes
  simp only [hretain]
  cases scope.lookup label <;> rfl

@[simp] theorem length_bindLabel (p : Pool) (label : String) (slot : Nat) :
    (p.bindLabel label slot).holders.length = p.holders.length := by
  have hretain : (p.retain slot).holders.length = p.holders.length := List.length_modify ..
  unfold bindLabel
  dsimp only
  split
  · exact hretain
  · split
    · exact (length_release ..).trans hretain
    · exact hretain

/-- Binding a label keeps the accounts of a slot that is owned. -/
theorem Accounts.bindLabel (h : p.Accounts owned) (hslot : slot ∈ owned) (label : String) :
    (p.bindLabel label slot).Accounts owned := by
  obtain ⟨scope, outer, hscopes⟩ := List.exists_cons_of_ne_nil h.opened
  have hbound := p.scopes_bindLabel label slot hscopes
  refine ⟨?_, by rw [hbound]; exact List.cons_ne_nil _ _⟩
  intro x
  have hx := h.held x
  have hretain := held_retain (h.lt hslot) x
  have hrebind := count_rebind scope label slot x
  have hheld : (p.bindLabel label slot).held x =
      (p.retain slot).held x - (scope.lookup label).toList.count x := by
    have hsame : (p.retain slot).scopes = scope :: outer := hscopes
    unfold Pool.bindLabel
    simp only [hsame]
    cases scope.lookup label with
    | none => rfl
    | some old =>
      rw [held_release, Option.toList_some, List.count_singleton, ite_beq_swap]
      rfl
  rw [labelSlots, hscopes, List.flatten_cons, List.map_append, List.count_append] at hx
  rw [hheld, labelSlots, hbound, List.flatten_cons, List.map_append, List.count_append]
  omega

/-! ### Assigning slots -/

/-- What assigning slots to an expression does to a pool: what was owned still is, and no more; only
labels of the innermost scope may have changed. -/
structure Keeps (owned : List Nat) (p q : Pool) : Prop where
  accounts : q.Accounts owned
  outer : q.scopes.tail = p.scopes.tail
  grows : p.holders.length ≤ q.holders.length

variable {q r : Pool}

theorem Keeps.refl (h : p.Accounts owned) : Keeps owned p p := ⟨h, rfl, Nat.le_refl _⟩

theorem Keeps.trans {owned' : List Nat} (h : Keeps owned p q) (h' : Keeps owned' q r) :
    Keeps owned' p r :=
  ⟨h'.accounts, h'.outer.trans h.outer, Nat.le_trans h.grows h'.grows⟩

theorem Keeps.acquire (h : p.Accounts owned) : Keeps (p.acquire.1 :: owned) p p.acquire.2 := by
  obtain ⟨-, -, hlength, hscopes, -⟩ := p.acquire_spec
  exact ⟨h.acquire, by rw [hscopes], hlength⟩

theorem Keeps.release (h : Keeps (slot :: owned) p q) : Keeps owned p (q.release slot) :=
  ⟨h.accounts.release, h.outer, by rw [length_release]; exact h.grows⟩

theorem Keeps.releaseAll (h : Keeps (slots ++ owned) p q) : Keeps owned p (q.releaseAll slots) :=
  ⟨h.accounts.releaseAll, by rw [scopes_releaseAll]; exact h.outer,
    by rw [length_releaseAll]; exact h.grows⟩

/-- Behind a scope, the scopes around it are as they were. -/
theorem Keeps.scopes_closeScope (h : Keeps owned p.openScope q) :
    q.closeScope.scopes = p.scopes := by
  rw [Pool.scopes_closeScope, h.outer, scopes_openScope, List.tail_cons]

theorem Keeps.closeScope (h : Keeps owned p.openScope q) (hp : p.scopes ≠ []) :
    Keeps owned p q.closeScope := by
  have hscopes := h.scopes_closeScope
  refine ⟨h.accounts.closeScope ?_, by rw [hscopes], by rw [length_closeScope]; exact h.grows⟩
  rwa [← Pool.scopes_closeScope, hscopes]

end Pool

namespace Expr

open Pool

theorem assignAlternatives_keeps {items : List Expr}
    (ih : ∀ e ∈ items, ∀ {owned : List Nat} {r : Nat} {p : Pool}, p.Accounts owned → r ∈ owned →
      Keeps owned p (e.assign r p).2)
    {owned : List Nat} {r : Nat} {p : Pool} (h : p.Accounts owned) (hr : r ∈ owned) :
    Keeps owned p (assignAlternatives r items p).2 ∧
      (assignAlternatives r items p).2.scopes = p.scopes := by
  induction items generalizing p with
  | nil => exact ⟨.refl h, rfl⟩
  | cons e es ihes =>
    have hfirst := ih e List.mem_cons_self h.openScope hr
    have hclosed := hfirst.closeScope h.opened
    obtain ⟨hrest, hscopes⟩ := ihes (fun e he => ih e (List.mem_cons_of_mem _ he)) hclosed.accounts
    exact ⟨hclosed.trans hrest, hscopes.trans hfirst.scopes_closeScope⟩

theorem assignElements_keeps {items : List Expr}
    (ih : ∀ e ∈ items, ∀ {owned : List Nat} {r : Nat} {p : Pool}, p.Accounts owned → r ∈ owned →
      Keeps owned p (e.assign r p).2)
    {owned : List Nat} {p : Pool} (h : p.Accounts owned) :
    Keeps ((assignElements items p).2.1 ++ owned) p (assignElements items p).2.2 := by
  induction items generalizing owned p with
  | nil => exact .refl h
  | cons e es ihes =>
    have hslot := Keeps.acquire h
    have hfirst := ih e List.mem_cons_self hslot.accounts List.mem_cons_self
    have hrest := ihes (fun e he => ih e (List.mem_cons_of_mem _ he)) hfirst.accounts
    have hall := (hslot.trans hfirst).trans hrest
    exact ⟨hall.accounts.perm List.perm_middle, hall.outer, hall.grows⟩

/-- An expression gives back what it acquires, except for its labels. -/
theorem assign_keeps (e : Expr) {owned : List Nat} {r : Nat} {p : Pool} (h : p.Accounts owned)
    (hr : r ∈ owned) : Keeps owned p (e.assign r p).2 := by
  induction e using Expr.inductionOn generalizing owned r p with
  | named i name body ih => exact ih h hr
  | choice i items ih => exact (assignAlternatives_keeps ih h hr).1
  | action i code params body ih =>
    have hplace := Keeps.acquire h
    have hbody := ih hplace.accounts.openScope (List.mem_cons_of_mem _ hr)
    exact (hplace.trans (hbody.closeScope hplace.accounts.opened)).release
  | sequence i items ih =>
    have hplace := Keeps.acquire h
    have hitems := assignElements_keeps ih hplace.accounts
    exact (hplace.trans hitems).releaseAll.release
  | labeled i label body ih =>
    have hbody := ih h.openScope hr
    have hclosed := hbody.closeScope h.opened
    have hbound := hclosed.accounts.bindLabel hr label
    refine ⟨hbound, ?_, ?_⟩
    · obtain ⟨scope, outer, hscopes⟩ := List.exists_cons_of_ne_nil hclosed.accounts.opened
      change (Pool.bindLabel _ label r).scopes.tail = _
      rw [scopes_bindLabel _ _ _ hscopes, ← hclosed.outer, hscopes]
      rfl
    · change _ ≤ (Pool.bindLabel _ label r).holders.length
      rw [length_bindLabel]
      exact hclosed.grows
  | lookahead i negated body ih =>
    have hplace := Keeps.acquire h
    have hbody := ih hplace.accounts.openScope (List.mem_cons_of_mem _ hr)
    exact (hplace.trans (hbody.closeScope hplace.accounts.opened)).release
  | optional i body ih => exact (ih h.openScope hr).closeScope h.opened
  | repeated i nonempty body ih =>
    have hitem := Keeps.acquire h
    have hbody := ih hitem.accounts.openScope List.mem_cons_self
    exact (hitem.trans (hbody.closeScope hitem.accounts.opened)).release
  | predicate i negated code params => exact .refl h
  | ruleRef i name => exact .refl h
  | literal i value ignoreCase => exact .refl h
  | charClass i members raw => exact .refl h
  | any i => exact .refl h

/-- The slot for the outcome is one of those that there are behind the expression. -/
theorem lt_of_assign (e : Expr) {owned : List Nat} {r n : Nat} {p : Pool} (h : p.Accounts owned)
    (hr : r ∈ owned) (hcount : (e.assign r p).2.holders.length ≤ n) : r < n :=
  Nat.lt_of_lt_of_le (h.lt hr) (Nat.le_trans (e.assign_keeps h hr).grows hcount)

theorem alternatives_keep (items : List Expr) {owned : List Nat} {r : Nat} {p : Pool}
    (h : p.Accounts owned) (hr : r ∈ owned) :
    Keeps owned p (assignAlternatives r items p).2 ∧
      (assignAlternatives r items p).2.scopes = p.scopes :=
  assignAlternatives_keeps (fun e _ _ _ _ => e.assign_keeps) h hr

theorem elements_keep (items : List Expr) {owned : List Nat} {p : Pool} (h : p.Accounts owned) :
    Keeps ((assignElements items p).2.1 ++ owned) p (assignElements items p).2.2 :=
  assignElements_keeps (fun e _ _ _ _ => e.assign_keeps) h

/-! ### Scopes behind an expression

Named expressions, sequences and labels may bind labels in the scope they stand in. Every other form
leaves it as it was. -/

section

variable {owned : List Nat} {r : Nat} {p : Pool} {i : Info} {body : Expr}

theorem scopes_assign_choice {items : List Expr} (h : p.Accounts owned) (hr : r ∈ owned) :
    ((choice i items).assign r p).2.scopes = p.scopes :=
  (alternatives_keep items h hr).2

theorem scopes_assign_action {code : String} {params : Params} (h : p.Accounts owned)
    (hr : r ∈ owned) : ((action i code params body).assign r p).2.scopes = p.scopes := by
  have hkeeps := body.assign_keeps h.acquire.openScope (List.mem_cons_of_mem _ hr)
  exact hkeeps.scopes_closeScope.trans p.acquire_spec.2.2.2.1

theorem scopes_assign_lookahead {negated : Bool} (h : p.Accounts owned) (hr : r ∈ owned) :
    ((lookahead i negated body).assign r p).2.scopes = p.scopes := by
  have hkeeps := body.assign_keeps h.acquire.openScope (List.mem_cons_of_mem _ hr)
  exact hkeeps.scopes_closeScope.trans p.acquire_spec.2.2.2.1

theorem scopes_assign_optional (h : p.Accounts owned) (hr : r ∈ owned) :
    ((optional i body).assign r p).2.scopes = p.scopes :=
  (body.assign_keeps h.openScope hr).scopes_closeScope

theorem scopes_assign_repeated {nonempty : Bool} (h : p.Accounts owned) :
    ((repeated i nonempty body).assign r p).2.scopes = p.scopes := by
  have hkeeps := body.assign_keeps h.acquire.openScope List.mem_cons_self
  exact hkeeps.scopes_closeScope.trans p.acquire_spec.2.2.2.1

theorem assignElements_free {items : List Expr} {slot : Nat}
    (ih : ∀ e ∈ items, ∀ {owned : List Nat} {r : Nat} {p : Pool}, p.Accounts owned → r ∈ owned →
      slot ∈ owned → slot ≠ r → slot ∉ p.labelSlots → slot ∉ (e.assign r p).2.labelSlots)
    (h : p.Accounts owned) (hslot : slot ∈ owned) (hfree : slot ∉ p.labelSlots) :
    slot ∉ (assignElements items p).2.2.labelSlots := by
  induction items generalizing owned p with
  | nil => exact hfree
  | cons e es ihes =>
    have hkeeps := e.assign_keeps h.acquire List.mem_cons_self
    have hacquired : slot ∉ p.acquire.2.labelSlots := by
      rwa [labelSlots_of_scopes p.acquire_spec.2.2.2.1]
    have hfirst := ih e List.mem_cons_self h.acquire List.mem_cons_self
      (List.mem_cons_of_mem _ hslot) (ne_of_mem_of_not_mem hslot h.fresh.1) hacquired
    exact ihes (fun e he => ih e (List.mem_cons_of_mem _ he)) hkeeps.accounts
      (List.mem_cons_of_mem _ hslot) hfirst

/-- Labels come to stand for the outcome slot or for slots that nobody held, and so for no other
slot that is owned. -/
theorem assign_free (e : Expr) {slot : Nat} (h : p.Accounts owned) (hr : r ∈ owned)
    (hslot : slot ∈ owned) (hne : slot ≠ r) (hfree : slot ∉ p.labelSlots) :
    slot ∉ (e.assign r p).2.labelSlots := by
  induction e using Expr.inductionOn generalizing owned r p with
  | named i name body ih => exact ih h hr hslot hne hfree
  | choice i items ih => rwa [labelSlots_of_scopes (scopes_assign_choice h hr)]
  | action i code params body ih => rwa [labelSlots_of_scopes (scopes_assign_action h hr)]
  | sequence i items ih =>
    have hacquired : slot ∉ p.acquire.2.labelSlots := by
      rwa [labelSlots_of_scopes p.acquire_spec.2.2.2.1]
    have hitems := assignElements_free ih h.acquire (List.mem_cons_of_mem _ hslot) hacquired
    change slot ∉ ((Pool.releaseAll _ _).release _).labelSlots
    rwa [labelSlots, scopes_release, scopes_releaseAll]
  | labeled i label body ih =>
    have hkeeps := body.assign_keeps h.openScope hr
    have hscopes := hkeeps.scopes_closeScope
    obtain ⟨scope, outer, hcons⟩ := List.exists_cons_of_ne_nil h.opened
    change slot ∉ (Pool.bindLabel _ label r).labelSlots
    rw [labelSlots, scopes_bindLabel _ label r (hscopes.trans hcons)]
    rw [labelSlots, hcons] at hfree
    simp only [List.flatten_cons, List.map_append, List.mem_append, not_or] at hfree ⊢
    refine ⟨?_, hfree.2⟩
    intro hmem
    obtain ⟨entry, hentry, rfl⟩ := List.mem_map.mp hmem
    rcases Scope.mem_of_mem_rebind hentry with heq | ⟨old, hold, heq⟩
    · exact hne heq
    · exact hfree.1 (List.mem_map.mpr ⟨old, hold, heq⟩)
  | lookahead i negated body ih => rwa [labelSlots_of_scopes (scopes_assign_lookahead h hr)]
  | optional i body ih => rwa [labelSlots_of_scopes (scopes_assign_optional h hr)]
  | repeated i nonempty body ih => rwa [labelSlots_of_scopes (scopes_assign_repeated h)]
  | predicate i negated code params => exact hfree
  | ruleRef i name => exact hfree
  | literal i value ignoreCase => exact hfree
  | charClass i members raw => exact hfree
  | any i => exact hfree

end

end Expr

end Packrat
