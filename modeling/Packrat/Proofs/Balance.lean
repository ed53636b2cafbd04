import Packrat.Proofs.Adequacy
import Packrat.Proofs.Requests
import Packrat.Proofs.SiteLabels

/-!
# The balance of slots

What is taken from the pool of slots is given back, and never more than that. The result of a
release does not tell whether it was one too many, as a count does not go below zero; so each
request is looked at where it is made (`Pool.Sound`), and a slot that is released has a holder
there.

Behind an expression the counts are what they were before it, up to the labels of the scope that it
stands in: a label that it leaves open holds its slot, and a label that it replaces has given up the
one it had (`Pool.Balanced`). Since the accounts of the pool say who holds each slot, before and
after, only the labels of the two innermost scopes have to be compared.

## Main results

* `Expr.balanced_assign`: the counts behind an expression
* `Expr.sound_requests`: an expression asks for nothing unsound
* `Rule.assign_balanced`: a rule gives back all its slots, and has no more of them than it needs
-/

namespace Packrat

/-! ### Labels of the innermost scope -/

namespace Scope

variable {α : Type}

/-- Names that were bound before keep their place. -/
theorem map_fst_bindAll (seen labels : Scope α) :
    seen.map Prod.fst <+: (bindAll seen labels).map Prod.fst := by
  induction labels generalizing seen with
  | nil => exact List.prefix_rfl
  | cons label labels ih =>
    refine List.IsPrefix.trans ?_ (ih (seen.rebind label.1 label.2))
    rw [map_fst_rebind]
    split
    · exact List.prefix_rfl
    · exact List.prefix_append ..

theorem bindAll_append (seen labels more : Scope α) :
    bindAll seen (labels ++ more) = bindAll (bindAll seen labels) more := List.foldl_append

/-- The labels of a scope that another one lacks. -/
def beyond (labels seen : Scope Nat) : Scope Nat := labels.filter (· ∉ seen)

/-- Two scopes make the same labels, each with what it lacks of the other. -/
theorem perm_beyond {labels seen : Scope Nat} (h : labels.Nodup) (h' : seen.Nodup) :
    (labels ++ seen.beyond labels).Perm (seen ++ labels.beyond seen) := by
  have hdisjoint : ∀ a b : Scope Nat, a.Disjoint (b.beyond a) := by
    intro a b label ha hb
    exact of_decide_eq_true (List.mem_filter.mp hb).2 ha
  refine (List.perm_ext_iff_of_nodup ?_ ?_).mpr fun label => ?_
  · exact h.append (h'.filter _) (hdisjoint _ _)
  · exact h'.append (h.filter _) (hdisjoint _ _)
  · simp only [beyond, List.mem_append, List.mem_filter, decide_eq_true_eq]
    tauto

end Scope

namespace Pool

variable {p q : Pool} {owned : List Nat}

/-- The labels of the innermost scope have different names. -/
def Distinct (p : Pool) : Prop := (p.innermost.map Prod.fst).Nodup

theorem labelSlots_eq (p : Pool) :
    p.labelSlots = p.innermost.map Prod.snd ++ p.scopes.tail.flatten.map Prod.snd := by
  obtain ⟨holders, _ | ⟨scope, outer⟩⟩ := p
  · rfl
  · exact List.map_append

theorem Distinct.of_scopes (h : p.Distinct) (hscopes : q.scopes = p.scopes) : q.Distinct := by
  rwa [Distinct, innermost, hscopes]

theorem Distinct.acquire (h : p.Distinct) : p.acquire.2.Distinct :=
  h.of_scopes p.acquire_spec.2.2.2.1

theorem distinct_openScope (p : Pool) : p.openScope.Distinct := List.nodup_nil

/-! ### Balance -/

/-- How the pool `q` behind an expression differs from the pool `p` before it: a label that is left
open in the innermost scope holds its slot once more, and one that is replaced there gives up the
slot it had. All other counts are the same, and so are the scopes around. -/
structure Balanced (p q : Pool) : Prop where
  outer : q.scopes.tail = p.scopes.tail
  names : p.innermost.map Prod.fst <+: q.innermost.map Prod.fst
  held (slot : Nat) :
    q.held slot + ((p.innermost.beyond q.innermost).map Prod.snd).count slot =
      p.held slot + ((q.innermost.beyond p.innermost).map Prod.snd).count slot

/-- Pools that account for the same owners differ by their labels. -/
theorem Accounts.balanced (h : p.Accounts owned) (h' : q.Accounts owned) (hp : p.Distinct)
    (hq : q.Distinct) (houter : q.scopes.tail = p.scopes.tail)
    (hnames : p.innermost.map Prod.fst <+: q.innermost.map Prod.fst) : p.Balanced q := by
  refine ⟨houter, hnames, fun slot => ?_⟩
  have hperm := Scope.perm_beyond (List.Nodup.of_map _ hq) (List.Nodup.of_map _ hp)
  have hcount := (hperm.map Prod.snd).count_eq slot
  rw [List.map_append, List.map_append, List.count_append, List.count_append] at hcount
  have hbefore := h.held slot
  have hbehind := h'.held slot
  rw [labelSlots_eq, List.count_append] at hbefore hbehind
  rw [houter] at hbehind
  omega

/-! ### Sound requests -/

/-- A request that others come behind does no harm: a slot that is retained or released has a
holder, a scope that is dropped or gets a label is open, and a mark is followed by the requests of
its expression, behind which the pool is the one that the expression leaves, in balance. -/
def Sound (p : Pool) : Request → List Request → Prop
  | .compute e result, behind =>
    e.requests result p <+: .compute e result :: behind ∧
      p.performAll (e.requests result p) = (e.assign result p).2 ∧ p.Balanced (e.assign result p).2
  | .retain slot, _ | .release slot, _ => p.held slot ≠ 0
  | .dropScope, _ | .point .., _ => p.scopes ≠ []
  | .acquire, _ | .openScope, _ => True

/-- Each request is sound for the pool behind those before it. -/
def AllSound (p : Pool) : List Request → Prop
  | [] => True
  | request :: behind => p.Sound request behind ∧ (p.perform request).AllSound behind

variable {request : Request} {requests before after : List Request}

theorem Sound.append (h : p.Sound request before) (after : List Request) :
    p.Sound request (before ++ after) := by
  cases request with
  | compute e result =>
    exact ⟨h.1.trans (List.prefix_append (.compute e result :: before) after), h.2⟩
  | acquire | retain | release | openScope | dropScope | point => exact h

theorem AllSound.append (h : p.AllSound before) (h' : (p.performAll before).AllSound after) :
    p.AllSound (before ++ after) := by
  induction before generalizing p with
  | nil => exact h'
  | cons request before ih => exact ⟨h.1.append after, ih h.2 h'⟩

theorem AllSound.sound (h : p.AllSound (before ++ request :: after)) :
    (p.performAll before).Sound request after := by
  induction before generalizing p with
  | nil => exact h.1
  | cons first before ih => exact ih h.2

theorem sound_releases {slots : List Nat} (h : ∀ slot, slots.count slot ≤ p.held slot) :
    p.AllSound (slots.map .release) := by
  induction slots generalizing p with
  | nil => trivial
  | cons first slots ih =>
    refine ⟨?_, ih fun slot => ?_⟩
    · have hfirst := h first
      rw [List.count_cons_self] at hfirst
      exact Nat.ne_of_gt (Nat.lt_of_lt_of_le (Nat.succ_pos _) hfirst)
    · have hslot := h slot
      rw [List.count_cons, ite_beq_swap] at hslot
      change _ ≤ (p.release first).held slot
      rw [held_release]
      omega

theorem Accounts.sound_releases {slots : List Nat} (h : p.Accounts (slots ++ owned)) :
    p.AllSound (slots.map .release) := by
  refine Pool.sound_releases fun slot => ?_
  rw [h.held, List.count_append]
  omega

theorem Accounts.sound_closing (h : p.Accounts owned) : p.AllSound p.closing := by
  refine ⟨h.opened, Pool.sound_releases fun slot => ?_⟩
  change _ ≤ p.held slot
  rw [h.held, labelSlots_eq, List.count_append]
  omega

theorem Accounts.sound_binding (h : p.Accounts owned) {slot : Nat} (hslot : slot ∈ owned)
    (label : String) : p.AllSound (p.binding label slot) := by
  have hheld : p.held slot ≠ 0 := by
    have hcount := List.count_pos_iff.mpr hslot
    rw [h.held]
    omega
  refine ⟨hheld, h.opened, Pool.sound_releases fun old => ?_⟩
  obtain ⟨scope, outer, hscopes⟩ := List.exists_cons_of_ne_nil h.opened
  have hretained : (((p.perform (.retain slot)).perform (.point label slot)).held old) =
      p.held old + if old = slot then 1 else 0 := by
    rw [← held_retain (h.lt hslot)]
    unfold perform
    cases (p.retain slot).scopes <;> rfl
  have hinnermost : p.innermost = scope := by rw [innermost, hscopes, List.headD_cons]
  have hcount := count_rebind scope label slot old
  rw [hretained, h.held, labelSlots_eq, List.count_append, hinnermost]
  omega

/-- A scope is opened and closed around sound requests. -/
theorem sound_within (h : p.openScope.AllSound requests) (hq : p.openScope.performAll requests = q)
    (haccounts : q.Accounts owned) : p.AllSound (within requests q) :=
  ⟨trivial, h.append (hq ▸ haccounts.sound_closing)⟩

end Pool

namespace Expr

open Pool

variable {owned : List Nat} {r : Nat} {p : Pool} {items : List Expr}

/-! ### Labels that stay open -/

theorem scopes_behind {body : Expr}
    (h : ∃ labels, (body.assign r p.openScope).2.scopes = Scope.bindAll [] labels :: p.scopes) :
    (body.assign r p.openScope).2.closeScope.scopes = p.scopes := by
  obtain ⟨labels, hscopes⟩ := h
  rw [scopes_closeScope, hscopes, List.tail_cons]

theorem scopes_alternatives
    (ih : ∀ e ∈ items, ∀ {p : Pool} {scope : Scope Nat} {outer : List (Scope Nat)},
      p.scopes = scope :: outer →
        ∃ labels, (e.assign r p).2.scopes = Scope.bindAll scope labels :: outer) :
    (assignAlternatives r items p).2.scopes = p.scopes := by
  induction items generalizing p with
  | nil => rfl
  | cons e es ihes =>
    have hfirst := scopes_behind (ih e List.mem_cons_self p.scopes_openScope)
    exact (ihes fun e he => ih e (List.mem_cons_of_mem _ he)).trans hfirst

theorem exists_binds_elements
    (ih : ∀ e ∈ items, ∀ {r : Nat} {p : Pool} {scope : Scope Nat} {outer : List (Scope Nat)},
      p.scopes = scope :: outer →
        ∃ labels, (e.assign r p).2.scopes = Scope.bindAll scope labels :: outer)
    {scope : Scope Nat} {outer : List (Scope Nat)} (h : p.scopes = scope :: outer) :
    ∃ labels, (assignElements items p).2.2.scopes = Scope.bindAll scope labels :: outer := by
  induction items generalizing p scope with
  | nil => exact ⟨[], h⟩
  | cons e es ihes =>
    obtain ⟨labels, hfirst⟩ := ih e List.mem_cons_self (p.acquire_spec.2.2.2.1.trans h)
    obtain ⟨more, hrest⟩ := ihes (fun e he => ih e (List.mem_cons_of_mem _ he)) hfirst
    exact ⟨labels ++ more, by rw [Scope.bindAll_append]; exact hrest⟩

/-- An expression binds labels in the scope it stands in, and changes no scope around it. -/
theorem exists_binds (e : Expr) {r : Nat} {p : Pool} {scope : Scope Nat}
    {outer : List (Scope Nat)} (h : p.scopes = scope :: outer) :
    ∃ labels, (e.assign r p).2.scopes = Scope.bindAll scope labels :: outer := by
  induction e using Expr.inductionOn generalizing r p scope outer with
  | named i name body ih => exact ih h
  | choice i items ih => exact ⟨[], (scopes_alternatives fun e he => ih e he).trans h⟩
  | action i code params body ih | lookahead i negated body ih | repeated i nonempty body ih =>
    exact ⟨[], (scopes_behind (ih p.acquire.2.scopes_openScope)).trans
      (p.acquire_spec.2.2.2.1.trans h)⟩
  | sequence i items ih =>
    obtain ⟨labels, hitems⟩ := exists_binds_elements ih (p.acquire_spec.2.2.2.1.trans h)
    exact ⟨labels, (scopes_releaseAll _ _).trans hitems⟩
  | labeled i label body ih =>
    exact ⟨[(label, r)], scopes_bindLabel _ label r
      ((scopes_behind (ih p.scopes_openScope)).trans h)⟩
  | optional i body ih => exact ⟨[], (scopes_behind (ih p.scopes_openScope)).trans h⟩
  | predicate | ruleRef | literal | charClass | any => exact ⟨[], h⟩

theorem exists_innermost (e : Expr) (r : Nat) (h : p.scopes ≠ []) :
    ∃ labels, (e.assign r p).2.innermost = Scope.bindAll p.innermost labels := by
  obtain ⟨scope, outer, hscopes⟩ := List.exists_cons_of_ne_nil h
  obtain ⟨labels, hbinds⟩ := e.exists_binds (r := r) hscopes
  refine ⟨labels, ?_⟩
  rw [innermost, hbinds, innermost, hscopes, List.headD_cons, List.headD_cons]

theorem distinct_assign (e : Expr) (h : p.Accounts owned) (hp : p.Distinct) :
    (e.assign r p).2.Distinct := by
  obtain ⟨labels, hinnermost⟩ := e.exists_innermost r h.opened
  rw [Distinct, hinnermost]
  exact Scope.nodup_bindAll hp labels

/-- Behind an expression, counts have changed for the labels that it leaves open or replaces. -/
theorem balanced_assign (e : Expr) (h : p.Accounts owned) (hr : r ∈ owned) (hp : p.Distinct) :
    p.Balanced (e.assign r p).2 := by
  have hkeeps := e.assign_keeps h hr
  obtain ⟨labels, hinnermost⟩ := e.exists_innermost r h.opened
  refine h.balanced hkeeps.accounts hp (e.distinct_assign h hp) hkeeps.outer ?_
  rw [hinnermost]
  exact Scope.map_fst_bindAll _ _

/-! ### What an expression asks for -/

theorem sound_requestsWithin {body : Expr}
    (ih : ∀ {owned : List Nat} {r : Nat} {p : Pool}, p.Accounts owned → r ∈ owned → p.Distinct →
      p.AllSound (body.requests r p)) (h : p.Accounts owned) (hr : r ∈ owned) :
    p.AllSound (within (body.requests r p.openScope) (body.assign r p.openScope).2) :=
  sound_within (ih h.openScope hr p.distinct_openScope) (body.performAll_requests r _)
    (body.assign_keeps h.openScope hr).accounts

/-- Around the body, a slot is acquired and released again. -/
theorem sound_aside {body : Expr} {s : Nat}
    (ih : ∀ {owned : List Nat} {r : Nat} {p : Pool}, p.Accounts owned → r ∈ owned → p.Distinct →
      p.AllSound (body.requests r p)) (h : p.Accounts owned) (hs : s ∈ p.acquire.1 :: owned) :
    p.acquire.2.AllSound (within (body.requests s p.acquire.2.openScope)
      (body.assign s p.acquire.2.openScope).2 ++ [.release p.acquire.1]) := by
  refine (sound_requestsWithin ih h.acquire hs).append ?_
  have hkeeps := (body.assign_keeps h.acquire.openScope hs).closeScope h.acquire.opened
  rw [performAll_within (body.performAll_requests s _)]
  exact @Accounts.sound_releases _ owned [p.acquire.1] hkeeps.accounts

theorem sound_alternatives
    (ih : ∀ e ∈ items, ∀ {owned : List Nat} {r : Nat} {p : Pool}, p.Accounts owned → r ∈ owned →
      p.Distinct → p.AllSound (e.requests r p)) (h : p.Accounts owned) (hr : r ∈ owned) :
    p.AllSound (requestsAlternatives r items p) := by
  induction items generalizing p with
  | nil => trivial
  | cons e es ihes =>
    have hclosed := (e.assign_keeps h.openScope hr).closeScope h.opened
    refine (sound_requestsWithin (ih e List.mem_cons_self) h hr).append ?_
    rw [performAll_within (e.performAll_requests r _)]
    exact ihes (fun e he => ih e (List.mem_cons_of_mem _ he)) hclosed.accounts

theorem sound_elements
    (ih : ∀ e ∈ items, ∀ {owned : List Nat} {r : Nat} {p : Pool}, p.Accounts owned → r ∈ owned →
      p.Distinct → p.AllSound (e.requests r p)) (h : p.Accounts owned) (hp : p.Distinct) :
    p.AllSound (requestsElements items p) := by
  induction items generalizing owned p with
  | nil => trivial
  | cons e es ihes =>
    have hkeeps := e.assign_keeps h.acquire List.mem_cons_self
    refine ⟨trivial, (ih e List.mem_cons_self h.acquire List.mem_cons_self hp.acquire).append ?_⟩
    rw [e.performAll_requests]
    exact ihes (fun e he => ih e (List.mem_cons_of_mem _ he)) hkeeps.accounts
      (e.distinct_assign h.acquire hp.acquire)

theorem sound_compute {e : Expr} {behind : List Request}
    (hrequests : e.requests r p = .compute e r :: behind) (h : p.Accounts owned) (hr : r ∈ owned)
    (hp : p.Distinct) : p.Sound (.compute e r) behind :=
  ⟨hrequests ▸ List.prefix_rfl, e.performAll_requests r p, e.balanced_assign h hr hp⟩

/-- An expression asks for nothing unsound. -/
theorem sound_requests (e : Expr) (h : p.Accounts owned) (hr : r ∈ owned) (hp : p.Distinct) :
    p.AllSound (e.requests r p) := by
  induction e using Expr.inductionOn generalizing owned r p with
  | named i name body ih => exact ⟨sound_compute rfl h hr hp, ih h hr hp⟩
  | choice i items ih => exact ⟨sound_compute rfl h hr hp, sound_alternatives ih h hr⟩
  | action i code params body ih | lookahead i negated body ih =>
    exact ⟨sound_compute rfl h hr hp, trivial, sound_aside ih h (List.mem_cons_of_mem _ hr)⟩
  | sequence i items ih =>
    have hitems := (elements_keep items h.acquire).accounts
    refine ⟨sound_compute rfl h hr hp, trivial, ?_⟩
    refine (sound_elements ih h.acquire hp.acquire).append ?_
    rw [performAll_elements fun e _ => e.performAll_requests]
    refine hitems.sound_releases.append ?_
    rw [performAll_releases]
    exact @Accounts.sound_releases _ owned [p.acquire.1] hitems.releaseAll
  | labeled i label body ih =>
    have hclosed := (body.assign_keeps h.openScope hr).closeScope h.opened
    refine ⟨sound_compute rfl h hr hp, (sound_requestsWithin ih h hr).append ?_⟩
    rw [performAll_within (body.performAll_requests r _)]
    exact hclosed.accounts.sound_binding hr label
  | optional i body ih => exact ⟨sound_compute rfl h hr hp, sound_requestsWithin ih h hr⟩
  | repeated i nonempty body ih =>
    exact ⟨sound_compute rfl h hr hp, trivial, sound_aside ih h List.mem_cons_self⟩
  | predicate | ruleRef | literal | charClass | any =>
    exact ⟨sound_compute rfl h hr hp, trivial⟩

/-! ### Slots of a rule -/

/-- The labels that a code block reads, with their slots. -/
def params : Expr → Params
  | action _ _ params _ | predicate _ _ _ params => params
  | _ => []

/-- The slots of an expression itself: for its outcome, for the place to go back to, and those of
the labels that its code block reads. -/
def slots (e : Expr) : List Nat :=
  e.info.result.toList ++ e.info.place.toList ++ e.params.map Prod.snd

/-- All slots in an expression are below a bound. -/
def Below (n : Nat) (e : Expr) : Prop := ∀ c : Expr, c.Inside e → ∀ slot ∈ c.slots, slot < n

theorem below_iff {n : Nat} {e : Expr} :
    e.Below n ↔ (∀ slot ∈ e.slots, slot < n) ∧ ∀ c ∈ e.children, c.Below n := forall_inside_iff

theorem Below.mono {m n : Nat} {e : Expr} (h : e.Below m) (hle : m ≤ n) : e.Below n :=
  fun c hc slot hslot => Nat.lt_of_lt_of_le (h c hc slot hslot) hle

theorem below_of_slots {n r : Nat} {e : Expr} (hresult : e.info.result = some r) (hr : r < n)
    (hplace : ∀ slot ∈ e.info.place.toList, slot < n)
    (hparams : ∀ slot ∈ e.params.map Prod.snd, slot < n) (hchildren : ∀ c ∈ e.children, c.Below n) :
    e.Below n := by
  refine below_iff.mpr ⟨?_, hchildren⟩
  rw [slots, hresult]
  exact List.forall_mem_append.mpr
    ⟨List.forall_mem_append.mpr ⟨List.forall_mem_singleton.mpr hr, hplace⟩, hparams⟩

theorem below_alternatives
    (ih : ∀ e ∈ items, ∀ {owned : List Nat} {r : Nat} {p : Pool}, p.Accounts owned → r ∈ owned →
      (e.assign r p).1.Below (e.assign r p).2.holders.length) (h : p.Accounts owned)
    (hr : r ∈ owned) : ∀ e ∈ (assignAlternatives r items p).1,
      e.Below (assignAlternatives r items p).2.holders.length := by
  induction items generalizing p with
  | nil => exact nofun
  | cons e es ihes =>
    have hclosed := (e.assign_keeps h.openScope hr).closeScope h.opened
    have hrest := (alternatives_keep es hclosed.accounts hr).1.grows
    rw [length_closeScope] at hrest
    exact List.forall_mem_cons.mpr ⟨(ih e List.mem_cons_self h.openScope hr).mono hrest,
      ihes (fun e he => ih e (List.mem_cons_of_mem _ he)) hclosed.accounts⟩

theorem below_elements
    (ih : ∀ e ∈ items, ∀ {owned : List Nat} {r : Nat} {p : Pool}, p.Accounts owned → r ∈ owned →
      (e.assign r p).1.Below (e.assign r p).2.holders.length) (h : p.Accounts owned) :
    ∀ e ∈ (assignElements items p).1, e.Below (assignElements items p).2.2.holders.length := by
  induction items generalizing owned p with
  | nil => exact nofun
  | cons e es ihes =>
    have hkeeps := e.assign_keeps h.acquire List.mem_cons_self
    have hrest := (elements_keep es hkeeps.accounts).grows
    exact List.forall_mem_cons.mpr
      ⟨(ih e List.mem_cons_self h.acquire List.mem_cons_self).mono hrest,
        ihes (fun e he => ih e (List.mem_cons_of_mem _ he)) hkeeps.accounts⟩

theorem lt_assign (e : Expr) (h : p.Accounts owned) (hr : r ∈ owned) :
    r < (e.assign r p).2.holders.length := (e.assign_keeps h hr).accounts.lt hr

theorem below_within {body : Expr}
    (ih : ∀ {owned : List Nat} {r : Nat} {p : Pool}, p.Accounts owned → r ∈ owned →
      (body.assign r p).1.Below (body.assign r p).2.holders.length) (h : p.Accounts owned)
    (hr : r ∈ owned) : (body.assign r p.openScope).1.Below
      (body.assign r p.openScope).2.closeScope.holders.length := by
  rw [length_closeScope]
  exact ih h.openScope hr

/-- A slot that is acquired around the body is one of the pool behind it. -/
theorem lt_aside (body : Expr) {s : Nat} (h : p.Accounts owned) (hs : s ∈ p.acquire.1 :: owned) :
    p.acquire.1 < ((body.assign s p.acquire.2.openScope).2.closeScope.release
      p.acquire.1).holders.length := by
  rw [length_release, length_closeScope]
  exact (body.assign_keeps h.acquire.openScope hs).accounts.lt List.mem_cons_self

theorem below_aside {body : Expr} {s : Nat}
    (ih : ∀ {owned : List Nat} {r : Nat} {p : Pool}, p.Accounts owned → r ∈ owned →
      (body.assign r p).1.Below (body.assign r p).2.holders.length) (h : p.Accounts owned)
    (hs : s ∈ p.acquire.1 :: owned) : (body.assign s p.acquire.2.openScope).1.Below
      ((body.assign s p.acquire.2.openScope).2.closeScope.release
        p.acquire.1).holders.length := by
  rw [length_release]
  exact below_within ih h.acquire hs

/-- All slots in an expression are slots of the pool that it leaves. -/
theorem below_assign (e : Expr) (h : p.Accounts owned) (hr : r ∈ owned) :
    (e.assign r p).1.Below (e.assign r p).2.holders.length := by
  induction e using Expr.inductionOn generalizing owned r p with
  | named i name body ih =>
    exact below_of_slots rfl (lt_assign _ h hr) nofun nofun
      (List.forall_mem_singleton.mpr (ih h hr))
  | choice i items ih =>
    exact below_of_slots rfl (lt_assign _ h hr) nofun nofun (below_alternatives ih h hr)
  | action i code params body ih =>
    have hr' := List.mem_cons_of_mem p.acquire.1 hr
    have hbody := body.assign_keeps h.acquire.openScope hr'
    refine below_of_slots rfl (lt_assign _ h hr)
      (List.forall_mem_singleton.mpr (lt_aside body h hr')) (fun slot hslot => ?_)
      (List.forall_mem_singleton.mpr (below_aside ih h hr'))
    refine Nat.lt_of_lt_of_eq (hbody.accounts.lt_inView hslot) ?_
    exact ((length_release ..).trans (length_closeScope _)).symm
  | sequence i items ih =>
    have hitems := elements_keep items h.acquire
    have hlength : ((sequence i items).assign r p).2.holders.length =
        (assignElements items p.acquire.2).2.2.holders.length :=
      (length_release ..).trans (length_releaseAll ..)
    have hplace := hitems.accounts.lt (List.mem_append_right _ List.mem_cons_self)
    rw [hlength]
    exact below_of_slots rfl (hlength ▸ lt_assign _ h hr) (List.forall_mem_singleton.mpr hplace)
      nofun (below_elements ih h.acquire)
  | labeled i label body ih =>
    refine below_of_slots rfl (lt_assign _ h hr) nofun nofun (List.forall_mem_singleton.mpr ?_)
    exact (below_within ih h hr).mono (Nat.le_of_eq (length_bindLabel ..).symm)
  | lookahead i negated body ih =>
    have hr' := List.mem_cons_of_mem p.acquire.1 hr
    exact below_of_slots rfl (lt_assign _ h hr)
      (List.forall_mem_singleton.mpr (lt_aside body h hr')) nofun
      (List.forall_mem_singleton.mpr (below_aside ih h hr'))
  | optional i body ih =>
    exact below_of_slots rfl (lt_assign _ h hr) nofun nofun
      (List.forall_mem_singleton.mpr (below_within ih h hr))
  | repeated i nonempty body ih =>
    exact below_of_slots rfl (lt_assign _ h hr) nofun nofun
      (List.forall_mem_singleton.mpr (below_aside ih h List.mem_cons_self))
  | predicate i negated code params =>
    exact below_of_slots rfl (h.lt hr) nofun (fun _ => h.lt_inView) nofun
  | ruleRef | literal | charClass | any => exact below_of_slots rfl (h.lt hr) nofun nofun nofun

end Expr

/-! ### Rules -/

namespace Rule

open Pool

/-- What assigning slots in the body of a rule asks for. -/
def requests (r : Rule) : List Request :=
  let result := (Pool.acquire {}).1
  let root := (Pool.acquire {}).2.openScope
  .acquire :: (within (r.body.requests result root) (r.body.assign result root).2 ++
    [.release result])

theorem performAll_requests (r : Rule) : performAll {} r.requests =
    (r.body.assign (Pool.acquire {}).1 (Pool.acquire {}).2.openScope).2.closeScope.release
      (Pool.acquire {}).1 := by
  refine (performAll_append (Pool.acquire {}).2 _ _).trans ?_
  rw [performAll_within (r.body.performAll_requests _ _)]
  rfl

/-- When the body has its slots, only the outcome slot and those of labels left open are held. -/
theorem keeps_body (r : Rule) : Keeps [(Pool.acquire {}).1] (Pool.acquire {}).2.openScope
    (r.body.assign (Pool.acquire {}).1 (Pool.acquire {}).2.openScope).2 :=
  r.body.assign_keeps accounts_root List.mem_cons_self

theorem held_outermost (r : Rule) (slot : Nat) :
    (r.body.assign (Pool.acquire {}).1 (Pool.acquire {}).2.openScope).2.closeScope.held slot =
      [(Pool.acquire {}).1].count slot := by
  rw [r.keeps_body.accounts.held_closeScope, r.keeps_body.outer]
  rfl

/-- A rule asks for nothing unsound. -/
theorem sound_requests (r : Rule) : Pool.AllSound {} r.requests := by
  have hbody := r.body.sound_requests accounts_root List.mem_cons_self
    (Pool.distinct_openScope (Pool.acquire {}).2)
  have hperform := r.body.performAll_requests (Pool.acquire {}).1 (Pool.acquire {}).2.openScope
  refine ⟨trivial, (sound_within hbody hperform r.keeps_body.accounts).append ?_⟩
  rw [performAll_within hperform]
  refine @Pool.sound_releases _ [(Pool.acquire {}).1] fun slot => ?_
  rw [held_outermost]

/-- Nobody holds a slot of a rule that is done, and no scope is open. -/
theorem performAll_requests_eq (r : Rule) : performAll {} r.requests =
    { holders := List.replicate r.assign.registers 0, scopes := [] } := by
  have hfinal := r.performAll_requests
  have hscopes : (performAll {} r.requests).scopes = [] := by
    rw [hfinal, scopes_release, scopes_closeScope, r.keeps_body.outer]
    rfl
  have hlength : (performAll {} r.requests).holders.length = r.assign.registers := by
    rw [hfinal]
    rfl
  have hheld (slot : Nat) : (performAll {} r.requests).held slot = 0 := by
    rw [hfinal, held_release, held_outermost, List.count_singleton, ite_beq_swap]
    exact Nat.sub_self _
  have hholders : (performAll {} r.requests).holders = List.replicate r.assign.registers 0 := by
    refine List.eq_replicate_iff.mpr ⟨hlength, fun count hcount => ?_⟩
    obtain ⟨slot, hlt, rfl⟩ := List.mem_iff_getElem.mp hcount
    exact (List.getD_eq_getElem _ 0 hlt).symm.trans (hheld slot)
  exact congrArg₂ Pool.mk hholders hscopes

theorem mem_requests {r : Rule} {request : Request}
    (h : request ∈ r.body.requests (Pool.acquire {}).1 (Pool.acquire {}).2.openScope) :
    request ∈ r.requests :=
  List.mem_cons_of_mem _ (List.mem_append_left _ (Expr.mem_within h _))

/-- Assigning slots in a rule asks for slots for each expression, and for nothing unsound; when it
is done, no scope is open and nobody holds a slot. All slots in the body are among the registers of
the rule, and at some time each register is held. -/
theorem assign_balanced (r : Rule) :
    (∀ e : Expr, e.Inside r.body → ∃ result, .compute e result ∈ r.requests) ∧
    (∀ before request after, r.requests = before ++ request :: after →
      (performAll {} before).Sound request after) ∧
    performAll {} r.requests = { holders := List.replicate r.assign.registers 0, scopes := [] } ∧
    (∀ e : Expr, e.Inside r.assign.body → ∀ slot ∈ e.slots, slot < r.assign.registers) ∧
    IsGreatest {n | ∃ before, before <+: r.requests ∧ (performAll {} before).tally = n}
      r.assign.registers := by
  refine ⟨fun e he => ?_, fun before request after h => ?_, r.performAll_requests_eq, ?_, ?_⟩
  · obtain ⟨result, hmem⟩ :=
      Expr.exists_compute he (Pool.acquire {}).1 (Pool.acquire {}).2.openScope
    exact ⟨result, mem_requests hmem⟩
  · exact (h ▸ r.sound_requests).sound
  · rw [r.registers_assign]
    exact r.body.below_assign accounts_root List.mem_cons_self
  · have hpeak := isGreatest_tally r.requests
    rwa [r.performAll_requests_eq, List.length_replicate] at hpeak

/-- Any character, under a label. -/
def labeledAny : Expr := .labeled default "x" (.any default)

/-- A rule whose second element takes over the label of the first. -/
def relabeling : Rule := ⟨default, "s", .sequence default [labeledAny, labeledAny], 0⟩

/-- Behind the second element, the label holds slot 3 and has given up slot 2. -/
theorem assign_balanced_relabeling :
    (relabeling.body.Inside relabeling.body ∧
      ∃ result, .compute relabeling.body result ∈ relabeling.requests) ∧
    (relabeling.requests =
        relabeling.requests.take 12 ++ .compute labeledAny 3 :: relabeling.requests.drop 13 ∧
      Balanced ⟨[1, 1, 2, 1], [[("x", 2)]]⟩ ⟨[1, 1, 1, 2], [[("x", 3)]]⟩) ∧
    performAll {} relabeling.requests = ⟨[0, 0, 0, 0], []⟩ ∧
    (relabeling.assign.body.Inside relabeling.assign.body ∧
      ∀ slot ∈ relabeling.assign.body.slots, slot < 4) ∧
    IsGreatest {n | ∃ before, before <+: relabeling.requests ∧
      (performAll {} before).tally = n} 4 := by
  obtain ⟨hmarks, hsound, hfinal, hslots, hpeak⟩ := assign_balanced relabeling
  have hrequests : relabeling.requests =
      relabeling.requests.take 12 ++ .compute labeledAny 3 :: relabeling.requests.drop 13 := rfl
  exact ⟨⟨.self, hmarks _ .self⟩, ⟨hrequests, (hsound _ _ _ hrequests).2.2⟩, hfinal,
    ⟨.self, hslots _ .self⟩, hpeak⟩

end Rule

end Packrat
