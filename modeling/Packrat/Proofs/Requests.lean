import Mathlib.Data.List.Induction
import Mathlib.Order.Bounds.Defs
import Packrat.Proofs.Holders

/-!
# The course of an assignment

`Expr.assign` says which slots an expression gets and which pool it leaves. What the pool goes
through in between is not in its result, and some of what is right or wrong about the counts is only
seen there: a slot released once too often has a count of zero, as if it had not been. So the
requests to the pool are listed here, one for each change of a count or of the scopes, and a mark
where the slots of an expression begin.

The list is made beside `Expr.assign` and follows it form by form; the two agree on every pool
(`performAll_requests`). A scope that is closed is dropped first, and its labels give up their slots
after that; a label that is bound takes its new slot before it gives up its old one.

## Main results

* `Expr.performAll_requests`: the requests of an expression lead to the pool that it leaves
* `Expr.exists_compute`: they have a mark for every expression inside
* `Pool.isGreatest_tally`: a pool has as many slots as were held at the same time
-/

namespace Packrat

namespace Pool

/-! ### Requests -/

/-- What is asked of a pool while slots are assigned. -/
inductive Request where
  /-- An expression is to get its slots, and its outcome the slot `result`. -/
  | compute (e : Expr) (result : Nat)
  | acquire
  | retain (slot : Nat)
  | release (slot : Nat)
  | openScope
  /-- Takes the innermost scope away; the slots of its labels are still held. -/
  | dropScope
  /-- Makes a label of the innermost scope stand for a slot. -/
  | point (label : String) (slot : Nat)

/-- The pool behind a request. -/
def perform (p : Pool) : Request → Pool
  | .compute .. => p
  | .acquire => p.acquire.2
  | .retain slot => p.retain slot
  | .release slot => p.release slot
  | .openScope => p.openScope
  | .dropScope => { p with scopes := p.scopes.tail }
  | .point label slot =>
    match p.scopes with
    | [] => p
    | scope :: outer => { p with scopes := scope.rebind label slot :: outer }

/-- The pool behind several requests. -/
def performAll (p : Pool) (requests : List Request) : Pool := requests.foldl perform p

/-- The labels of the innermost scope. -/
def innermost (p : Pool) : Scope Nat := p.scopes.headD []

/-- What closing the innermost scope asks for. -/
def closing (p : Pool) : List Request :=
  .dropScope :: (p.innermost.map Prod.snd).map .release

/-- What binding a label asks for. -/
def binding (p : Pool) (label : String) (slot : Nat) : List Request :=
  .retain slot :: .point label slot :: (p.innermost.lookup label).toList.map .release

/-- Requests in a scope of their own, which is closed when the pool is `q`. -/
def within (requests : List Request) (q : Pool) : List Request :=
  .openScope :: (requests ++ q.closing)

variable {p q : Pool} {requests : List Request}

theorem performAll_append (p : Pool) (before after : List Request) :
    p.performAll (before ++ after) = (p.performAll before).performAll after :=
  List.foldl_append

theorem performAll_releases (p : Pool) (slots : List Nat) :
    p.performAll (slots.map .release) = p.releaseAll slots := List.foldl_map

theorem performAll_closing (p : Pool) : p.performAll p.closing = p.closeScope := by
  obtain ⟨holders, _ | ⟨scope, outer⟩⟩ := p
  · rfl
  · exact performAll_releases ⟨holders, outer⟩ (scope.map Prod.snd)

theorem performAll_binding (p : Pool) (label : String) (slot : Nat) :
    p.performAll (p.binding label slot) = p.bindLabel label slot := by
  obtain ⟨holders, _ | ⟨scope, outer⟩⟩ := p
  · rfl
  · unfold binding innermost bindLabel
    simp only [retain, List.headD_cons]
    cases scope.lookup label <;> rfl

theorem performAll_within (h : p.openScope.performAll requests = q) :
    p.performAll (within requests q) = q.closeScope := by
  rw [within, performAll, List.foldl_cons, ← performAll, performAll_append]
  exact (congrArg (performAll · q.closing) h).trans q.performAll_closing

end Pool

namespace Expr

open Pool

mutual
/-- What assigning slots to an expression asks for. -/
def requests (result : Nat) : Expr → Pool → List Request
  | named i name body, p => .compute (named i name body) result :: body.requests result p
  | choice i items, p =>
    .compute (choice i items) result :: requestsAlternatives result items p
  | action i code params body, p =>
    let inner := p.acquire.2.openScope
    .compute (action i code params body) result :: .acquire ::
      (within (body.requests result inner) (body.assign result inner).2 ++ [.release p.acquire.1])
  | sequence i items, p =>
    .compute (sequence i items) result :: .acquire ::
      (requestsElements items p.acquire.2 ++
        ((assignElements items p.acquire.2).2.1.map .release ++ [.release p.acquire.1]))
  | labeled i label body, p =>
    let behind := (body.assign result p.openScope).2
    .compute (labeled i label body) result ::
      (within (body.requests result p.openScope) behind ++ behind.closeScope.binding label result)
  | lookahead i negated body, p =>
    let inner := p.acquire.2.openScope
    .compute (lookahead i negated body) result :: .acquire ::
      (within (body.requests result inner) (body.assign result inner).2 ++ [.release p.acquire.1])
  | predicate i negated code params, _ => [.compute (predicate i negated code params) result]
  | optional i body, p =>
    .compute (optional i body) result ::
      within (body.requests result p.openScope) (body.assign result p.openScope).2
  | repeated i nonempty body, p =>
    let item := p.acquire.1
    let inner := p.acquire.2.openScope
    .compute (repeated i nonempty body) result :: .acquire ::
      (within (body.requests item inner) (body.assign item inner).2 ++ [.release item])
  | ruleRef i name, _ => [.compute (ruleRef i name) result]
  | literal i value ignoreCase, _ => [.compute (literal i value ignoreCase) result]
  | charClass i members raw, _ => [.compute (charClass i members raw) result]
  | any i, _ => [.compute (any i) result]

/-- What the alternatives of a choice ask for. -/
def requestsAlternatives (result : Nat) : List Expr → Pool → List Request
  | [], _ => []
  | e :: es, p =>
    let behind := (e.assign result p.openScope).2
    within (e.requests result p.openScope) behind ++
      requestsAlternatives result es behind.closeScope

/-- What the elements of a sequence ask for until all of them have run. -/
def requestsElements : List Expr → Pool → List Request
  | [], _ => []
  | e :: es, p =>
    .acquire :: (e.requests p.acquire.1 p.acquire.2 ++
      requestsElements es (e.assign p.acquire.1 p.acquire.2).2)
end

/-! ### The pool behind them -/

theorem performAll_alternatives {items : List Expr}
    (ih : ∀ e ∈ items, ∀ (r : Nat) (p : Pool), p.performAll (e.requests r p) = (e.assign r p).2)
    (r : Nat) (p : Pool) :
    p.performAll (requestsAlternatives r items p) = (assignAlternatives r items p).2 := by
  induction items generalizing p with
  | nil => rfl
  | cons e es ihes =>
    have hfirst := performAll_within (ih e List.mem_cons_self r p.openScope)
    rw [requestsAlternatives, performAll_append, hfirst]
    exact ihes (fun e he => ih e (List.mem_cons_of_mem _ he)) _

theorem performAll_elements {items : List Expr}
    (ih : ∀ e ∈ items, ∀ (r : Nat) (p : Pool), p.performAll (e.requests r p) = (e.assign r p).2)
    (p : Pool) : p.performAll (requestsElements items p) = (assignElements items p).2.2 := by
  induction items generalizing p with
  | nil => rfl
  | cons e es ihes =>
    have hfirst := ih e List.mem_cons_self p.acquire.1 p.acquire.2
    calc p.performAll (requestsElements (e :: es) p)
        = (p.acquire.2.performAll (e.requests p.acquire.1 p.acquire.2)).performAll
            (requestsElements es (e.assign p.acquire.1 p.acquire.2).2) :=
          performAll_append p.acquire.2 _ _
      _ = (assignElements es (e.assign p.acquire.1 p.acquire.2).2).2.2 := by
          rw [hfirst]
          exact ihes (fun e he => ih e (List.mem_cons_of_mem _ he)) _

/-- The requests of an expression lead to the pool that it leaves. -/
theorem performAll_requests (e : Expr) (r : Nat) (p : Pool) :
    p.performAll (e.requests r p) = (e.assign r p).2 := by
  induction e using Expr.inductionOn generalizing r p with
  | named i name body ih => exact ih r p
  | choice i items ih => exact performAll_alternatives ih r p
  | action i code params body ih | lookahead i negated body ih =>
    refine (performAll_append p.acquire.2 _ _).trans ?_
    rw [performAll_within (ih r _)]
    rfl
  | sequence i items ih =>
    refine (performAll_append p.acquire.2 _ _).trans ?_
    rw [performAll_elements ih, performAll_append, performAll_releases]
    rfl
  | labeled i label body ih =>
    refine (performAll_append p _ _).trans ?_
    rw [performAll_within (ih r _), performAll_binding]
    rfl
  | optional i body ih => exact performAll_within (ih r _)
  | repeated i nonempty body ih =>
    refine (performAll_append p.acquire.2 _ _).trans ?_
    rw [performAll_within (ih p.acquire.1 _)]
    rfl
  | predicate | ruleRef | literal | charClass | any => rfl

/-! ### Marks -/

theorem mem_within {requests : List Request} {request : Request} (h : request ∈ requests)
    (q : Pool) : request ∈ within requests q :=
  List.mem_cons_of_mem _ (List.mem_append_left _ h)

theorem subset_alternatives {items : List Expr} {e : Expr} (he : e ∈ items) (r : Nat) (p : Pool) :
    ∃ q : Pool, e.requests r q ⊆ requestsAlternatives r items p := by
  induction items generalizing p with
  | nil => nomatch he
  | cons first es ih =>
    rcases List.mem_cons.mp he with rfl | he
    · exact ⟨p.openScope, fun _ h => List.mem_append_left _ (mem_within h _)⟩
    · obtain ⟨q, hq⟩ := ih he (first.assign r p.openScope).2.closeScope
      exact ⟨q, fun _ h => List.mem_append_right _ (hq h)⟩

theorem subset_elements {items : List Expr} {e : Expr} (he : e ∈ items) (p : Pool) :
    ∃ (r : Nat) (q : Pool), e.requests r q ⊆ requestsElements items p := by
  induction items generalizing p with
  | nil => nomatch he
  | cons first es ih =>
    rcases List.mem_cons.mp he with rfl | he
    · exact ⟨_, _, fun _ h => List.mem_cons_of_mem _ (List.mem_append_left _ h)⟩
    · obtain ⟨r, q, hq⟩ := ih he (first.assign p.acquire.1 p.acquire.2).2
      exact ⟨r, q, fun _ h => List.mem_cons_of_mem _ (List.mem_append_right _ (hq h))⟩

/-- The requests of an expression have those of its parts among them. -/
theorem subset_requests {e c : Expr} (hc : c ∈ e.children) (r : Nat) (p : Pool) :
    ∃ (s : Nat) (q : Pool), c.requests s q ⊆ e.requests r p := by
  cases e with
  | named i name body =>
    obtain rfl := List.mem_singleton.mp hc
    exact ⟨r, p, fun _ h => List.mem_cons_of_mem _ h⟩
  | choice i items =>
    obtain ⟨q, hq⟩ := subset_alternatives hc r p
    exact ⟨r, q, fun _ h => List.mem_cons_of_mem _ (hq h)⟩
  | sequence i items =>
    obtain ⟨s, q, hq⟩ := subset_elements hc p.acquire.2
    exact ⟨s, q, fun _ h => List.mem_cons_of_mem _ (List.mem_cons_of_mem _
      (List.mem_append_left _ (hq h)))⟩
  | action _ _ _ body | lookahead _ _ body | repeated _ _ body =>
    obtain rfl := List.mem_singleton.mp hc
    exact ⟨_, _, fun _ h => List.mem_cons_of_mem _ (List.mem_cons_of_mem _
      (List.mem_append_left _ (mem_within h _)))⟩
  | labeled i label body =>
    obtain rfl := List.mem_singleton.mp hc
    exact ⟨_, _, fun _ h => List.mem_cons_of_mem _ (List.mem_append_left _ (mem_within h _))⟩
  | optional i body =>
    obtain rfl := List.mem_singleton.mp hc
    exact ⟨_, _, fun _ h => List.mem_cons_of_mem _ (mem_within h _)⟩
  | predicate | ruleRef | literal | charClass | any => nomatch hc

/-- Every expression inside has its mark. -/
theorem exists_compute {e c : Expr} (h : c.Inside e) (r : Nat) (p : Pool) :
    ∃ result, .compute c result ∈ e.requests r p := by
  induction h generalizing r p with
  | self =>
    refine ⟨r, ?_⟩
    cases c <;> exact List.mem_cons_self
  | child hchild _ ih =>
    obtain ⟨s, q, hsubset⟩ := subset_requests hchild r p
    obtain ⟨result, hmem⟩ := ih s q
    exact ⟨result, hsubset hmem⟩

end Expr

/-! ### The most slots held -/

namespace Pool

/-- How many slots are held. -/
def tally (p : Pool) : Nat := p.holders.countP (· != 0)

/-- A new slot is made only if all others are held. -/
theorem tally_perform (p : Pool) (request : Request) :
    (p.perform request).holders.length = p.holders.length ∨
      (p.perform request).tally = (p.perform request).holders.length := by
  cases request with
  | acquire =>
    by_cases hlt : p.holders.findIdx (· == 0) < p.holders.length
    · refine .inl ?_
      rw [perform, Pool.acquire, if_pos hlt, List.length_set]
    · refine .inr ?_
      have hall : ∀ count ∈ p.holders, (count != 0) = true := by
        have hnone := List.findIdx_eq_length.mp
          (Nat.le_antisymm List.findIdx_le_length (Nat.le_of_not_lt hlt))
        intro count hcount
        rw [bne, hnone count hcount, Bool.not_false]
      have hheld := List.countP_eq_length.mpr hall
      rw [perform, Pool.acquire, if_neg hlt, tally, List.countP_append, hheld, List.length_append]
      rfl
  | retain | release => exact .inl (List.length_modify ..)
  | compute | openScope | dropScope => exact .inl rfl
  | point label slot =>
    refine .inl ?_
    unfold perform
    cases p.scopes <;> rfl

theorem length_le_perform (p : Pool) (request : Request) :
    p.holders.length ≤ (p.perform request).holders.length := by
  cases request with
  | acquire => exact p.acquire_spec.2.2.1
  | retain | release => exact Nat.le_of_eq (List.length_modify ..).symm
  | compute | openScope | dropScope => exact Nat.le_refl _
  | point label slot =>
    unfold perform
    cases p.scopes <;> exact Nat.le_refl _

theorem length_le_performAll (p : Pool) (requests : List Request) :
    p.holders.length ≤ (p.performAll requests).holders.length := by
  induction requests generalizing p with
  | nil => exact Nat.le_refl _
  | cons request requests ih => exact Nat.le_trans (p.length_le_perform request) (ih _)

/-- At some time as many slots were held as there are in the end. The induction is on the last
request: either it made no slot, or it found all of them held. -/
theorem exists_tally (requests : List Request) : ∃ before, before <+: requests ∧
    (performAll {} before).tally = (performAll {} requests).holders.length := by
  induction requests using List.reverseRecOn with
  | nil => exact ⟨[], List.prefix_rfl, rfl⟩
  | append_singleton requests request ih =>
    have hlast : performAll {} (requests ++ [request]) = (performAll {} requests).perform request :=
      performAll_append ..
    rcases (performAll {} requests).tally_perform request with hsame | hfull
    · obtain ⟨before, hbefore, htally⟩ := ih
      exact ⟨before, hbefore.trans (List.prefix_append ..), by rw [htally, hlast, hsame]⟩
    · exact ⟨_, List.prefix_rfl, by rw [hlast, hfull]⟩

/-- Slots are made only as needed: in the end there are as many as were held at the same time. -/
theorem isGreatest_tally (requests : List Request) :
    IsGreatest {n | ∃ before, before <+: requests ∧ (performAll {} before).tally = n}
      (performAll {} requests).holders.length := by
  refine ⟨exists_tally requests, ?_⟩
  rintro n ⟨before, ⟨after, rfl⟩, rfl⟩
  rw [performAll_append]
  exact Nat.le_trans List.countP_le_length (length_le_performAll ..)

end Pool

end Packrat
