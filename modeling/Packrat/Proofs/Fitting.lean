import Packrat.Proofs.Adequacy
import Packrat.Proofs.Emission

/-!
# Lowered operations fit

What the statements of an operation rely on, lowering provides: the slots of a rule are those that
its expressions acquired, every code block has its site with a parameter for each label, and every
reference has its rule. The induction follows the assignment of slots, since the number of registers
of a rule is the number of slots that were ever acquired in it.

Code functions are called from statements inside other statements too; `codeCallsAll` lists all of
these calls, and none of them is with more or fewer arguments than the function has parameters.

## Main results

* `Expr.fitting`: the operation of every expression fits
* `Grammar.fitsRules_of_lower`: so do the rules of a lowered grammar
* `Emit.functionBody_accepted`: functions call code functions as those take them
-/

namespace Packrat

open Emit

namespace Expr

section

variable {names : List String} {program : Program} {count : Nat} {owned : List Nat} {p : Pool}

/-- An expression whose operation fits, as long as it gets its slots from a pool. -/
def Fitting (names : List String) (program : Program) (count : Nat) (e : Expr) : Prop :=
  ∀ {owned : List Nat} {r : Nat} {p : Pool} {sites sites' : Array CodeSite} {o : Op},
    p.Accounts owned → r ∈ owned → (e.assign r p).1.lower names sites = .ok (o, sites') →
      Extends sites' program.code → (e.assign r p).2.holders.length ≤ count → Fits program count o

variable {items : List Expr} {sites sites' : Array CodeSite} {os : List Op}

theorem fitsAll_alternatives (ih : ∀ e ∈ items, Fitting names program count e) {r : Nat}
    (h : p.Accounts owned) (hr : r ∈ owned)
    (hlower : lowerAll names (assignAlternatives r items p).1 sites = .ok (os, sites'))
    (hsites : Extends sites' program.code)
    (hcount : (assignAlternatives r items p).2.holders.length ≤ count) :
    FitsAll program count os := by
  induction items generalizing p sites os with
  | nil =>
    obtain ⟨rfl, -⟩ := lowerAll_nil.mp hlower
    exact trivial
  | cons e es ihes =>
    obtain ⟨b, inner, bs, hb, hbs, rfl⟩ := lowerAll_cons.mp hlower
    have hclosed := (e.assign_keeps h.openScope hr).closeScope h.opened
    have hrest := alternatives_keep es hclosed.accounts hr
    have hinner := (extends_of_lowerAll hbs).trans hsites
    have hcount' : (e.assign r p.openScope).2.holders.length ≤ count := by
      rw [← Pool.length_closeScope]
      exact Nat.le_trans hrest.1.grows hcount
    exact ⟨ih e List.mem_cons_self h.openScope hr hb hinner hcount',
      ihes (fun e he => ih e (List.mem_cons_of_mem _ he)) hclosed.accounts hbs hcount⟩

theorem fitsAll_elements (ih : ∀ e ∈ items, Fitting names program count e) (h : p.Accounts owned)
    (hlower : lowerAll names (assignElements items p).1 sites = .ok (os, sites'))
    (hsites : Extends sites' program.code)
    (hcount : (assignElements items p).2.2.holders.length ≤ count) : FitsAll program count os := by
  induction items generalizing owned p sites os with
  | nil =>
    obtain ⟨rfl, -⟩ := lowerAll_nil.mp hlower
    exact trivial
  | cons e es ihes =>
    obtain ⟨b, inner, bs, hb, hbs, rfl⟩ := lowerAll_cons.mp hlower
    have hfirst := e.assign_keeps h.acquire List.mem_cons_self
    have hrest := elements_keep es hfirst.accounts
    have hinner := (extends_of_lowerAll hbs).trans hsites
    exact ⟨ih e List.mem_cons_self h.acquire List.mem_cons_self hb hinner
        (Nat.le_trans hrest.grows hcount),
      ihes (fun e he => ih e (List.mem_cons_of_mem _ he)) hfirst.accounts hbs hcount⟩

/-- A code block is called with the slots of the labels in view, and its function has a parameter
for each of them. -/
theorem accepts_site {kind : CodeKind} {code : String} {params : Params}
    (h : program.code[sites.size]? = some ⟨kind, code, params.map Prod.fst⟩) :
    Accepts program kind ⟨sites.size, params.map Prod.snd⟩ := by
  refine ⟨_, h, rfl, ?_⟩
  simp [parameters]

/-- The operation of every expression fits. -/
theorem fitting (hnames : names.length ≤ program.rules.size) (e : Expr) :
    Fitting names program count e := by
  induction e using Expr.inductionOn with
  | named i name body ih =>
    intro owned r p sites sites' o h hr hlower hsites hcount
    obtain ⟨_, b, -, hb, rfl⟩ := lower_named.mp hlower
    show Fits program count b
    exact ih h hr hb hsites hcount
  | choice i items ih =>
    intro owned r p sites sites' o h hr hlower hsites hcount
    obtain ⟨_, bs, hres, hbs, rfl⟩ := lower_choice.mp hlower
    obtain rfl := Option.some.inj hres
    have hlt := (choice i items).lt_of_assign h hr hcount
    exact ⟨hlt, fitsAll_alternatives ih h hr hbs hsites hcount⟩
  | action i code params body ih =>
    intro owned r p sites sites' o h hr hlower hsites hcount
    obtain ⟨_, place, b, inner, hres, -, hb, rfl, rfl⟩ := lower_action.mp hlower
    obtain rfl := Option.some.inj hres
    have hlt := (action i code params body).lt_of_assign h hr hcount
    have hcount' : (body.assign r p.acquire.2.openScope).2.holders.length ≤ count :=
      Pool.length_le_of_released hcount
    exact ⟨hlt, accepts_site hsites.last, ih h.acquire.openScope (List.mem_cons_of_mem _ hr) hb
      ((Extends.push _ _).trans hsites) hcount'⟩
  | sequence i items ih =>
    intro owned r p sites sites' o h hr hlower hsites hcount
    obtain ⟨_, place, bs, -, -, hbs, rfl⟩ := lower_sequence.mp hlower
    refine fitsAll_elements ih h.acquire hbs hsites ?_
    rw [← Pool.length_releaseAll, ← Pool.length_release]
    exact hcount
  | labeled i label body ih =>
    intro owned r p sites sites' o h hr hlower hsites hcount
    have hcount' : (body.assign r p.openScope).2.holders.length ≤ count := by
      rw [← Pool.length_closeScope, ← Pool.length_bindLabel]
      exact hcount
    exact ih h.openScope hr (lower_labeled.mp hlower).2 hsites hcount'
  | lookahead i negated body ih =>
    intro owned r p sites sites' o h hr hlower hsites hcount
    obtain ⟨_, place, b, -, -, hb, rfl⟩ := lower_lookahead.mp hlower
    have hcount' : (body.assign r p.acquire.2.openScope).2.holders.length ≤ count :=
      Pool.length_le_of_released hcount
    show Fits program count b
    exact ih h.acquire.openScope (List.mem_cons_of_mem _ hr) hb hsites hcount'
  | optional i body ih =>
    intro owned r p sites sites' o h hr hlower hsites hcount
    obtain ⟨_, b, -, hb, rfl⟩ := lower_optional.mp hlower
    have hcount' : (body.assign r p.openScope).2.holders.length ≤ count := by
      rw [← Pool.length_closeScope]
      exact hcount
    show Fits program count b
    exact ih h.openScope hr hb hsites hcount'
  | repeated i nonempty body ih =>
    intro owned r p sites sites' o h hr hlower hsites hcount
    obtain ⟨_, b, -, hb, rfl⟩ := lower_repeated.mp hlower
    have hcount' : (body.assign p.acquire.1 p.acquire.2.openScope).2.holders.length ≤ count :=
      Pool.length_le_of_released hcount
    show Fits program count b
    exact ih h.acquire.openScope List.mem_cons_self hb hsites hcount'
  | predicate i negated code params =>
    intro owned r p sites sites' o h hr hlower hsites hcount
    obtain ⟨_, -, rfl, rfl⟩ := lower_predicate.mp hlower
    exact accepts_site hsites.last
  | ruleRef i name =>
    intro owned r p sites sites' o h hr hlower hsites hcount
    obtain ⟨_, rule, -, hrule, rfl, -⟩ := lower_ruleRef.mp hlower
    exact Nat.lt_of_lt_of_le (List.findIdx?_eq_some_iff_findIdx_eq.mp hrule).1 hnames
  | literal i value ignoreCase =>
    intro owned r p sites sites' o h hr hlower hsites hcount
    obtain ⟨_, -, rfl, -⟩ := lower_literal.mp hlower
    exact trivial
  | charClass i members raw =>
    intro owned r p sites sites' o h hr hlower hsites hcount
    obtain ⟨_, -, rfl, -⟩ := lower_charClass.mp hlower
    exact trivial
  | any i =>
    intro owned r p sites sites' o h hr hlower hsites hcount
    obtain ⟨_, -, rfl, -⟩ := lower_any.mp hlower
    exact trivial

end

end Expr

/-- Every rule has the registers that its operation needs. -/
def Emit.FitsRules (program : Program) : Prop :=
  ∀ (i : Nat) (r : RuleProgram), program.rules[i]? = some r → Fits program r.registers r.body

/-- The rules of a lowered grammar fit into the registers that they ask for. -/
theorem Grammar.fitsRules_of_lower {g : Grammar} {program : Program}
    (hlower : g.assignSlots.lower = .ok program) : FitsRules program := by
  intro i r hr
  have hlength : g.ruleNames.length ≤ program.rules.size := by
    obtain ⟨rs, code, start, hrs, -, rfl⟩ := lower_eq_ok_iff.mp hlower
    rw [← ruleNames_assignSlots, ruleNames, ← names_of_lowerRules hrs, List.length_map]
    exact Nat.le_refl _
  obtain ⟨rule, sites, sites', -, hb, hsites, heq⟩ := exists_rule_of_lower hlower hr
  rw [heq]
  exact Expr.fitting hlength rule.body Pool.accounts_root List.mem_cons_self hb hsites
    (Nat.le_of_eq rule.registers_assign.symm)

namespace Emit

/-! ### Arguments and parameters -/

mutual
/-- The calls of code functions in a statement. -/
def Stmt.codeCalls : Stmt → List (CodeKind × CodeCall)
  | .runAction call => [(.action, call)]
  | .runPredicate call => [(.predicate, call)]
  | .ifMatch _ yes no | .ifRefused yes no => codeCallsAll yes ++ codeCallsAll no
  | .unlessMatch _ body | .onMatch _ body | .block _ body | .loop body => codeCallsAll body
  | _ => []

/-- The calls of code functions in several statements. -/
def codeCallsAll : List Stmt → List (CodeKind × CodeCall)
  | [] => []
  | s :: ss => s.codeCalls ++ codeCallsAll ss
end

@[simp] theorem codeCallsAll_append (ss ss' : List Stmt) :
    codeCallsAll (ss ++ ss') = codeCallsAll ss ++ codeCallsAll ss' := by
  induction ss with
  | nil => rfl
  | cons s ss ih => simp [codeCallsAll, ih]

/-- All calls of code functions are as the functions take them. -/
def Accepted (program : Program) (ss : List Stmt) : Prop :=
  ∀ call ∈ codeCallsAll ss, Accepts program call.1 call.2

section

variable {program : Program} {count : Nat} {functions : Array String} {ss ss' : List Stmt}

@[simp] theorem accepted_nil : Accepted program [] := nofun

@[simp] theorem accepted_cons {s : Stmt} : Accepted program (s :: ss) ↔
    (∀ call ∈ s.codeCalls, Accepts program call.1 call.2) ∧ Accepted program ss := by
  simp only [Accepted, codeCallsAll, List.mem_append, or_imp, forall_and]

@[simp] theorem accepted_append :
    Accepted program (ss ++ ss') ↔ Accepted program ss ∧ Accepted program ss' := by
  simp only [Accepted, codeCallsAll_append, List.mem_append, or_imp, forall_and]

theorem choiceStatements_accepted {items : List Op} (label : Label) (result : Nat)
    (ih : ∀ o ∈ items, ∀ n, Accepted program (statements functions o n).1) (n : Nat) :
    Accepted program (choiceStatements functions label result items n).1 := by
  induction items generalizing n with
  | nil => exact accepted_nil
  | cons o os ihos =>
    have hfirst := ih o List.mem_cons_self n
    have hleave : Accepted program (leaveChoice label result os.isEmpty) := by
      cases os <;> simp [leaveChoice, codeCallsAll, Stmt.codeCalls]
    have hrest := ihos (fun o ho => ih o (List.mem_cons_of_mem _ ho)) (statements functions o n).2
    exact accepted_append.mpr ⟨accepted_append.mpr ⟨hfirst, hleave⟩, hrest⟩

theorem sequenceStatements_accepted {items : List Op} {giveUp : List Stmt}
    (hgiveUp : Accepted program giveUp)
    (ih : ∀ o ∈ items, ∀ n, Accepted program (statements functions o n).1) (n : Nat) :
    Accepted program (sequenceStatements functions giveUp items n).1 := by
  induction items generalizing n with
  | nil => exact accepted_nil
  | cons o os ihos =>
    have hfirst := ih o List.mem_cons_self n
    have hrest := ihos (fun o ho => ih o (List.mem_cons_of_mem _ ho)) (statements functions o n).2
    exact accepted_append.mpr ⟨hfirst, accepted_cons.mpr ⟨hgiveUp, hrest⟩⟩

/-- The statements of an operation call code functions as those take them. -/
theorem statements_accepted (o : Op) (ho : Fits program count o) (n : Nat) :
    Accepted program (statements functions o n).1 := by
  induction o using Op.inductionOn generalizing n with
  | named result description body ih =>
    have hbody := ih ho n
    simp [statements, Stmt.codeCalls, codeCallsAll, hbody]
  | choice result items ih =>
    have hitems := fitsAll_iff.mp ho.2
    have h := choiceStatements_accepted (.choice n) result
      (fun o hmem => ih o hmem (hitems o hmem)) (n + 1)
    exact accepted_cons.mpr ⟨h, accepted_nil⟩
  | action result place site slots body ih =>
    have hbody := ih ho.2.2 n
    simp [statements, Stmt.codeCalls, codeCallsAll, hbody, ho.2.1]
  | sequence result place items ih =>
    have hitems := fitsAll_iff.mp ho
    have hgiveUp : Accepted program
        [.set result .noMatch, .restorePlace place, .leave (.sequence n)] := by
      simp [Stmt.codeCalls]
    have helements := sequenceStatements_accepted hgiveUp
      (fun o hmem => ih o hmem (hitems o hmem)) (n + 1)
    have hgather : Accepted program [.gather (items.map Op.result), .set result .elements] := by
      simp [Stmt.codeCalls]
    refine accepted_cons.mpr ⟨List.forall_mem_nil _, accepted_cons.mpr ⟨?_, accepted_nil⟩⟩
    exact accepted_append.mpr ⟨helements, hgather⟩
  | lookahead result place negated body ih =>
    have hbody := ih ho n
    simp [statements, Stmt.codeCalls, codeCallsAll, hbody]
  | predicate result negated site slots =>
    have haccepts : Accepts program .predicate ⟨site, slots⟩ := ho
    simp [statements, Stmt.codeCalls, haccepts]
  | optional result body ih =>
    have hbody := ih ho n
    simp [statements, Stmt.codeCalls, codeCallsAll, hbody]
  | repeated result nonempty body ih =>
    have hbody := ih ho (n + 1)
    have hpass : Accepted program (.markOffset n :: (statements functions body (n + 1)).1 ++
        [.takeItem body.result n, .stopUnlessMoved n]) := by
      simp [Stmt.codeCalls, hbody]
    exact accepted_cons.mpr ⟨List.forall_mem_nil _, accepted_cons.mpr ⟨hpass,
      accepted_cons.mpr ⟨List.forall_mem_nil _, accepted_nil⟩⟩⟩
  | call result rule => simp [statements, Stmt.codeCalls]
  | literal result value ignoreCase description => simp [statements, Stmt.codeCalls]
  | charClass result members description => simp [statements, Stmt.codeCalls]
  | any result => simp [statements, Stmt.codeCalls]

/-- So do whole functions. -/
theorem functionBody_accepted {r : RuleProgram} (hr : Fits program r.registers r.body)
    (options : Options) (i : Nat) : Accepted program (functionBody options functions i r) := by
  have hbody : Accepted program (statements functions r.body 1).1 := statements_accepted r.body hr 1
  cases hcache : options.cache <;> simp [functionBody, hcache, Stmt.codeCalls, hbody]

end

end Emit

end Packrat
