import Packrat.Proofs.Building
import Packrat.Proofs.Simulation

/-!
# What lowering does

Each form of expression is lowered in one way, or not at all; the lemmas `lower_named` to
`lower_any` say when and to what, and nothing below them looks at the steps of `Expr.lower`.

## Main results

* `lower_rename`: renaming references renumbers calls
-/

namespace Packrat

theorem assigned?_eq_ok_iff {slot : Option Nat} {n : Nat} :
    assigned? slot = .ok n ↔ slot = some n := by
  cases slot <;> simp [assigned?]

namespace Expr

/-! ### One lemma for each form -/

section

variable {α : Type} {slot place? : Option Nat} {x : Except Fault (α × Array CodeSite)}
  {sites sites' : Array CodeSite} {o : Op}

/-- An operation of its own needs its slot only. -/
theorem lower_leaf {f : Nat → Op} :
    (do let r ← assigned? slot; return (f r, sites)) = .ok (o, sites') ↔
      ∃ r, slot = some r ∧ o = f r ∧ sites' = sites := by
  simp only [bind_eq_ok_iff, assigned?_eq_ok_iff]
  constructor
  · rintro ⟨r, hr, heq⟩
    obtain ⟨rfl, rfl⟩ := Prod.mk.inj (Except.ok.inj heq)
    exact ⟨r, hr, rfl, rfl⟩
  · rintro ⟨r, hr, rfl, rfl⟩
    exact ⟨r, hr, rfl⟩

/-- An operation around others needs its slot, and that they are lowered. -/
theorem lower_around {f : Nat → α → Op} :
    (do let r ← assigned? slot; let (a, sites) ← x; return (f r a, sites)) = .ok (o, sites') ↔
      ∃ r a, slot = some r ∧ x = .ok (a, sites') ∧ o = f r a := by
  simp only [bind_eq_ok_iff, assigned?_eq_ok_iff]
  constructor
  · rintro ⟨r, hr, ⟨a, s⟩, ha, heq⟩
    obtain ⟨rfl, rfl⟩ := Prod.mk.inj (Except.ok.inj heq)
    exact ⟨r, a, hr, ha, rfl⟩
  · rintro ⟨r, a, hr, ha, rfl⟩
    exact ⟨r, hr, (a, sites'), ha, rfl⟩

/-- An operation around others that keeps a place needs a slot for it besides. -/
theorem lower_around_place {f : Nat → Nat → α → Op} :
    (do
      let r ← assigned? slot
      let place ← assigned? place?
      let (a, sites) ← x
      return (f r place a, sites)) = .ok (o, sites') ↔
      ∃ r place a, slot = some r ∧ place? = some place ∧ x = .ok (a, sites') ∧ o = f r place a := by
  rw [bind_eq_ok_iff]
  simp only [assigned?_eq_ok_iff, lower_around]
  constructor
  · rintro ⟨r, hr, place, a, h⟩
    exact ⟨r, place, a, hr, h⟩
  · rintro ⟨r, place, a, hr, h⟩
    exact ⟨r, hr, place, a, h⟩

/-- The first of a list is lowered in front of the others. -/
theorem lower_both {β γ : Type} {y : Array CodeSite → Except Fault (β × Array CodeSite)}
    {f : α → β → γ} {c : γ} :
    (do let (a, sites) ← x; let (b, sites) ← y sites; return (f a b, sites)) = .ok (c, sites') ↔
      ∃ a inner b, x = .ok (a, inner) ∧ y inner = .ok (b, sites') ∧ c = f a b := by
  simp only [bind_eq_ok_iff]
  constructor
  · rintro ⟨⟨a, s⟩, ha, ⟨b, s'⟩, hb, heq⟩
    obtain ⟨rfl, rfl⟩ := Prod.mk.inj (Except.ok.inj heq)
    exact ⟨a, s, b, ha, hb, rfl⟩
  · rintro ⟨a, s, b, ha, hb, rfl⟩
    exact ⟨(a, s), ha, (b, sites'), hb, rfl⟩

end

section

variable {names : List String} {sites sites' : Array CodeSite} {o : Op} {os : List Op} {i : Info}
  {body e : Expr} {items es : List Expr}

theorem lower_named {name : String} :
    (named i name body).lower names sites = .ok (o, sites') ↔ ∃ r b, i.result = some r ∧
      body.lower names sites = .ok (b, sites') ∧ o = .named r name b := by
  rw [lower]
  exact lower_around

theorem lower_choice :
    (choice i items).lower names sites = .ok (o, sites') ↔ ∃ r bs, i.result = some r ∧
      lowerAll names items sites = .ok (bs, sites') ∧ o = .choice r bs := by
  rw [lower]
  exact lower_around

theorem lower_action {code : String} {params : Params} :
    (action i code params body).lower names sites = .ok (o, sites') ↔ ∃ r place b inner,
      i.result = some r ∧ i.place = some place ∧ body.lower names sites = .ok (b, inner) ∧
        o = .action r place inner.size (params.map Prod.snd) b ∧
          sites' = inner.push ⟨.action, code, params.map Prod.fst⟩ := by
  simp only [lower, bind_eq_ok_iff, assigned?_eq_ok_iff, addSite]
  constructor
  · rintro ⟨r, hr, ⟨b, s⟩, hb, place, hplace, heq⟩
    obtain ⟨rfl, rfl⟩ := Prod.mk.inj (Except.ok.inj heq)
    exact ⟨r, place, b, s, hr, hplace, hb, rfl, rfl⟩
  · rintro ⟨r, place, b, s, hr, hplace, hb, rfl, rfl⟩
    exact ⟨r, hr, (b, s), hb, place, hplace, rfl⟩

theorem lower_sequence :
    (sequence i items).lower names sites = .ok (o, sites') ↔ ∃ r place bs, i.result = some r ∧
      i.place = some place ∧ lowerAll names items sites = .ok (bs, sites') ∧
        o = .sequence r place bs := by
  rw [lower]
  exact lower_around_place

theorem lower_labeled {label : String} :
    (labeled i label body).lower names sites = .ok (o, sites') ↔
      i.result.isSome ∧ body.lower names sites = .ok (o, sites') := by
  simp only [lower, bind_eq_ok_iff, assigned?_eq_ok_iff, Option.isSome_iff_exists]
  constructor
  · rintro ⟨r, hr, hb⟩
    exact ⟨⟨r, hr⟩, hb⟩
  · rintro ⟨⟨r, hr⟩, hb⟩
    exact ⟨r, hr, hb⟩

theorem lower_lookahead {negated : Bool} :
    (lookahead i negated body).lower names sites = .ok (o, sites') ↔ ∃ r place b,
      i.result = some r ∧ i.place = some place ∧ body.lower names sites = .ok (b, sites') ∧
        o = .lookahead r place negated b := by
  rw [lower]
  exact lower_around_place

theorem lower_predicate {negated : Bool} {code : String} {params : Params} :
    (predicate i negated code params).lower names sites = .ok (o, sites') ↔ ∃ r,
      i.result = some r ∧ o = .predicate r negated sites.size (params.map Prod.snd) ∧
        sites' = sites.push ⟨.predicate, code, params.map Prod.fst⟩ := by
  rw [lower]
  exact lower_leaf

theorem lower_optional :
    (optional i body).lower names sites = .ok (o, sites') ↔ ∃ r b, i.result = some r ∧
      body.lower names sites = .ok (b, sites') ∧ o = .optional r b := by
  rw [lower]
  exact lower_around

theorem lower_repeated {nonempty : Bool} :
    (repeated i nonempty body).lower names sites = .ok (o, sites') ↔ ∃ r b, i.result = some r ∧
      body.lower names sites = .ok (b, sites') ∧ o = .repeated r nonempty b := by
  rw [lower]
  exact lower_around

theorem lower_ruleRef {name : String} :
    (ruleRef i name).lower names sites = .ok (o, sites') ↔ ∃ r rule, i.result = some r ∧
      names.findIdx? (· == name) = some rule ∧ o = .call r rule ∧ sites' = sites := by
  simp only [lower, bind_eq_ok_iff, assigned?_eq_ok_iff]
  constructor
  · rintro ⟨r, hr, heq⟩
    split at heq
    · next rule hrule =>
      obtain ⟨rfl, rfl⟩ := Prod.mk.inj (Except.ok.inj heq)
      exact ⟨r, rule, hr, hrule, rfl, rfl⟩
    · cases heq
  · rintro ⟨r, rule, hr, hrule, rfl, rfl⟩
    exact ⟨r, hr, by rw [hrule]; rfl⟩

theorem lower_literal {value : String} {ignoreCase : Bool} :
    (literal i value ignoreCase).lower names sites = .ok (o, sites') ↔ ∃ r, i.result = some r ∧
      o = .literal r value ignoreCase (Text.quote value) ∧ sites' = sites := by
  rw [lower]
  exact lower_leaf

theorem lower_charClass {members : CharClass} {raw : String} :
    (charClass i members raw).lower names sites = .ok (o, sites') ↔ ∃ r, i.result = some r ∧
      o = .charClass r members raw ∧ sites' = sites := by
  rw [lower]
  exact lower_leaf

theorem lower_any :
    (any i).lower names sites = .ok (o, sites') ↔ ∃ r, i.result = some r ∧ o = .any r ∧
      sites' = sites := by
  rw [lower]
  exact lower_leaf

theorem lowerAll_nil :
    lowerAll names [] sites = .ok (os, sites') ↔ os = [] ∧ sites' = sites := by
  rw [lowerAll]
  constructor
  · intro heq
    obtain ⟨rfl, rfl⟩ := Prod.mk.inj (Except.ok.inj heq)
    exact ⟨rfl, rfl⟩
  · rintro ⟨rfl, rfl⟩
    rfl

theorem lowerAll_cons :
    lowerAll names (e :: es) sites = .ok (os, sites') ↔ ∃ b inner bs,
      e.lower names sites = .ok (b, inner) ∧ lowerAll names es inner = .ok (bs, sites') ∧
        os = b :: bs := by
  rw [lowerAll]
  exact lower_both

end

/-! ### Other names for the rules -/

section

variable {names names' : List String} {f : String → String} {ρ : Nat → Nat}

theorem lowerAll_rename {items : List Expr}
    (ih : ∀ e ∈ items, ∀ {sites sites' : Array CodeSite} {o : Op},
      e.lower names sites = .ok (o, sites') →
        (e.rename f).lower names' sites = .ok (o.renumber ρ, sites'))
    {sites sites' : Array CodeSite} {os : List Op}
    (h : lowerAll names items sites = .ok (os, sites')) :
    lowerAll names' (renameAll f items) sites = .ok (os.map (Op.renumber ρ), sites') := by
  induction items generalizing sites os with
  | nil =>
    obtain ⟨rfl, rfl⟩ := lowerAll_nil.mp h
    exact lowerAll_nil.mpr ⟨rfl, rfl⟩
  | cons e es ihes =>
    obtain ⟨b, inner, bs, hb, hbs, rfl⟩ := lowerAll_cons.mp h
    rw [renameAll, lowerAll_cons]
    exact ⟨b.renumber ρ, inner, bs.map (Op.renumber ρ), ih e List.mem_cons_self hb,
      ihes (fun e he => ih e (List.mem_cons_of_mem _ he)) hbs, rfl⟩

/-- Renaming the references of an expression renumbers the calls of its operation. -/
theorem lower_rename
    (hρ : ∀ name rule, names.findIdx? (· == name) = some rule →
      names'.findIdx? (· == f name) = some (ρ rule))
    (e : Expr) {sites sites' : Array CodeSite} {o : Op}
    (h : e.lower names sites = .ok (o, sites')) :
    (e.rename f).lower names' sites = .ok (o.renumber ρ, sites') := by
  induction e using Expr.inductionOn generalizing sites sites' o with
  | named i name body ih =>
    obtain ⟨r, b, hr, hb, rfl⟩ := lower_named.mp h
    exact lower_named.mpr ⟨r, b.renumber ρ, hr, ih hb, by rw [Op.renumber]⟩
  | choice i items ih =>
    obtain ⟨r, bs, hr, hbs, rfl⟩ := lower_choice.mp h
    rw [rename, lower_choice]
    exact ⟨r, bs.map (Op.renumber ρ), hr, lowerAll_rename ih hbs, by rw [Op.renumber]⟩
  | action i code params body ih =>
    obtain ⟨r, place, b, inner, hr, hplace, hb, rfl, rfl⟩ := lower_action.mp h
    exact lower_action.mpr
      ⟨r, place, b.renumber ρ, inner, hr, hplace, ih hb, by rw [Op.renumber], rfl⟩
  | sequence i items ih =>
    obtain ⟨r, place, bs, hr, hplace, hbs, rfl⟩ := lower_sequence.mp h
    rw [rename, lower_sequence]
    exact ⟨r, place, bs.map (Op.renumber ρ), hr, hplace, lowerAll_rename ih hbs,
      by rw [Op.renumber]⟩
  | labeled i label body ih =>
    obtain ⟨hr, hb⟩ := lower_labeled.mp h
    exact lower_labeled.mpr ⟨hr, ih hb⟩
  | lookahead i negated body ih =>
    obtain ⟨r, place, b, hr, hplace, hb, rfl⟩ := lower_lookahead.mp h
    exact lower_lookahead.mpr ⟨r, place, b.renumber ρ, hr, hplace, ih hb, by rw [Op.renumber]⟩
  | predicate i negated code params =>
    obtain ⟨r, hr, rfl, rfl⟩ := lower_predicate.mp h
    exact lower_predicate.mpr ⟨r, hr, by rw [Op.renumber], rfl⟩
  | optional i body ih =>
    obtain ⟨r, b, hr, hb, rfl⟩ := lower_optional.mp h
    exact lower_optional.mpr ⟨r, b.renumber ρ, hr, ih hb, by rw [Op.renumber]⟩
  | repeated i nonempty body ih =>
    obtain ⟨r, b, hr, hb, rfl⟩ := lower_repeated.mp h
    exact lower_repeated.mpr ⟨r, b.renumber ρ, hr, ih hb, by rw [Op.renumber]⟩
  | ruleRef i name =>
    obtain ⟨r, rule, hr, hrule, rfl, rfl⟩ := lower_ruleRef.mp h
    exact lower_ruleRef.mpr ⟨r, ρ rule, hr, hρ name rule hrule, by rw [Op.renumber], rfl⟩
  | literal i value ignoreCase =>
    obtain ⟨r, hr, rfl, rfl⟩ := lower_literal.mp h
    exact lower_literal.mpr ⟨r, hr, by rw [Op.renumber], rfl⟩
  | charClass i members raw =>
    obtain ⟨r, hr, rfl, rfl⟩ := lower_charClass.mp h
    exact lower_charClass.mpr ⟨r, hr, by rw [Op.renumber], rfl⟩
  | any i =>
    obtain ⟨r, hr, rfl, rfl⟩ := lower_any.mp h
    exact lower_any.mpr ⟨r, hr, by rw [Op.renumber], rfl⟩

end

end Expr

namespace Expr

/-! ### Slots and names -/

theorem assignAlternatives_rename {f : String → String} {items : List Expr}
    (ih : ∀ e ∈ items, ∀ (result : Nat) (p : Pool),
      (e.rename f).assign result p = ((e.assign result p).1.rename f, (e.assign result p).2))
    (result : Nat) (p : Pool) :
    assignAlternatives result (renameAll f items) p =
      (renameAll f (assignAlternatives result items p).1,
        (assignAlternatives result items p).2) := by
  induction items generalizing p with
  | nil => rfl
  | cons e es ihes =>
    simp only [renameAll, assignAlternatives, ih e List.mem_cons_self,
      ihes fun e he => ih e (List.mem_cons_of_mem _ he)]

theorem assignElements_rename {f : String → String} {items : List Expr}
    (ih : ∀ e ∈ items, ∀ (result : Nat) (p : Pool),
      (e.rename f).assign result p = ((e.assign result p).1.rename f, (e.assign result p).2))
    (p : Pool) :
    assignElements (renameAll f items) p =
      (renameAll f (assignElements items p).1, (assignElements items p).2) := by
  induction items generalizing p with
  | nil => rfl
  | cons e es ihes =>
    simp only [renameAll, assignElements, ih e List.mem_cons_self,
      ihes fun e he => ih e (List.mem_cons_of_mem _ he)]

/-- Slots do not depend on the names of rules. -/
theorem assign_rename (f : String → String) (e : Expr) (result : Nat) (p : Pool) :
    (e.rename f).assign result p = ((e.assign result p).1.rename f, (e.assign result p).2) := by
  induction e using Expr.inductionOn generalizing result p with
  | choice i items ih => simp only [rename, assign, assignAlternatives_rename ih]
  | sequence i items ih => simp only [rename, assign, assignElements_rename ih]
  | named _ _ _ ih | action _ _ _ _ ih | labeled _ _ _ ih | lookahead _ _ _ ih | optional _ _ ih
  | repeated _ _ _ ih => simp only [rename, assign, ih]
  | _ => rfl

/-! ### What can be lowered -/

theorem exists_lowerAll_alternatives {names : List String} {items : List Expr}
    (ih : ∀ e ∈ items, ∀ (result : Nat) (p : Pool) (sites : Array CodeSite), ∃ o sites',
      (e.assign result p).1.lower names sites = .ok (o, sites'))
    (result : Nat) (p : Pool) (sites : Array CodeSite) : ∃ os sites',
      lowerAll names (assignAlternatives result items p).1 sites = .ok (os, sites') := by
  induction items generalizing p sites with
  | nil => exact ⟨_, _, rfl⟩
  | cons e es ihes =>
    obtain ⟨b, inner, hb⟩ := ih e List.mem_cons_self result p.openScope sites
    obtain ⟨bs, sites', hbs⟩ := ihes (fun e he => ih e (List.mem_cons_of_mem _ he))
      (e.assign result p.openScope).2.closeScope inner
    rw [assignAlternatives]
    exact ⟨_, _, lowerAll_cons.mpr ⟨b, inner, bs, hb, hbs, rfl⟩⟩

theorem exists_lowerAll_elements {names : List String} {items : List Expr}
    (ih : ∀ e ∈ items, ∀ (result : Nat) (p : Pool) (sites : Array CodeSite), ∃ o sites',
      (e.assign result p).1.lower names sites = .ok (o, sites'))
    (p : Pool) (sites : Array CodeSite) : ∃ os sites',
      lowerAll names (assignElements items p).1 sites = .ok (os, sites') := by
  induction items generalizing p sites with
  | nil => exact ⟨_, _, rfl⟩
  | cons e es ihes =>
    obtain ⟨b, inner, hb⟩ := ih e List.mem_cons_self p.acquire.1 p.acquire.2 sites
    obtain ⟨bs, sites', hbs⟩ := ihes (fun e he => ih e (List.mem_cons_of_mem _ he))
      (e.assign p.acquire.1 p.acquire.2).2 inner
    rw [assignElements]
    exact ⟨_, _, lowerAll_cons.mpr ⟨b, inner, bs, hb, hbs, rfl⟩⟩

/-- An expression that has its slots and refers to known rules can be lowered. -/
theorem exists_lower_assign {names : List String} (e : Expr)
    (href : ∀ r ∈ e.references, r.name ∈ names) (result : Nat) (p : Pool)
    (sites : Array CodeSite) :
    ∃ o sites', (e.assign result p).1.lower names sites = .ok (o, sites') := by
  induction e using Expr.inductionOn generalizing result p sites with
  | named i name body ih =>
    obtain ⟨b, s, hb⟩ := ih href result p sites
    exact ⟨_, _, lower_named.mpr ⟨result, b, rfl, hb, rfl⟩⟩
  | choice i items ih =>
    rw [references, referencesAll_eq_flatMap] at href
    obtain ⟨bs, s, hbs⟩ := exists_lowerAll_alternatives (fun e he => ih e he fun r hr =>
      href r (List.mem_flatMap.mpr ⟨e, he, hr⟩)) result p sites
    exact ⟨_, _, lower_choice.mpr ⟨result, bs, rfl, hbs, rfl⟩⟩
  | action i code params body ih =>
    obtain ⟨b, s, hb⟩ := ih href result p.acquire.2.openScope sites
    exact ⟨_, _, lower_action.mpr ⟨result, p.acquire.1, b, s, rfl, rfl, hb, rfl, rfl⟩⟩
  | sequence i items ih =>
    rw [references, referencesAll_eq_flatMap] at href
    obtain ⟨bs, s, hbs⟩ := exists_lowerAll_elements (fun e he => ih e he fun r hr =>
      href r (List.mem_flatMap.mpr ⟨e, he, hr⟩)) p.acquire.2 sites
    exact ⟨_, _, lower_sequence.mpr ⟨result, p.acquire.1, bs, rfl, rfl, hbs, rfl⟩⟩
  | labeled i label body ih =>
    obtain ⟨b, s, hb⟩ := ih href result p.openScope sites
    exact ⟨b, s, lower_labeled.mpr ⟨rfl, hb⟩⟩
  | lookahead i negated body ih =>
    obtain ⟨b, s, hb⟩ := ih href result p.acquire.2.openScope sites
    exact ⟨_, _, lower_lookahead.mpr ⟨result, p.acquire.1, b, rfl, rfl, hb, rfl⟩⟩
  | predicate i negated code params => exact ⟨_, _, lower_predicate.mpr ⟨result, rfl, rfl, rfl⟩⟩
  | optional i body ih =>
    obtain ⟨b, s, hb⟩ := ih href result p.openScope sites
    exact ⟨_, _, lower_optional.mpr ⟨result, b, rfl, hb, rfl⟩⟩
  | repeated i nonempty body ih =>
    obtain ⟨b, s, hb⟩ := ih href p.acquire.1 p.acquire.2.openScope sites
    exact ⟨_, _, lower_repeated.mpr ⟨result, b, rfl, hb, rfl⟩⟩
  | ruleRef i name =>
    have hname : name ∈ names := href ⟨name, i.span⟩ (List.mem_singleton.mpr rfl)
    obtain ⟨rule, hrule⟩ : ∃ rule, names.findIdx? (· == name) = some rule := by
      rw [← Option.isSome_iff_exists, List.findIdx?_isSome]
      exact List.any_eq_true.mpr ⟨name, hname, beq_self_eq_true name⟩
    exact ⟨_, _, lower_ruleRef.mpr ⟨result, rule, rfl, hrule, rfl, rfl⟩⟩
  | literal i value ignoreCase => exact ⟨_, _, lower_literal.mpr ⟨result, rfl, rfl, rfl⟩⟩
  | charClass i members raw => exact ⟨_, _, lower_charClass.mpr ⟨result, rfl, rfl, rfl⟩⟩
  | any i => exact ⟨_, _, lower_any.mpr ⟨result, rfl, rfl, rfl⟩⟩

end Expr

/-! ### Rules -/

/-- The rule with other names in its references. -/
def Rule.rename (f : String → String) (r : Rule) : Rule := { r with body := r.body.rename f }

/-- The rule with other numbers in its calls. -/
def RuleProgram.renumber (ρ : Nat → Nat) (r : RuleProgram) : RuleProgram :=
  { r with body := r.body.renumber ρ }

theorem Rule.assign_rename (f : String → String) (r : Rule) :
    (r.rename f).assign = r.assign.rename f := by
  simp only [Rule.assign, Rule.rename, Expr.assign_rename]

@[simp] theorem Rule.name_assign (r : Rule) : r.assign.name = r.name := rfl

section

variable {names : List String} {sites sites' : Array CodeSite} {rs : List RuleProgram}

theorem lowerRules_nil :
    lowerRules names [] sites = .ok (rs, sites') ↔ rs = [] ∧ sites' = sites := by
  rw [lowerRules]
  constructor
  · intro heq
    obtain ⟨rfl, rfl⟩ := Prod.mk.inj (Except.ok.inj heq)
    exact ⟨rfl, rfl⟩
  · rintro ⟨rfl, rfl⟩
    rfl

theorem lowerRules_cons {r : Rule} {rules : List Rule} :
    lowerRules names (r :: rules) sites = .ok (rs, sites') ↔ ∃ b inner bs,
      r.body.lower names sites = .ok (b, inner) ∧ lowerRules names rules inner = .ok (bs, sites') ∧
        rs = ⟨r.name, r.registers, b⟩ :: bs := by
  rw [lowerRules]
  exact Expr.lower_both (f := fun b bs => RuleProgram.mk r.name r.registers b :: bs)

theorem lowerRules_append {rules rules' : List Rule} :
    lowerRules names (rules ++ rules') sites = .ok (rs, sites') ↔ ∃ as inner bs,
      lowerRules names rules sites = .ok (as, inner) ∧
        lowerRules names rules' inner = .ok (bs, sites') ∧ rs = as ++ bs := by
  induction rules generalizing sites rs with
  | nil =>
    constructor
    · intro h
      exact ⟨[], sites, rs, rfl, h, rfl⟩
    · rintro ⟨as, inner, bs, has, hbs, rfl⟩
      obtain ⟨rfl, rfl⟩ := lowerRules_nil.mp has
      exact hbs
  | cons r rules ih =>
    rw [List.cons_append, lowerRules_cons]
    constructor
    · rintro ⟨b, inner, bs, hb, hrest, rfl⟩
      obtain ⟨as, inner', bs, has, hbs, rfl⟩ := ih.mp hrest
      exact ⟨_, inner', bs, lowerRules_cons.mpr ⟨b, inner, as, hb, has, rfl⟩, hbs, rfl⟩
    · rintro ⟨as, inner', bs, has, hbs, rfl⟩
      obtain ⟨b, inner, as, hb, hrest, rfl⟩ := lowerRules_cons.mp has
      exact ⟨b, inner, as ++ bs, hb, ih.mpr ⟨as, inner', bs, hrest, hbs, rfl⟩, rfl⟩

theorem lowerRules_rename {names' : List String} {f : String → String} {ρ : Nat → Nat}
    (hρ : ∀ name rule, names.findIdx? (· == name) = some rule →
      names'.findIdx? (· == f name) = some (ρ rule))
    {rules : List Rule} (h : lowerRules names rules sites = .ok (rs, sites')) :
    lowerRules names' (rules.map (Rule.rename f)) sites =
      .ok (rs.map (RuleProgram.renumber ρ), sites') := by
  induction rules generalizing sites rs with
  | nil =>
    obtain ⟨rfl, rfl⟩ := lowerRules_nil.mp h
    exact lowerRules_nil.mpr ⟨rfl, rfl⟩
  | cons r rules ih =>
    obtain ⟨b, inner, bs, hb, hbs, rfl⟩ := lowerRules_cons.mp h
    exact lowerRules_cons.mpr
      ⟨b.renumber ρ, inner, _, Expr.lower_rename hρ r.body hb, ih hbs, rfl⟩

/-- Rules keep their names. -/
theorem names_of_lowerRules {rules : List Rule}
    (h : lowerRules names rules sites = .ok (rs, sites')) :
    rs.map (·.name) = rules.map (·.name) := by
  induction rules generalizing sites rs with
  | nil =>
    obtain ⟨rfl, -⟩ := lowerRules_nil.mp h
    rfl
  | cons r rules ih =>
    obtain ⟨b, inner, bs, -, hbs, rfl⟩ := lowerRules_cons.mp h
    rw [List.map_cons, List.map_cons, ih hbs]

theorem exists_lowerRules (rules : List Rule)
    (href : ∀ r ∈ rules, ∀ ref ∈ r.body.references, ref.name ∈ names) (sites : Array CodeSite) :
    ∃ rs sites', lowerRules names (rules.map Rule.assign) sites = .ok (rs, sites') := by
  induction rules generalizing sites with
  | nil => exact ⟨_, _, rfl⟩
  | cons r rules ih =>
    obtain ⟨b, inner, hb⟩ := Expr.exists_lower_assign r.body (href r List.mem_cons_self)
      (Pool.acquire {}).1 (Pool.acquire {}).2.openScope sites
    obtain ⟨bs, sites', hbs⟩ := ih (fun t ht => href t (List.mem_cons_of_mem _ ht)) inner
    exact ⟨_, _, lowerRules_cons.mpr ⟨b, inner, bs, hb, hbs, rfl⟩⟩

end

namespace Grammar

variable {g : Grammar} {p : Program}

theorem lower_eq_ok_iff : g.lower = .ok p ↔ ∃ rs code start,
    lowerRules g.ruleNames g.rules #[] = .ok (rs, code) ∧ g.findIndex? g.start = some start ∧
      p = ⟨g.initializer.map (·.code), rs.toArray, start, code⟩ := by
  simp only [lower, bind_eq_ok_iff]
  constructor
  · rintro ⟨⟨rs, code⟩, hrs, heq⟩
    split at heq
    · next start hstart => exact ⟨rs, code, start, hrs, hstart, (Except.ok.inj heq).symm⟩
    · cases heq
  · rintro ⟨rs, code, start, hrs, hstart, rfl⟩
    exact ⟨(rs, code), hrs, by rw [hstart]; rfl⟩

theorem findIndex?_eq (g : Grammar) (name : String) :
    g.findIndex? name = g.ruleNames.findIdx? (· == name) := by
  rw [findIndex?, ruleNames, List.findIdx?_map]
  rfl

/-- A name means the same place in a grammar and in its program. -/
theorem ruleIndex?_of_lower (h : g.lower = .ok p) (name : String) :
    p.ruleIndex? name = g.findIndex? name := by
  obtain ⟨rs, code, start, hrs, -, rfl⟩ := lower_eq_ok_iff.mp h
  rw [findIndex?_eq, ruleNames, ← names_of_lowerRules hrs, Program.ruleIndex?_eq]
  rfl

theorem start_of_lower (h : g.lower = .ok p) : g.findIndex? g.start = some p.start := by
  obtain ⟨rs, code, start, -, hstart, rfl⟩ := lower_eq_ok_iff.mp h
  exact hstart

/-- A name means a rule of the program. -/
theorem lt_of_findIndex? (h : g.lower = .ok p) {name : String} {i : Nat}
    (hi : g.findIndex? name = some i) : i < p.rules.size := by
  rw [← ruleIndex?_of_lower h] at hi
  exact (Array.findIdx?_eq_some_iff_findIdx_eq.mp hi).1

@[simp] theorem ruleNames_assignSlots (g : Grammar) : g.assignSlots.ruleNames = g.ruleNames := by
  simp [ruleNames, assignSlots]

@[simp] theorem findIndex?_assignSlots (g : Grammar) (name : String) :
    g.assignSlots.findIndex? name = g.findIndex? name := by
  rw [findIndex?_eq, findIndex?_eq, ruleNames_assignSlots]

/-- A grammar whose names all mean a rule has a program. -/
theorem exists_lower (href : ∀ r ∈ g.references, g.defines r.name = true)
    (hstart : g.defines g.start = true) : ∃ p, g.assignSlots.lower = .ok p := by
  have hnames : ∀ name, g.defines name = true ↔ name ∈ g.ruleNames := by
    intro name
    rw [defines_iff, ruleNames, List.mem_map]
  have href' : ∀ r ∈ g.rules, ∀ ref ∈ r.body.references, ref.name ∈ g.ruleNames :=
    fun r hr ref hmem => (hnames _).mp (href ref (List.mem_flatMap.mpr ⟨r, hr, hmem⟩))
  obtain ⟨rs, code, hrs⟩ := exists_lowerRules g.rules href' #[]
  obtain ⟨start, hindex⟩ : ∃ start, g.assignSlots.findIndex? g.assignSlots.start = some start := by
    rw [← Option.isSome_iff_exists, isSome_findIndex?, defines_iff]
    obtain ⟨r, hr, hname⟩ := defines_iff.mp hstart
    exact ⟨r.assign, List.mem_map_of_mem hr, hname⟩
  exact ⟨_, lower_eq_ok_iff.mpr ⟨rs, code, start, by rwa [ruleNames_assignSlots], hindex, rfl⟩⟩

end Grammar

end Packrat
