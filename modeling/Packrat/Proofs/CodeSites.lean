import Packrat.Proofs.Compilation

/-!
# Code sites of a grammar

The sites of a program are the code blocks of its grammar, in the order of the text except that the
blocks inside an action come before the action itself. This module lists them from the expressions
alone and shows that lowering finds that list. What a host has to offer for a grammar is then a
matter of its blocks, whatever its rules are called and whatever slots they have: removing proxies
loses no block, since a proxy has none.

The slots that labels have got decide which labels a site lists; its kind and its code do not depend
on them, and a host is asked for these only.

## Main results

* `Grammar.code_of_lower`: the sites of a program
* `Grammar.codeSites_removeProxies`: the sites are those of the grammar as it was read
* `Grammar.exists_matcher_iff`: when a grammar has a matcher
-/

namespace Packrat

/-- What a host is asked for: the site without its labels. -/
def CodeSite.block (site : CodeSite) : CodeKind × String := (site.kind, site.code)

namespace Expr

mutual
/-- The code sites of an expression, those inside an action before the one of the action. -/
def codeSites : Expr → List CodeSite
  | choice _ items | sequence _ items => codeSitesAll items
  | action _ code params body => body.codeSites ++ [⟨.action, code, params.map Prod.fst⟩]
  | predicate _ _ code params => [⟨.predicate, code, params.map Prod.fst⟩]
  | named _ _ body | labeled _ _ body | lookahead _ _ body | optional _ body
  | repeated _ _ body => body.codeSites
  | ruleRef .. | literal .. | charClass .. | any .. => []

/-- The code sites of several expressions. -/
def codeSitesAll : List Expr → List CodeSite
  | [] => []
  | e :: es => e.codeSites ++ codeSitesAll es
end

/-! ### What lowering finds -/

section

variable {names : List String} {sites sites' : Array CodeSite}

theorem codeSitesAll_of_lowerAll {items : List Expr} {os : List Op}
    (ih : ∀ e ∈ items, ∀ {sites sites' : Array CodeSite} {o : Op},
      e.lower names sites = .ok (o, sites') → sites'.toList = sites.toList ++ e.codeSites)
    (h : lowerAll names items sites = .ok (os, sites')) :
    sites'.toList = sites.toList ++ codeSitesAll items := by
  induction items generalizing sites os with
  | nil =>
    obtain ⟨-, rfl⟩ := lowerAll_nil.mp h
    rw [codeSitesAll, List.append_nil]
  | cons e es ihes =>
    obtain ⟨b, inner, bs, hb, hbs, -⟩ := lowerAll_cons.mp h
    rw [codeSitesAll, ihes (fun e he => ih e (List.mem_cons_of_mem _ he)) hbs,
      ih e List.mem_cons_self hb, List.append_assoc]

/-- Lowering puts the sites of an expression behind those that were met before. -/
theorem codeSites_of_lower (e : Expr) {o : Op} (h : e.lower names sites = .ok (o, sites')) :
    sites'.toList = sites.toList ++ e.codeSites := by
  induction e using Expr.inductionOn generalizing sites sites' o with
  | named i name body ih =>
    obtain ⟨_, b, -, hb, -⟩ := lower_named.mp h
    exact ih hb
  | choice i items ih =>
    obtain ⟨_, bs, -, hbs, -⟩ := lower_choice.mp h
    exact codeSitesAll_of_lowerAll ih hbs
  | action i code params body ih =>
    obtain ⟨_, _, b, inner, -, -, hb, -, rfl⟩ := lower_action.mp h
    rw [codeSites, Array.toList_push, ih hb, List.append_assoc]
  | sequence i items ih =>
    obtain ⟨_, _, bs, -, -, hbs, -⟩ := lower_sequence.mp h
    exact codeSitesAll_of_lowerAll ih hbs
  | labeled i label body ih => exact ih (lower_labeled.mp h).2
  | lookahead i negated body ih =>
    obtain ⟨_, _, b, -, -, hb, -⟩ := lower_lookahead.mp h
    exact ih hb
  | predicate i negated code params =>
    obtain ⟨_, -, -, rfl⟩ := lower_predicate.mp h
    exact Array.toList_push
  | optional i body ih =>
    obtain ⟨_, b, -, hb, -⟩ := lower_optional.mp h
    exact ih hb
  | repeated i nonempty body ih =>
    obtain ⟨_, b, -, hb, -⟩ := lower_repeated.mp h
    exact ih hb
  | ruleRef i name =>
    obtain ⟨_, rule, -, -, -, rfl⟩ := lower_ruleRef.mp h
    exact (List.append_nil _).symm
  | literal i value ignoreCase =>
    obtain ⟨_, -, -, rfl⟩ := lower_literal.mp h
    exact (List.append_nil _).symm
  | charClass i members raw =>
    obtain ⟨_, -, -, rfl⟩ := lower_charClass.mp h
    exact (List.append_nil _).symm
  | any i =>
    obtain ⟨_, -, -, rfl⟩ := lower_any.mp h
    exact (List.append_nil _).symm

end

/-! ### Other names, and slots -/

theorem codeSitesAll_renameAll {f : String → String} {items : List Expr}
    (ih : ∀ e ∈ items, (e.rename f).codeSites = e.codeSites) :
    codeSitesAll (renameAll f items) = codeSitesAll items := by
  induction items with
  | nil => rfl
  | cons e es ihes =>
    rw [renameAll, codeSitesAll, codeSitesAll, ih e List.mem_cons_self,
      ihes fun e he => ih e (List.mem_cons_of_mem _ he)]

/-- Code sites do not depend on the names of rules. -/
theorem codeSites_rename (f : String → String) (e : Expr) :
    (e.rename f).codeSites = e.codeSites := by
  induction e using Expr.inductionOn with
  | choice i items ih | sequence i items ih => exact codeSitesAll_renameAll ih
  | action i code params body ih => rw [rename, codeSites, codeSites, ih]
  | named _ _ _ ih | labeled _ _ _ ih | lookahead _ _ _ ih | optional _ _ ih
  | repeated _ _ _ ih => exact ih
  | _ => rfl

theorem blocks_assignAlternatives {items : List Expr}
    (ih : ∀ e ∈ items, ∀ r p, (e.assign r p).1.codeSites.map (·.block) = e.codeSites.map (·.block))
    (r : Nat) (p : Pool) : (codeSitesAll (assignAlternatives r items p).1).map (·.block) =
      (codeSitesAll items).map (·.block) := by
  induction items generalizing p with
  | nil => rfl
  | cons e es ihes =>
    simp only [assignAlternatives, codeSitesAll, List.map_append, ih e List.mem_cons_self,
      ihes fun e he => ih e (List.mem_cons_of_mem _ he)]

theorem blocks_assignElements {items : List Expr}
    (ih : ∀ e ∈ items, ∀ r p, (e.assign r p).1.codeSites.map (·.block) = e.codeSites.map (·.block))
    (p : Pool) : (codeSitesAll (assignElements items p).1).map (·.block) =
      (codeSitesAll items).map (·.block) := by
  induction items generalizing p with
  | nil => rfl
  | cons e es ihes =>
    simp only [assignElements, codeSitesAll, List.map_append, ih e List.mem_cons_self,
      ihes fun e he => ih e (List.mem_cons_of_mem _ he)]

/-- Slots add labels to code sites and change nothing else about them. -/
theorem blocks_assign (e : Expr) (r : Nat) (p : Pool) :
    (e.assign r p).1.codeSites.map (·.block) = e.codeSites.map (·.block) := by
  induction e using Expr.inductionOn generalizing r p with
  | choice i items ih => exact blocks_assignAlternatives ih r p
  | sequence i items ih => exact blocks_assignElements ih p.acquire.2
  | action i code params body ih =>
    simp only [assign, codeSites, List.map_append, ih]
    rfl
  | named _ _ _ ih | labeled _ _ _ ih | lookahead _ _ _ ih | optional _ _ ih
  | repeated _ _ _ ih => exact ih _ _
  | _ => rfl

end Expr

/-! ### Grammars -/

/-- The code sites of a grammar. -/
def Grammar.codeSites (g : Grammar) : List CodeSite := g.rules.flatMap (·.body.codeSites)

theorem codeSites_of_lowerRules {names : List String} {rules : List Rule}
    {sites sites' : Array CodeSite} {rs : List RuleProgram}
    (h : lowerRules names rules sites = .ok (rs, sites')) :
    sites'.toList = sites.toList ++ rules.flatMap (·.body.codeSites) := by
  induction rules generalizing sites rs with
  | nil =>
    obtain ⟨-, rfl⟩ := lowerRules_nil.mp h
    rw [List.flatMap_nil, List.append_nil]
  | cons rule rules ih =>
    obtain ⟨b, inner, bs, hb, hbs, -⟩ := lowerRules_cons.mp h
    rw [ih hbs, rule.body.codeSites_of_lower hb, List.flatMap_cons, List.append_assoc]

/-- A function for every element, or none for some. -/
theorem exists_mapM_iff {α β ε : Type} {f : α → Except ε β} {as : List α} :
    (∃ bs, as.mapM f = .ok bs) ↔ ∀ a ∈ as, ∃ b, f a = .ok b := by
  induction as with
  | nil => exact ⟨fun _ => nofun, fun _ => ⟨[], rfl⟩⟩
  | cons a as ih =>
    rw [List.mapM_cons, List.forall_mem_cons, ← ih]
    simp only [bind_eq_ok_iff]
    constructor
    · rintro ⟨_, b, hb, bs, hbs, -⟩
      exact ⟨⟨b, hb⟩, bs, hbs⟩
    · rintro ⟨⟨b, hb⟩, bs, hbs⟩
      exact ⟨_, b, hb, bs, hbs, rfl⟩

/-- The host has a function for a code block. -/
def Actions.Offers (h : Actions) (block : CodeKind × String) : Prop :=
  ∃ b, Matcher.bindSite h ⟨block.1, block.2, []⟩ = .ok b

namespace Grammar

variable {g : Grammar}

theorem code_of_lower {p : Program} (hp : g.lower = .ok p) : p.code.toList = g.codeSites := by
  obtain ⟨rs, code, start, hrs, -, rfl⟩ := lower_eq_ok_iff.mp hp
  exact codeSites_of_lowerRules hrs

theorem blocks_assignSlots (g : Grammar) :
    g.assignSlots.codeSites.map (·.block) = g.codeSites.map (·.block) := by
  simp only [codeSites, assignSlots, List.flatMap_map, List.map_flatMap]
  exact List.flatMap_congr fun rule _ => rule.body.blocks_assign ..

/-- What is listed rule by rule is not changed by removing proxies, if a proxy adds nothing to the
list and the names of references do not matter. -/
theorem flatMap_removeProxies {β : Type} {f : Rule → List β}
    (hproxy : ∀ {rule : Rule} {i : Info} {name : String}, rule.body = .ruleRef i name → f rule = [])
    (hredirect : ∀ source target rule, f (Rule.redirect source target rule) = f rule)
    (g : Grammar) : g.removeProxies.1.rules.flatMap f = g.rules.flatMap f := by
  have hend := removeProxies_invariant
    (I := fun kept pending _ => (kept ++ pending).flatMap f = g.rules.flatMap f) ?_ ?_ rfl
  · rwa [List.append_nil] at hend
  · intro kept pending start rule _ h
    rwa [← List.append_cons]
  · intro kept pending start rule target hrule h
    obtain ⟨i, hbody⟩ := Expr.proxyTarget?_eq_some_iff.mp hrule
    rw [List.flatMap_append, List.flatMap_cons, hproxy hbody, List.nil_append,
      ← List.flatMap_append] at h
    rw [← List.map_append, List.flatMap_map, ← h]
    simp only [hredirect]

/-- Removing proxies loses no code. -/
theorem codeSites_removeProxies (g : Grammar) : g.removeProxies.1.codeSites = g.codeSites := by
  refine flatMap_removeProxies (fun hbody => ?_) (fun _ _ rule => rule.body.codeSites_rename _) g
  rw [hbody]
  rfl

/-- A grammar has a matcher if and only if all its names mean a rule and the host has a function for
each of its code blocks. -/
theorem exists_matcher_iff {h : Actions} {options : Options} :
    (∃ m, g.matcher h options = .ok m) ↔
      g.Resolves ∧ ∀ site ∈ g.codeSites, h.Offers site.block := by
  have hoffers : ∀ sites : List CodeSite, (∃ bs, sites.mapM (Matcher.bindSite h) = .ok bs) ↔
      ∀ block ∈ sites.map (·.block), h.Offers block := by
    intro sites
    rw [exists_mapM_iff, List.forall_mem_map]
    rfl
  rw [← List.forall_mem_map (f := CodeSite.block) (P := h.Offers), ← blocks_assignSlots,
    ← lower_isOk_iff]
  constructor
  · rintro ⟨m, hm⟩
    obtain ⟨hp, hbind, -⟩ := parts_of_matcher hm
    rw [← code_of_lower hp]
    exact ⟨⟨_, hp⟩, (hoffers _).mp ⟨_, hbind⟩⟩
  · rintro ⟨⟨p, hp⟩, hblocks⟩
    rw [← code_of_lower hp] at hblocks
    obtain ⟨bindings, hbind⟩ := (hoffers _).mpr hblocks
    exact ⟨_, matcher_eq_ok_iff.mpr ⟨p, bindings, hp, hbind, rfl⟩⟩

end Grammar

end Packrat
