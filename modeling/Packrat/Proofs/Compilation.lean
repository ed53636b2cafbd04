import Packrat.Proofs.Bypass
import Packrat.Proofs.Lowering
import Packrat.Proofs.Reading

/-!
# When compilation succeeds

The checks run before proxies are removed, and lowering comes after. What the checks establish must
therefore survive the removals, or lowering meets a name that no rule has. With distinct rule names
it does. Names may repeat, though, and then the checks and the removals read them differently: for
the checks a name means the first rule that has it, while a removal redirects the name of whatever
proxy it has come to. `ProxiesLead` says that the two readings agree, because every proxy is the
first rule of its name, and `Coherent` is what the loop over the proxies keeps under that condition.

Where a proxy stands behind another rule of its name, compilation may fail after both checks have
passed: in `compile_shadowed`, the start is led around through proxies hidden behind other rules
until it names no rule at all.

## Main results

* `Grammar.lower_isOk_iff`: what can be lowered is what has no dangling names
* `Grammar.Coherent.removeProxies`: removing the proxies keeps all names meaningful
* `compile_spec`: which outcome compilation has
-/

namespace Packrat

namespace Expr

/-! ### Expressions with their slots -/

/-- Whether an expression may have to go back to where it began. -/
def goesBack : Expr → Bool
  | action .. | sequence .. | lookahead .. => true
  | _ => false

/-- An expression has the slots that lowering reads. -/
structure HasSlots (e : Expr) : Prop where
  result : e.info.result.isSome
  place : e.goesBack = true → e.info.place.isSome

theorem mem_assignAlternatives {r : Nat} {items : List Expr} {p : Pool} {b : Expr}
    (h : b ∈ (assignAlternatives r items p).1) : ∃ e ∈ items, ∃ q, b = (e.assign r q).1 := by
  induction items generalizing p with
  | nil => nomatch h
  | cons e es ih =>
    rcases List.mem_cons.mp h with rfl | h
    · exact ⟨e, List.mem_cons_self, _, rfl⟩
    · obtain ⟨e', he', q, rfl⟩ := ih h
      exact ⟨e', List.mem_cons_of_mem _ he', q, rfl⟩

theorem mem_assignElements {items : List Expr} {p : Pool} {b : Expr}
    (h : b ∈ (assignElements items p).1) : ∃ e ∈ items, ∃ r q, b = (e.assign r q).1 := by
  induction items generalizing p with
  | nil => nomatch h
  | cons e es ih =>
    rcases List.mem_cons.mp h with rfl | h
    · exact ⟨e, List.mem_cons_self, _, _, rfl⟩
    · obtain ⟨e', he', r, q, rfl⟩ := ih h
      exact ⟨e', List.mem_cons_of_mem _ he', r, q, rfl⟩

/-- Every expression gets its slots. -/
theorem hasSlots_assign (e : Expr) (r : Nat) (p : Pool) :
    ∀ n : Expr, n.Inside (e.assign r p).1 → n.HasSlots := by
  induction e using Expr.inductionOn generalizing r p with
  | choice i items ih =>
    refine forall_inside_iff.mpr ⟨⟨rfl, nofun⟩, fun c hc => ?_⟩
    obtain ⟨e, he, q, rfl⟩ := mem_assignAlternatives hc
    exact ih e he r q
  | sequence i items ih =>
    refine forall_inside_iff.mpr ⟨⟨rfl, fun _ => rfl⟩, fun c hc => ?_⟩
    obtain ⟨e, he, r', q, rfl⟩ := mem_assignElements hc
    exact ih e he r' q
  | named _ _ _ ih | labeled _ _ _ ih | optional _ _ ih | repeated _ _ _ ih =>
    refine forall_inside_iff.mpr ⟨⟨rfl, nofun⟩, fun c hc => ?_⟩
    obtain rfl := List.mem_singleton.mp hc
    exact ih _ _
  | action _ _ _ _ ih | lookahead _ _ _ ih =>
    refine forall_inside_iff.mpr ⟨⟨rfl, fun _ => rfl⟩, fun c hc => ?_⟩
    obtain rfl := List.mem_singleton.mp hc
    exact ih _ _
  | predicate | ruleRef | literal | charClass | any =>
    exact forall_inside_iff.mpr ⟨⟨rfl, nofun⟩, nofun⟩

theorem referencesAll_assignAlternatives {items : List Expr}
    (ih : ∀ e ∈ items, ∀ r p, (e.assign r p).1.references = e.references) (r : Nat) (p : Pool) :
    referencesAll (assignAlternatives r items p).1 = referencesAll items := by
  induction items generalizing p with
  | nil => rfl
  | cons e es ihes =>
    simp only [assignAlternatives, referencesAll, ih e List.mem_cons_self,
      ihes fun e he => ih e (List.mem_cons_of_mem _ he)]

theorem referencesAll_assignElements {items : List Expr}
    (ih : ∀ e ∈ items, ∀ r p, (e.assign r p).1.references = e.references) (p : Pool) :
    referencesAll (assignElements items p).1 = referencesAll items := by
  induction items generalizing p with
  | nil => rfl
  | cons e es ihes =>
    simp only [assignElements, referencesAll, ih e List.mem_cons_self,
      ihes fun e he => ih e (List.mem_cons_of_mem _ he)]

theorem references_assign (e : Expr) (r : Nat) (p : Pool) :
    (e.assign r p).1.references = e.references := by
  induction e using Expr.inductionOn generalizing r p with
  | choice i items ih => exact referencesAll_assignAlternatives ih r p
  | sequence i items ih => exact referencesAll_assignElements ih p.acquire.2
  | named _ _ _ ih | action _ _ _ _ ih | labeled _ _ _ ih | lookahead _ _ _ ih | optional _ _ ih
  | repeated _ _ _ ih => exact ih _ _
  | _ => rfl

/-! ### What lowering finds -/

section

variable {names : List String} {sites sites' : Array CodeSite}

theorem mem_names_of_lowerAll {items : List Expr} {os : List Op}
    (ih : ∀ e ∈ items, ∀ {sites sites' : Array CodeSite} {o : Op},
      e.lower names sites = .ok (o, sites') → ∀ ref ∈ e.references, ref.name ∈ names)
    (h : lowerAll names items sites = .ok (os, sites')) :
    ∀ ref ∈ referencesAll items, ref.name ∈ names := by
  induction items generalizing sites os with
  | nil => exact nofun
  | cons e es ihes =>
    obtain ⟨b, inner, bs, hb, hbs, rfl⟩ := lowerAll_cons.mp h
    intro ref href
    rcases List.mem_append.mp href with href | href
    · exact ih e List.mem_cons_self hb ref href
    · exact ihes (fun e he => ih e (List.mem_cons_of_mem _ he)) hbs ref href

/-- Only references to known rules are lowered. -/
theorem mem_names_of_lower (e : Expr) {o : Op} (h : e.lower names sites = .ok (o, sites')) :
    ∀ ref ∈ e.references, ref.name ∈ names := by
  induction e using Expr.inductionOn generalizing sites sites' o with
  | named i name body ih =>
    obtain ⟨_, b, -, hb, -⟩ := lower_named.mp h
    exact ih hb
  | choice i items ih =>
    obtain ⟨_, bs, -, hbs, -⟩ := lower_choice.mp h
    exact mem_names_of_lowerAll ih hbs
  | action i code params body ih =>
    obtain ⟨_, _, b, _, -, -, hb, -⟩ := lower_action.mp h
    exact ih hb
  | sequence i items ih =>
    obtain ⟨_, _, bs, -, -, hbs, -⟩ := lower_sequence.mp h
    exact mem_names_of_lowerAll ih hbs
  | labeled i label body ih => exact ih (lower_labeled.mp h).2
  | lookahead i negated body ih =>
    obtain ⟨_, _, b, -, -, hb, -⟩ := lower_lookahead.mp h
    exact ih hb
  | optional i body ih =>
    obtain ⟨_, b, -, hb, -⟩ := lower_optional.mp h
    exact ih hb
  | repeated i nonempty body ih =>
    obtain ⟨_, b, -, hb, -⟩ := lower_repeated.mp h
    exact ih hb
  | ruleRef i name =>
    obtain ⟨_, rule, -, hrule, -⟩ := lower_ruleRef.mp h
    intro ref href
    obtain rfl := List.mem_singleton.mp href
    obtain ⟨hlt, heq, -⟩ := List.findIdx?_eq_some_iff_getElem.mp hrule
    exact eq_of_beq heq ▸ List.getElem_mem hlt
  | predicate | literal | charClass | any => exact nofun

end

end Expr

namespace Grammar

variable {g : Grammar}

/-- Every reference and the start name a rule. -/
structure Resolves (g : Grammar) : Prop where
  references : ∀ ref ∈ g.references, g.defines ref.name = true
  start : g.defines g.start = true

theorem defines_iff_mem {name : String} : g.defines name = true ↔ name ∈ g.ruleNames := by
  rw [defines_iff, ruleNames, List.mem_map]

theorem mem_names_of_lowerRules {names : List String} {rules : List Rule}
    {sites sites' : Array CodeSite} {rs : List RuleProgram}
    (h : lowerRules names rules sites = .ok (rs, sites')) :
    ∀ rule ∈ rules, ∀ ref ∈ rule.body.references, ref.name ∈ names := by
  induction rules generalizing sites rs with
  | nil => exact nofun
  | cons rule rules ih =>
    obtain ⟨b, inner, bs, hb, hbs, rfl⟩ := lowerRules_cons.mp h
    refine List.forall_mem_cons.mpr ⟨rule.body.mem_names_of_lower hb, ih hbs⟩

/-- With its slots, a grammar can be lowered if and only if all its names mean a rule. -/
theorem lower_isOk_iff : (∃ p, g.assignSlots.lower = .ok p) ↔ g.Resolves := by
  constructor
  · rintro ⟨p, hp⟩
    obtain ⟨rs, code, start, hrs, hstart, -⟩ := lower_eq_ok_iff.mp hp
    constructor
    · intro ref href
      obtain ⟨rule, hrule, href⟩ := mem_references_iff.mp href
      have hmem := mem_names_of_lowerRules hrs rule.assign (List.mem_map_of_mem hrule) ref
        ((rule.body.references_assign ..).symm ▸ href)
      rwa [ruleNames_assignSlots, ← defines_iff_mem] at hmem
    · rw [findIndex?_assignSlots] at hstart
      rw [← isSome_findIndex?]
      exact Option.isSome_iff_exists.mpr ⟨start, hstart⟩
  · rintro ⟨href, hstart⟩
    exact exists_lower href hstart

/-! ### Repeated names -/

/-- No proxy stands behind another rule of its name. -/
def ProxiesLead (g : Grammar) : Prop :=
  g.rules.Pairwise fun r proxy => proxy.body.proxyTarget?.isSome → r.name ≠ proxy.name

instance : DecidablePred ProxiesLead := fun g => inferInstanceAs (Decidable (g.rules.Pairwise _))

/-- With distinct names, nothing stands behind another rule of its name. -/
theorem proxiesLead_of_nodup (h : g.ruleNames.Nodup) : g.ProxiesLead := by
  have hpairwise : g.rules.Pairwise (·.name ≠ ·.name) := List.pairwise_map.mp h
  refine hpairwise.imp ?_
  intro r proxy hne _
  exact hne

/-- What removals keep of a checked grammar in which names may repeat. -/
structure Coherent (g : Grammar) : Prop extends g.Resolves where
  lead : g.ProxiesLead
  acyclic : g.Acyclic

namespace HasProxy

variable {before after : List Rule} {proxy : Rule} {target : String}

/-- A proxy that leads is what its name means. -/
theorem find?_name (h : g.HasProxy before proxy after target) (hg : g.ProxiesLead) :
    g.find? proxy.name = some proxy := by
  rw [ProxiesLead, h.rules, List.pairwise_append] at hg
  rw [find?, List.find?_eq_some_iff_append]
  refine ⟨by simp, before, after, h.rules, fun r hr => ?_⟩
  have hne := hg.2.2 r hr proxy List.mem_cons_self (by simp [h.target])
  simpa using hne

theorem leftmost_name (h : g.HasProxy before proxy after target) (hg : g.ProxiesLead) :
    g.Leftmost proxy.name target := by
  obtain ⟨i, hbody⟩ := h.body
  refine ⟨proxy, h.find?_name hg, ⟨target, i.span⟩, ?_, rfl⟩
  rw [hbody]
  exact List.mem_singleton.mpr rfl

theorem target_ne_name (h : g.HasProxy before proxy after target) (hg : g.Coherent) :
    target ≠ proxy.name := by
  intro heq
  have hedge := h.leftmost_name hg.lead
  rw [heq] at hedge
  exact hg.acyclic _ (.single hedge)

/-- Another name means the same rule as before, redirected. -/
theorem find?_bypass (h : g.HasProxy before proxy after target) {name : String}
    (hne : name ≠ proxy.name) : (g.bypass (before ++ after) proxy.name target).find? name =
      (g.find? name).map (·.redirect proxy.name target) := by
  have hskip : (proxy.name == name) = false := beq_eq_false_iff_ne.mpr hne.symm
  have hname : (fun r : Rule => r.name == name) ∘ Rule.redirect proxy.name target =
      fun r => r.name == name := rfl
  rw [find?, find?, bypass, h.rules, List.find?_map, hname, List.find?_append, List.find?_append,
    List.find?_cons, hskip]

/-- Another name that meant a rule still does. -/
theorem defines_of_ne (h : g.HasProxy before proxy after target) {name : String}
    (hne : name ≠ proxy.name) (hname : g.defines name = true) :
    (g.bypass (before ++ after) proxy.name target).defines name = true := by
  rw [← isSome_find?] at hname ⊢
  rwa [h.find?_bypass hne, Option.isSome_map]

/-- A redirected name still means a rule. -/
theorem defines_redirected (h : g.HasProxy before proxy after target) (hg : g.Coherent)
    {name : String} (hname : g.defines name = true) :
    (g.bypass (before ++ after) proxy.name target).defines
      (Expr.redirection proxy.name target name) = true := by
  unfold Expr.redirection
  split
  · obtain ⟨span, hmem⟩ := h.exists_mem_references
    exact h.defines_of_ne (h.target_ne_name hg) (hg.references ⟨target, span⟩ hmem)
  · next hne => exact h.defines_of_ne hne hname

/-- Nothing refers to the name of a removed proxy any more. -/
theorem ne_of_leftmost (h : g.HasProxy before proxy after target) (hg : g.Coherent) {a b : String}
    (hab : (g.bypass (before ++ after) proxy.name target).Leftmost a b) : b ≠ proxy.name := by
  obtain ⟨rule', hfind, r', hr', rfl⟩ := hab
  obtain ⟨rule, -, rfl⟩ := List.mem_map.mp (List.mem_of_find?_eq_some hfind)
  obtain ⟨r, -, heq⟩ := exists_of_mem_leftmost_redirect hr'
  rw [heq, Expr.redirection]
  split
  · exact h.target_ne_name hg
  · assumption

theorem transGen_of_leftmost_ne (h : g.HasProxy before proxy after target) (hg : g.Coherent)
    {a b : String} (hne : a ≠ proxy.name)
    (hab : (g.bypass (before ++ after) proxy.name target).Leftmost a b) :
    Relation.TransGen g.Leftmost a b := by
  obtain ⟨rule', hfind, r', hr', rfl⟩ := hab
  rw [h.find?_bypass hne, Option.map_eq_some_iff] at hfind
  obtain ⟨rule, hfind, rfl⟩ := hfind
  obtain ⟨r, hr, heq⟩ := exists_of_mem_leftmost_redirect hr'
  rw [heq]
  exact transGen_of_redirected (h.leftmost_name hg.lead) ⟨rule, hfind, r, hr, rfl⟩

/-- A removal makes no cycle. There may be another rule of the proxy's name now, which that name
did not mean before, but no walk comes to it. -/
theorem acyclic_bypass (h : g.HasProxy before proxy after target) (hg : g.Coherent) :
    (g.bypass (before ++ after) proxy.name target).Acyclic := by
  have hwalk : ∀ a b, Relation.TransGen
      (g.bypass (before ++ after) proxy.name target).Leftmost a b → a ≠ proxy.name →
        Relation.TransGen g.Leftmost a b := by
    intro a b hab hne
    induction hab with
    | single hab => exact h.transGen_of_leftmost_ne hg hne hab
    | tail hab hbc ih =>
      obtain ⟨_, -, hlast⟩ := Relation.TransGen.tail'_iff.mp hab
      exact ih.trans (h.transGen_of_leftmost_ne hg (h.ne_of_leftmost hg hlast) hbc)
  intro name hcycle
  obtain ⟨_, -, hlast⟩ := Relation.TransGen.tail'_iff.mp hcycle
  exact hg.acyclic name (hwalk name name hcycle (h.ne_of_leftmost hg hlast))

theorem lead_bypass (h : g.HasProxy before proxy after target) (hg : g.ProxiesLead) :
    (g.bypass (before ++ after) proxy.name target).ProxiesLead := by
  have hsub : (before ++ after).Sublist g.rules := by
    rw [h.rules]
    exact (List.Sublist.refl before).append (List.sublist_cons_self proxy after)
  refine List.pairwise_map.mpr ((hg.sublist hsub).imp fun {r r'} hne hproxy => ?_)
  rw [Rule.redirect, Expr.redirect, Expr.proxyTarget?_rename, Option.isSome_map] at hproxy
  exact hne hproxy

/-- A removal keeps a grammar coherent. -/
theorem coherent_bypass (h : g.HasProxy before proxy after target) (hg : g.Coherent) :
    (g.bypass (before ++ after) proxy.name target).Coherent where
  lead := h.lead_bypass hg.lead
  references := by
    intro ref hmem
    obtain ⟨old, hold, heq⟩ := h.exists_of_mem_references hmem
    rw [heq]
    exact h.defines_redirected hg (hg.references old hold)
  acyclic := h.acyclic_bypass hg
  start := h.defines_redirected hg hg.start

end HasProxy

theorem Coherent.removeProxies (hg : g.Coherent) : g.removeProxies.1.Coherent := by
  have hend := removeProxies_invariant
    (I := fun kept pending start => (⟨g.initializer, kept ++ pending, start⟩ : Grammar).Coherent)
    ?_ ?_ hg
  · rwa [List.append_nil] at hend
  · intro kept pending start rule _ h
    rwa [List.append_cons] at h
  · intro kept pending start rule target hrule h
    have hproxy : (⟨g.initializer, kept ++ rule :: pending, start⟩ : Grammar).HasProxy kept rule
        pending target := ⟨rfl, hrule⟩
    have hbypass := hproxy.coherent_bypass h
    rwa [bypass, List.map_append] at hbypass

/-! ### Outcomes of the checks -/

theorem checkReferences_of_undefined {ref : Reference}
    (h : g.references.find? (fun r => !g.defines r.name) = some ref) :
    g.checkReferences = .error (.undefinedRule ref.name ref.span) := by
  rw [checkReferences, h]

theorem exists_of_checkLeftRecursion_eq_error {e : GrammarError}
    (h : g.checkLeftRecursion = .error e) : ∃ name span, e = .leftRecursion name span := by
  unfold checkLeftRecursion at h
  split at h
  · next r _ => exact ⟨r.name, r.span, (Except.error.inj h).symm⟩
  · nomatch h

end Grammar

/-! ### Outcomes of compilation -/

/-- A text that is not read, or whose grammar fails a check, is refused for that reason. -/
theorem compile_of_checkedGrammar_eq_error {text : String} {e : GrammarError}
    (h : checkedGrammar text = .error e) (options : Options) :
    compile text options = .error (.grammar e) := by
  rw [compile, h]
  rfl

theorem checkedGrammar_of_parse {text : String} {g : Grammar} (h : Grammar.parse text = .ok g) :
    checkedGrammar text = (do g.checkReferences; g.checkLeftRecursion; return g) := by
  rw [checkedGrammar, h]
  rfl

/-- Behind the checks, compilation succeeds if and only if all names still mean a rule once proxies
are removed. -/
theorem compile_isOk_iff {text : String} {g : Grammar} (hg : checkedGrammar text = .ok g)
    (options : Options) :
    (∃ c, compile text options = .ok c) ↔ g.removeProxies.1.Resolves := by
  rw [← Grammar.lower_isOk_iff]
  constructor
  · rintro ⟨c, hc⟩
    obtain ⟨g', program, hg', hp, -⟩ := compile_eq_ok_iff.mp hc
    obtain rfl := Except.ok.inj (hg.symm.trans hg')
    exact ⟨program, hp⟩
  · rintro ⟨program, hp⟩
    exact ⟨_, compile_eq_ok_iff.mpr ⟨g, program, hg, hp, rfl⟩⟩

/-- The outcome of compilation is that of the first step that fails: reading, the check of
references, which names the first reference to no rule, and the check for left recursion. Behind the
checks, all expressions get their slots, and compilation succeeds if and only if all names still
mean a rule once proxies are removed. They do if no proxy stands behind another rule of its name. -/
theorem compile_spec (text : String) (options : Options) :
    (∀ e, Grammar.parse text = .error e → compile text options = .error (.grammar e)) ∧
      ∀ g, Grammar.parse text = .ok g →
        (∀ ref, g.references.find? (fun r => !g.defines r.name) = some ref →
          compile text options = .error (.grammar (.undefinedRule ref.name ref.span))) ∧
        ((∀ ref ∈ g.references, g.defines ref.name = true) →
          (∀ e, g.checkLeftRecursion = .error e →
            (∃ name span, e = .leftRecursion name span) ∧
              compile text options = .error (.grammar e)) ∧
          (g.checkLeftRecursion = .ok () →
            (∀ rule ∈ g.removeProxies.1.assignSlots.rules, ∀ e : Expr, e.Inside rule.body →
              e.HasSlots) ∧
              ((∃ c, compile text options = .ok c) ↔ g.removeProxies.1.Resolves) ∧
                (g.ProxiesLead →
                  g.removeProxies.1.Resolves ∧ ∃ c, compile text options = .ok c))) := by
  refine ⟨fun e he => compile_of_checkedGrammar_eq_error (by rw [checkedGrammar, he]; rfl) _,
    fun g hg => ⟨fun ref href => ?_, fun hreferences => ?_⟩⟩
  · refine compile_of_checkedGrammar_eq_error ?_ _
    rw [checkedGrammar_of_parse hg, Grammar.checkReferences_of_undefined href]
    rfl
  have hpassed := g.checkReferences_eq_ok_iff.mpr hreferences
  refine ⟨fun e he => ⟨Grammar.exists_of_checkLeftRecursion_eq_error he, ?_⟩, fun hleft => ?_⟩
  · refine compile_of_checkedGrammar_eq_error ?_ _
    rw [checkedGrammar_of_parse hg, hpassed, he]
    rfl
  · have hsucceeds := compile_isOk_iff (checkedGrammar_eq_ok_iff.mpr ⟨hg, hpassed, hleft⟩) options
    refine ⟨?_, hsucceeds, fun hlead => ?_⟩
    · intro rule hrule
      obtain ⟨old, -, rfl⟩ := List.mem_map.mp hrule
      exact old.body.hasSlots_assign _ _
    · have hcoherent : g.Coherent :=
        { references := hreferences
          start := (Grammar.wellFormed_of_parse hg).start
          lead := hlead
          acyclic := Grammar.acyclic_of_checkLeftRecursion hleft }
      have hresolves := hcoherent.removeProxies.toResolves
      exact ⟨hresolves, hsucceeds.mpr hresolves⟩

/-- The rule that the proxy leads to has a second rule of its name behind it. -/
theorem compile_spec_repeated : ∃ g, Grammar.parse "s=t;t='x';t='y'" = .ok g ∧
    g.checkReferences = .ok () ∧ g.checkLeftRecursion = .ok () ∧ g.ProxiesLead ∧
      g.removeProxies.1.Resolves ∧ ∃ c, compile "s=t;t='x';t='y'" ⟨true, true⟩ = .ok c := by
  have hlead : (checkedGrammar "s=t;t='x';t='y'").toOption.map (fun g => decide g.ProxiesLead) =
      some true := by
    have hparse : Grammar.parse "s=t;t='x';t='y'" = .ok ⟨none, [
        ⟨⟨0, 4⟩, "s", .ruleRef ⟨⟨2, 3⟩, none, none⟩ "t", 0⟩,
        ⟨⟨4, 10⟩, "t", .literal ⟨⟨6, 9⟩, none, none⟩ "x" false, 0⟩,
        ⟨⟨10, 15⟩, "t", .literal ⟨⟨12, 15⟩, none, none⟩ "y" false, 0⟩], "s"⟩ := by
      decide +kernel
    rw [checkedGrammar, hparse]
    cbv
  cases hg : checkedGrammar "s=t;t='x';t='y'" with
  | error e =>
    rw [hg] at hlead
    cases hlead
  | ok g =>
    obtain ⟨hparse, href, hleft⟩ := checkedGrammar_eq_ok_iff.mp hg
    rw [hg] at hlead
    have hlead : g.ProxiesLead := of_decide_eq_true (Option.some.inj hlead)
    have hspec := ((compile_spec "s=t;t='x';t='y'" ⟨true, true⟩).2 g hparse).2
      (g.checkReferences_eq_ok_iff.mp href)
    obtain ⟨-, -, hleads⟩ := hspec.2 hleft
    obtain ⟨hresolves, hcompiled⟩ := hleads hlead
    exact ⟨g, hparse, href, hleft, hlead, hresolves, hcompiled⟩

/-- A grammar that passes both checks and cannot be lowered. The second rules of `a` and `b` are
proxies behind the rules that these names mean. Redirecting `a` makes `c` a proxy of `b`,
redirecting `b` makes it a proxy of itself, and the start, by then `c` as well, loses its rule with
it. -/
theorem compile_shadowed : (∃ g, Grammar.parse "a='y';b='z';a=b;b=c;c=a" = .ok g ∧
    g.checkReferences = .ok () ∧ g.checkLeftRecursion = .ok () ∧
      g.removeProxies.1.defines g.removeProxies.1.start = false) ∧
        ¬ ∃ c, compile "a='y';b='z';a=b;b=c;c=a" ⟨false, false⟩ = .ok c := by
  have hstart : (checkedGrammar "a='y';b='z';a=b;b=c;c=a").toOption.map (fun g =>
      g.removeProxies.1.defines g.removeProxies.1.start) = some false := by
    have hparse : Grammar.parse "a='y';b='z';a=b;b=c;c=a" = .ok ⟨none, [
        ⟨⟨0, 6⟩, "a", .literal ⟨⟨2, 5⟩, none, none⟩ "y" false, 0⟩,
        ⟨⟨6, 12⟩, "b", .literal ⟨⟨8, 11⟩, none, none⟩ "z" false, 0⟩,
        ⟨⟨12, 16⟩, "a", .ruleRef ⟨⟨14, 15⟩, none, none⟩ "b", 0⟩,
        ⟨⟨16, 20⟩, "b", .ruleRef ⟨⟨18, 19⟩, none, none⟩ "c", 0⟩,
        ⟨⟨20, 23⟩, "c", .ruleRef ⟨⟨22, 23⟩, none, none⟩ "a", 0⟩], "a"⟩ := by
      decide +kernel
    rw [checkedGrammar, hparse]
    cbv
  cases hg : checkedGrammar "a='y';b='z';a=b;b=c;c=a" with
  | error e =>
    rw [hg] at hstart
    cases hstart
  | ok g =>
    obtain ⟨hparse, href, hleft⟩ := checkedGrammar_eq_ok_iff.mp hg
    rw [hg] at hstart
    have hstart : g.removeProxies.1.defines g.removeProxies.1.start = false :=
      Option.some.inj hstart
    refine ⟨⟨g, hparse, href, hleft, hstart⟩, fun hcompiled => ?_⟩
    have hresolves := (compile_isOk_iff hg ⟨false, false⟩).mp hcompiled
    exact Bool.false_ne_true (hstart.symm.trans hresolves.start)

end Packrat
