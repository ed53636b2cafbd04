import Packrat.Proofs.Adequacy
import Packrat.Proofs.Lockstep
import Packrat.Proofs.Proxies

/-!
# Grammars without repeated names

A name means the first rule that has it, so the other rules of that name might as well not be there.
For the checks and for lowering this is plain, since both look names up. The removal of proxies does
not: it redirects the name of whatever proxy it has come to, and where that is a proxy behind a rule
that is none, references to the first rule of the name end at the target of the second
(`compile_firsts_hidden`). `ProxiesPrecede` excludes just that: of the rules with one name, the
proxies come first.

Under this condition the loop over all rules and the loop over the first ones go side by side
(`Abreast`). A proxy that is the first rule of its name is removed by both. A proxy that is not
stands behind another one, so its name is gone already: nothing in the second grammar refers to it,
and what the first loop does there is lost on the rules that the second one has. In the end the
second grammar is a part of the first one that refers to no rule outside of it (`ClosedIn`), and
such a part means what the whole means.

## Main results

* `Grammar.sound_firsts`: the first rules alone pass the checks
* `Grammar.ClosedIn.means_iff`: a closed part of a grammar means what the grammar means
* `Grammar.removeProxies_firsts`: without their proxies, the first rules are a closed part
* `compile_firsts`: what compilation makes of the first rules
-/

namespace Packrat

/-! ### First rules -/

/-- The rules whose names are not among those seen and that stand behind no other rule of their
name. -/
def firstRules (seen : List String) : List Rule → List Rule
  | [] => []
  | rule :: rules =>
    if rule.name ∈ seen then firstRules seen rules
    else rule :: firstRules (rule.name :: seen) rules

section

variable {seen : List String}

theorem firstRules_of_mem {rule : Rule} (h : rule.name ∈ seen) (rules : List Rule) :
    firstRules seen (rule :: rules) = firstRules seen rules := if_pos h

theorem firstRules_of_notMem {rule : Rule} (h : rule.name ∉ seen) (rules : List Rule) :
    firstRules seen (rule :: rules) = rule :: firstRules (rule.name :: seen) rules := if_neg h

theorem firstRules_sublist (seen : List String) (rules : List Rule) :
    (firstRules seen rules).Sublist rules := by
  induction rules generalizing seen with
  | nil => exact .slnil
  | cons rule rules ih =>
    by_cases h : rule.name ∈ seen
    · rw [firstRules_of_mem h]
      exact (ih seen).cons _
    · rw [firstRules_of_notMem h]
      exact (ih _).cons_cons _

theorem notMem_of_firstRules {rules : List Rule} {rule : Rule} (h : rule ∈ firstRules seen rules) :
    rule.name ∉ seen := by
  induction rules generalizing seen with
  | nil => nomatch h
  | cons first rules ih =>
    by_cases hfirst : first.name ∈ seen
    · rw [firstRules_of_mem hfirst] at h
      exact ih h
    · rw [firstRules_of_notMem hfirst] at h
      rcases List.mem_cons.mp h with rfl | h
      · exact hfirst
      · exact fun hmem => ih h (List.mem_cons_of_mem _ hmem)

theorem nodup_firstRules (seen : List String) (rules : List Rule) :
    ((firstRules seen rules).map (·.name)).Nodup := by
  induction rules generalizing seen with
  | nil => exact .nil
  | cons rule rules ih =>
    by_cases h : rule.name ∈ seen
    · rw [firstRules_of_mem h]
      exact ih seen
    · rw [firstRules_of_notMem h, List.map_cons, List.nodup_cons]
      refine ⟨fun hmem => ?_, ih _⟩
      obtain ⟨other, hother, hname⟩ := List.mem_map.mp hmem
      exact notMem_of_firstRules hother (hname ▸ List.mem_cons_self)

/-- A name that was not seen means the same rule. -/
theorem find?_firstRules {name : String} (h : name ∉ seen) (rules : List Rule) :
    (firstRules seen rules).find? (·.name == name) = rules.find? (·.name == name) := by
  induction rules generalizing seen with
  | nil => rfl
  | cons rule rules ih =>
    by_cases hrule : rule.name ∈ seen
    · have hne : (rule.name == name) = false :=
        beq_eq_false_iff_ne.mpr fun heq => h (heq ▸ hrule)
      rw [firstRules_of_mem hrule, ih h, List.find?_cons, hne]
    · rw [firstRules_of_notMem hrule, List.find?_cons, List.find?_cons]
      split
      · rfl
      · next hne =>
        have hname : name ≠ rule.name := fun heq => by simp [heq] at hne
        exact ih (List.not_mem_cons_of_ne_of_not_mem hname h)

theorem firstRules_redirect (seen : List String) (rules : List Rule) (source target : String) :
    firstRules seen (rules.map (·.redirect source target)) =
      (firstRules seen rules).map (·.redirect source target) := by
  induction rules generalizing seen with
  | nil => rfl
  | cons rule rules ih =>
    by_cases h : rule.name ∈ seen
    · have h' : (rule.redirect source target).name ∈ seen := h
      rw [List.map_cons, firstRules_of_mem h', firstRules_of_mem h, ih]
    · have h' : (rule.redirect source target).name ∉ seen := h
      rw [List.map_cons, firstRules_of_notMem h', firstRules_of_notMem h, List.map_cons, ih]
      rfl

end

namespace Grammar

variable {g g' : Grammar}

/-- The grammar without the rules that stand behind another rule of their name. -/
def firsts (g : Grammar) : Grammar := { g with rules := firstRules [] g.rules }

theorem find?_firsts (g : Grammar) (name : String) : g.firsts.find? name = g.find? name :=
  find?_firstRules List.not_mem_nil g.rules

theorem defines_firsts (g : Grammar) (name : String) : g.firsts.defines name = g.defines name := by
  rw [← isSome_find?, find?_firsts, isSome_find?]

/-- The first rules of a grammar that passes the checks pass them too, and their names are
distinct. -/
theorem sound_firsts (hresolves : g.Resolves) (hacyclic : g.Acyclic) : g.firsts.Sound where
  names := nodup_firstRules [] g.rules
  references := by
    intro ref href
    rw [defines_firsts]
    obtain ⟨rule, hrule, href⟩ := mem_references_iff.mp href
    exact hresolves.references ref
      (mem_references_iff.mpr ⟨rule, (firstRules_sublist [] g.rules).subset hrule, href⟩)
  acyclic := by
    have hleftmost : g.firsts.Leftmost = g.Leftmost := by
      funext a b
      simp only [Leftmost, find?_firsts]
    rwa [Acyclic, hleftmost]
  start := (defines_firsts g g.start).trans hresolves.start

/-! ### Closed parts -/

/-- A part of a grammar in which names mean what they mean in the whole, and whose references stay
inside of it. -/
structure ClosedIn (g' g : Grammar) : Prop where
  find?_eq {name : String} : g'.defines name = true → g'.find? name = g.find? name
  references : ∀ ref ∈ g'.references, g'.defines ref.name = true

theorem ClosedIn.defines (h : g'.ClosedIn g) {name : String} (hname : g'.defines name = true) :
    g.defines name = true := by
  rwa [← isSome_find?, ← h.find?_eq hname, isSome_find?]

end Grammar

/-- Without a memory, states that differ in their journals stay in step. -/
theorem inStep_alike (h : Actions) : InStep (InvImage Alike Course.state) id h where
  ahead _ := rfl
  offset _ := rfl
  cursor hk := (steady_alike.cursor hk).symm
  suspended hk := by
    obtain ⟨-, journal, heq⟩ := hk
    rw [heq]
  moveTo hk hc := by
    obtain ⟨l, l', hl, rfl⟩ := hc
    exact steady_alike.moveTo hk ⟨l.state, l'.state, hl, rfl⟩
  skip {k k'} n hk := by
    change Alike (k.state.moveTo (k.state.cursor.skip n)) (k'.state.moveTo (k'.state.cursor.skip n))
    rw [← steady_alike.cursor hk]
    exact steady_alike.skip n hk
  failAt {k k'} n d hk := by
    change Alike (k.state.failAt (k.state.cursor.skip n) d)
      (k'.state.failAt (k'.state.cursor.skip n) d)
    rw [← steady_alike.cursor hk]
    exact steady_alike.failAt n d hk
  suspend n hk := by
    obtain ⟨hs, journal, heq⟩ := hk
    refine ⟨hs, journal, ?_⟩
    simp only [Course.update, heq]
  asked _ _ _ _ _ hk _ := hk
  act _ _ _ _ _ := rfl
  judge _ _ _ _ _ := rfl

/-- Without a memory, it does not matter by which number a rule is remembered. -/
theorem remembers_alike (rule rule' : Nat) :
    Remembers (InvImage Alike Course.state) id rule rule' where
  miss hk _ := State.lookUp_of_forgetful (oblivious_alike.right hk) rule'
  hit {k k' result s} hk hfound := by
    rw [State.lookUp_of_forgetful (oblivious_alike.left hk)] at hfound
    nomatch hfound
  entered offset reporting hk := Alike.note hk _ _
  remember {k k' begun} result hk _ := by
    change Alike (k.state.remember rule begun result) (k'.state.remember rule' begun result)
    rw [State.remember_of_forgetful (oblivious_alike.left hk),
      State.remember_of_forgetful (oblivious_alike.right hk)]
    exact hk

namespace Grammar

variable {g g' : Grammar}

/-- From a rule of its own, a closed part means what the whole grammar means. -/
theorem ClosedIn.means_iff (hclosed : g'.ClosedIn g) (h : Actions) (trackLines : Bool)
    (text : String) {start : Option String} (hstart : g'.defines (start.getD g'.start) = true)
    (hsame : g'.start = g.start) (r : Except Matcher.Failure Value) :
    g'.Means h trackLines text start r ↔ g.Means h trackLines text start r := by
  have hpairs : ∀ fuel, Pairs (InvImage Alike Course.state)
      (g'.outcome h fuel (start.getD g'.start)) (g.outcome h fuel (start.getD g'.start)) := by
    intro fuel
    refine outcome_pairs (S := fun name => g'.defines name = true) (inStep_alike h)
      (fun _ _ => remembers_alike _ _) (fun _ hname => hclosed.find?_eq hname) ?_ fuel hstart
    intro name rule _ hrule ref href
    exact hclosed.references ref
      (mem_references_iff.mpr ⟨rule, List.mem_of_find?_eq_some hrule, href⟩)
  have hevaluate : ∀ fuel, (g'.evaluate h { cache := false, trackLines } fuel text start).result =
      (g.evaluate h { cache := false, trackLines } fuel text start).result := by
    intro fuel
    have hinitial : InvImage Alike Course.state
        (initialCourse { cache := false, trackLines } text.toList)
        (initialCourse { cache := false, trackLines } text.toList) := alike_start trackLines _
    have hends := hpairs fuel hinitial
    have hverdict := hends.verdict_eq fun _ _ hk => hk.finish_eq
    rw [hsame] at hverdict hstart
    rw [evaluate, evaluate, hsame, if_pos hstart, if_pos (hclosed.defines hstart)]
    exact hverdict
  simp only [Means, hevaluate]

/-! ### The two loops -/

/-- Of the rules with one name, those that are proxies come first. -/
def ProxiesPrecede (g : Grammar) : Prop :=
  g.rules.Pairwise fun r proxy =>
    proxy.body.proxyTarget?.isSome → r.name = proxy.name → r.body.proxyTarget?.isSome

instance : DecidablePred ProxiesPrecede := fun g => inferInstanceAs (Decidable (g.rules.Pairwise _))

/-- The loop over the proxies of all rules, and the one over those of the first rules. Both are in
front of the rules `pending`, of which the second one skips those with the names `seen`; `kept` and
`kept'` are the rules kept so far. -/
structure Abreast (init : Option Initializer) (seen : List String) (kept pending kept' : List Rule)
    (start : String) : Prop where
  sound : (⟨init, kept' ++ firstRules seen pending, start⟩ : Grammar).Sound
  seen : ∀ r ∈ kept, r.name ∈ seen
  settled : ∀ r ∈ kept, r.body.proxyTarget? = none
  found : ∀ r ∈ kept', kept.find? (·.name == r.name) = some r
  precede : (kept ++ pending).Pairwise fun r proxy =>
    proxy.body.proxyTarget?.isSome → r.name = proxy.name → r.body.proxyTarget?.isSome

namespace Abreast

variable {init : Option Initializer} {seen : List String} {kept pending kept' : List Rule}
  {rule : Rule} {start target : String}

/-- Both loops keep a rule that is the first one of its name. -/
theorem keepBoth (h : Abreast init seen kept (rule :: pending) kept' start)
    (hrule : rule.body.proxyTarget? = none) (hnew : rule.name ∉ seen) :
    Abreast init (rule.name :: seen) (kept ++ [rule]) pending (kept' ++ [rule]) start where
  sound := by
    have hsound := h.sound
    rwa [firstRules_of_notMem hnew, List.append_cons] at hsound
  seen := by
    intro r hr
    rcases List.mem_append.mp hr with hr | hr
    · exact List.mem_cons_of_mem _ (h.seen r hr)
    · rw [List.mem_singleton.mp hr]
      exact List.mem_cons_self
  settled := by
    intro r hr
    rcases List.mem_append.mp hr with hr | hr
    · exact h.settled r hr
    · rwa [List.mem_singleton.mp hr]
  found := by
    intro r hr
    rw [List.find?_append]
    rcases List.mem_append.mp hr with hr | hr
    · rw [h.found r hr]
      rfl
    · obtain rfl := List.mem_singleton.mp hr
      have hnone : kept.find? (·.name == r.name) = none := by
        refine List.find?_eq_none.mpr fun other hother => ?_
        simpa using fun heq : other.name = r.name => hnew (heq ▸ h.seen other hother)
      rw [hnone]
      simp
  precede := by
    rw [← List.append_cons]
    exact h.precede

/-- Behind another rule of its name, a rule is kept by the first loop only. -/
theorem keepLater (h : Abreast init seen kept (rule :: pending) kept' start)
    (hrule : rule.body.proxyTarget? = none) (hold : rule.name ∈ seen) :
    Abreast init seen (kept ++ [rule]) pending kept' start where
  sound := by
    have hsound := h.sound
    rwa [firstRules_of_mem hold] at hsound
  seen := by
    intro r hr
    rcases List.mem_append.mp hr with hr | hr
    · exact h.seen r hr
    · rwa [List.mem_singleton.mp hr]
  settled := by
    intro r hr
    rcases List.mem_append.mp hr with hr | hr
    · exact h.settled r hr
    · rwa [List.mem_singleton.mp hr]
  found := by
    intro r hr
    rw [List.find?_append, h.found r hr]
    rfl
  precede := by
    rw [← List.append_cons]
    exact h.precede

/-- A removal keeps the loops abreast, if both do it and the second grammar stays sound. -/
theorem redirect (h : Abreast init seen kept (rule :: pending) kept' start) {seen' : List String}
    (hseen : seen ⊆ seen')
    (hsound : (⟨init, (kept' ++ firstRules seen' pending).map (·.redirect rule.name target),
      Expr.redirection rule.name target start⟩ : Grammar).Sound) :
    Abreast init seen' (kept.map (·.redirect rule.name target))
      (pending.map (·.redirect rule.name target)) (kept'.map (·.redirect rule.name target))
      (Expr.redirection rule.name target start) where
  sound := by rwa [firstRules_redirect, ← List.map_append]
  seen := by
    intro r hr
    obtain ⟨old, hold, rfl⟩ := List.mem_map.mp hr
    exact hseen (h.seen old hold)
  settled := by
    intro r hr
    obtain ⟨old, hold, rfl⟩ := List.mem_map.mp hr
    change (old.body.rename _).proxyTarget? = none
    rw [Expr.proxyTarget?_rename, h.settled old hold]
    rfl
  found := by
    intro r hr
    obtain ⟨old, hold, rfl⟩ := List.mem_map.mp hr
    have hname : (fun r : Rule => r.name == old.name) ∘ Rule.redirect rule.name target =
      fun r => r.name == old.name := rfl
    change (kept.map (·.redirect rule.name target)).find? (fun r => r.name == old.name) = _
    rw [List.find?_map, hname, h.found old hold]
    rfl
  precede := by
    have hsub : (kept ++ pending).Sublist (kept ++ rule :: pending) :=
      (List.sublist_cons_self rule pending).append_left kept
    rw [← List.map_append, List.pairwise_map]
    refine (h.precede.sublist hsub).imp fun {r proxy} hyield hproxy hname => ?_
    simp only [Rule.redirect, Expr.redirect, Expr.proxyTarget?_rename, Option.isSome_map]
      at hproxy ⊢
    exact hyield hproxy hname

/-- A proxy that is the first rule of its name goes from both. -/
theorem removeBoth (h : Abreast init seen kept (rule :: pending) kept' start)
    (hrule : rule.body.proxyTarget? = some target) (hnew : rule.name ∉ seen) :
    Abreast init (rule.name :: seen) (kept.map (·.redirect rule.name target))
      (pending.map (·.redirect rule.name target)) (kept'.map (·.redirect rule.name target))
      (Expr.redirection rule.name target start) := by
  have hsound := h.sound
  rw [firstRules_of_notMem hnew] at hsound
  have hproxy : (⟨init, kept' ++ rule :: firstRules (rule.name :: seen) pending, start⟩ :
      Grammar).HasProxy kept' rule (firstRules (rule.name :: seen) pending) target := ⟨rfl, hrule⟩
  exact h.redirect (List.subset_cons_self _ _) (hproxy.sound_bypass hsound)

/-- Behind another rule of its name, a proxy has a name that the second grammar has lost. -/
theorem undefined (h : Abreast init seen kept (rule :: pending) kept' start)
    (hrule : rule.body.proxyTarget? = some target) :
    ∀ r ∈ kept' ++ firstRules seen pending, rule.name ∈ seen → r.name ≠ rule.name := by
  intro r hr hold hname
  rcases List.mem_append.mp hr with hr | hr
  · have hmem : r ∈ kept := List.mem_of_find?_eq_some (h.found r hr)
    have hproxy := (List.pairwise_append.mp h.precede).2.2 r hmem rule List.mem_cons_self
      (by rw [hrule]; rfl) hname
    rw [h.settled r hmem] at hproxy
    nomatch hproxy
  · exact notMem_of_firstRules hr (hname ▸ hold)

/-- So nothing in the second grammar is redirected. -/
theorem redirect_eq_self (h : Abreast init seen kept (rule :: pending) kept' start)
    (hrule : rule.body.proxyTarget? = some target) (hold : rule.name ∈ seen) :
    (∀ r ∈ kept' ++ firstRules seen pending, r.redirect rule.name target = r) ∧
      Expr.redirection rule.name target start = start := by
  have hsound := h.sound
  rw [firstRules_of_mem hold] at hsound
  have hne : ∀ name,
      (⟨init, kept' ++ firstRules seen pending, start⟩ : Grammar).defines name = true →
        Expr.redirection rule.name target name = name := by
    intro name hname
    obtain ⟨r, hr, rfl⟩ := defines_iff.mp hname
    exact if_neg (h.undefined hrule r hr hold)
  refine ⟨fun r hr => ?_, hne start hsound.start⟩
  have hbody : r.body.redirect rule.name target = r.body :=
    r.body.rename_eq_self fun ref href =>
      hne ref.name (hsound.references ref (mem_references_iff.mpr ⟨r, hr, href⟩))
  rw [Rule.redirect, hbody]

theorem removeLater (h : Abreast init seen kept (rule :: pending) kept' start)
    (hrule : rule.body.proxyTarget? = some target) (hold : rule.name ∈ seen) :
    Abreast init seen (kept.map (·.redirect rule.name target))
      (pending.map (·.redirect rule.name target)) (kept'.map (·.redirect rule.name target))
      (Expr.redirection rule.name target start) := by
  obtain ⟨hrules, hstart⟩ := h.redirect_eq_self hrule hold
  refine h.redirect (List.Subset.refl _) ?_
  rw [List.map_congr_left hrules, List.map_id', hstart, ← firstRules_of_mem hold]
  exact h.sound

/-- At the end of both loops, the second grammar is a closed part of the first one. -/
theorem closedIn (h : Abreast init seen kept [] kept' start) :
    (⟨init, kept', start⟩ : Grammar).Sound ∧
      (⟨init, kept', start⟩ : Grammar).ClosedIn ⟨init, kept, start⟩ := by
  have hsound := h.sound
  rw [firstRules, List.append_nil] at hsound
  refine ⟨hsound, fun {name} hname => ?_, hsound.references⟩
  obtain ⟨r, hr, rfl⟩ := defines_iff.mp hname
  rw [find?_of_nodup hsound.names hr]
  exact (h.found r hr).symm

end Abreast

/-- What is left of the first rules without their proxies is sound, and under the condition a closed
part of what is left of all rules, with the same start. -/
theorem removeProxies_firsts (hg : g.firsts.Sound) (hprecede : g.ProxiesPrecede) :
    g.firsts.removeProxies.1.ClosedIn g.removeProxies.1 ∧
      g.firsts.removeProxies.1.start = g.removeProxies.1.start := by
  -- the second loop is carried along as what it still has to do
  have hend := removeProxies_invariant (g := g)
    (I := fun kept pending start => ∃ seen kept' removed,
      Abreast g.initializer seen kept pending kept' start ∧
        resolveProxies kept' (firstRules seen pending) start removed =
          resolveProxies [] g.firsts.rules g.firsts.start 0)
    ?keep ?remove ⟨[], [], 0, ⟨hg, nofun, nofun, nofun, hprecede⟩, rfl⟩
  case keep =>
    rintro kept pending start rule hrule ⟨seen, kept', removed, h, hloop⟩
    by_cases hold : rule.name ∈ seen
    · refine ⟨seen, kept', removed, h.keepLater hrule hold, ?_⟩
      rwa [firstRules_of_mem hold] at hloop
    · refine ⟨rule.name :: seen, kept' ++ [rule], removed, h.keepBoth hrule hold, ?_⟩
      rw [firstRules_of_notMem hold, resolveProxies, hrule] at hloop
      exact hloop
  case remove =>
    rintro kept pending start rule target hrule ⟨seen, kept', removed, h, hloop⟩
    by_cases hold : rule.name ∈ seen
    · refine ⟨seen, kept'.map (·.redirect rule.name target), removed, h.removeLater hrule hold, ?_⟩
      obtain ⟨hrules, hstart⟩ := h.redirect_eq_self hrule hold
      obtain ⟨hkept, hpending⟩ := List.forall_mem_append.mp hrules
      rw [firstRules_redirect, List.map_congr_left hkept, List.map_congr_left hpending, hstart,
        List.map_id', List.map_id', ← hloop, firstRules_of_mem hold]
    · refine ⟨rule.name :: seen, kept'.map (·.redirect rule.name target), removed + 1,
        h.removeBoth hrule hold, ?_⟩
      rw [firstRules_of_notMem hold, resolveProxies, hrule] at hloop
      rw [firstRules_redirect]
      exact hloop
  obtain ⟨seen, kept', removed, h, hloop⟩ := hend
  rw [firstRules, resolveProxies] at hloop
  have hfirsts : g.firsts.removeProxies.1 = ⟨g.initializer, kept', g.removeProxies.1.start⟩ := by
    rw [removeProxies, ← hloop]
    rfl
  rw [hfirsts]
  exact ⟨h.closedIn.2, rfl⟩

theorem codeSites_firsts_subset (g : Grammar) : g.firsts.codeSites ⊆ g.codeSites := by
  intro site hsite
  obtain ⟨rule, hrule, hsite⟩ := List.mem_flatMap.mp hsite
  exact List.mem_flatMap.mpr ⟨rule, (firstRules_sublist [] g.rules).subset hrule, hsite⟩

/-- A host that serves all rules serves the first ones. -/
theorem exists_matcher_firsts (hg : g.firsts.Sound) {h : Actions} {options : Options} {m : Matcher}
    (hm : g.removeProxies.1.matcher h options = .ok m) :
    ∃ m', g.firsts.removeProxies.1.matcher h options = .ok m' := by
  obtain ⟨-, hsound, -⟩ := hg.removeProxies
  obtain ⟨-, hoffers⟩ := exists_matcher_iff.mp ⟨m, hm⟩
  rw [codeSites_removeProxies] at hoffers
  refine exists_matcher_iff.mpr ⟨⟨hsound.references, hsound.start⟩, fun site hsite => ?_⟩
  rw [codeSites_removeProxies] at hsite
  exact hoffers site (g.codeSites_firsts_subset hsite)

/-- A matcher of a closed part with the start of the whole gives what a matcher of the whole gives,
from every start that it offers. -/
theorem ClosedIn.gives_iff (hclosed : g'.ClosedIn g) (hsame : g'.start = g.start)
    (hnames : g'.ruleNames.Nodup) (hchoosable : ∀ r ∈ g.rules, r.body.choosable = true)
    {h : Actions} {options : Options} {m m' : Matcher} (hm : g.matcher h options = .ok m)
    (hm' : g'.matcher h options = .ok m') {start : Option String} {i : Nat}
    (hstart : m'.startIndex start = .ok i) (input : String) (r : Except Matcher.Failure Value) :
    m.Gives input start r ↔ m'.Gives input start r := by
  have hchoosable' : ∀ r ∈ g'.rules, r.body.choosable = true := by
    intro r hr
    have hfind := hclosed.find?_eq (defines_iff.mpr ⟨r, hr, rfl⟩)
    rw [find?_of_nodup hnames hr] at hfind
    exact hchoosable r (List.mem_of_find?_eq_some hfind.symm)
  have hdefined : g'.defines (start.getD g'.start) = true := by
    rw [startIndex_of_matcher hm'] at hstart
    rw [← isSome_findIndex?]
    cases hindex : g'.findIndex? (start.getD g'.start) with
    | none =>
      rw [hindex] at hstart
      nomatch hstart
    | some _ => rfl
  obtain ⟨-, -, hoptions⟩ := parts_of_matcher hm
  obtain ⟨-, -, hoptions'⟩ := parts_of_matcher hm'
  rw [(adequate_of_matcher hm hchoosable).gives, (adequate_of_matcher hm' hchoosable').gives,
    hoptions, hoptions']
  exact (hclosed.means_iff h _ input hdefined hsame r).symm

end Grammar

/-- Of a grammar that compiles, the first rules of each name compile too, for every host that serves
the whole. The two matchers give the same results from every start that the second one offers,
unless some proxy stands behind a rule of its name that is none. -/
theorem compile_firsts {text : String} {options : Options} {c : Compiled}
    (hc : compile text options = .ok c) : ∃ g c', Grammar.parse text = .ok g ∧
      g.firsts.checkReferences = .ok () ∧ g.firsts.checkLeftRecursion = .ok () ∧
        g.firsts.compile options = .ok c' ∧
          ∀ h m, Matcher.bind c h options = .ok m → ∃ m', Matcher.bind c' h options = .ok m' ∧
            (g.ProxiesPrecede → ∀ input start r, (∃ i, m'.startIndex start = .ok i) →
              (m.Gives input start r ↔ m'.Gives input start r)) := by
  obtain ⟨g, hg, hcompile⟩ : ∃ g, checkedGrammar text = .ok g ∧ g.compile options = .ok c := by
    simpa only [compile, bind_eq_ok_iff, mapError_eq_ok_iff] using hc
  obtain ⟨hparse, hreferences, hleft⟩ := checkedGrammar_eq_ok_iff.mp hg
  have hformed := Grammar.wellFormed_of_parse hparse
  have hsound : g.firsts.Sound := Grammar.sound_firsts
    ⟨g.checkReferences_eq_ok_iff.mp hreferences, hformed.start⟩
    (Grammar.acyclic_of_checkLeftRecursion hleft)
  obtain ⟨hreferences', hleft'⟩ := (Grammar.sound_iff hsound.names hsound.start).mp hsound
  obtain ⟨-, hremoved, -⟩ := hsound.removeProxies
  obtain ⟨program', hp'⟩ := Grammar.exists_lower hremoved.references hremoved.start
  obtain ⟨c', hcompile'⟩ : ∃ c', g.firsts.compile options = .ok c' :=
    ⟨_, Grammar.compile_eq_ok_iff.mpr ⟨program', hp', rfl⟩⟩
  refine ⟨g, c', hparse, hreferences', hleft', hcompile', fun h m hbind => ?_⟩
  have hm := (Grammar.bind_eq_ok_iff_matcher hcompile).mp hbind
  obtain ⟨m', hm'⟩ := Grammar.exists_matcher_firsts hsound hm
  refine ⟨m', (Grammar.bind_eq_ok_iff_matcher hcompile').mpr hm', ?_⟩
  rintro hprecede input start r ⟨i, hstart⟩
  obtain ⟨hclosed, hsame⟩ := Grammar.removeProxies_firsts hsound hprecede
  exact hclosed.gives_iff hsame hremoved.names hformed.choosable_removeProxies hm hm' hstart input r

/-- Two rules named `a` that are none, and two proxies named `b`. -/
def repeatingText : String := "s=a b;a='x';a='y';b=c;b=s;c='z'"

/-- Its program, in which `b` has made way for `c`. -/
def repeatingProgram : Program where
  initializer := none
  rules := #[⟨"s", 4, .sequence 0 1 [.call 2 1, .call 3 3]⟩, ⟨"a", 1, .literal 0 "x" false "\"x\""⟩,
    ⟨"a", 1, .literal 0 "y" false "\"y\""⟩, ⟨"c", 1, .literal 0 "z" false "\"z\""⟩]
  start := 0
  code := #[]

theorem repeating_program : (checkedGrammar repeatingText).toOption.map (fun g =>
    (decide g.ProxiesPrecede, g.firsts.ruleNames, g.removeProxies.1.assignSlots.lower.toOption)) =
      some (true, ["s", "a", "b", "c"], some repeatingProgram) := by
  have hparse : Grammar.parse repeatingText = .ok ⟨none, [
      ⟨⟨0, 6⟩, "s", .sequence ⟨⟨2, 5⟩, none, none⟩ [.ruleRef ⟨⟨2, 3⟩, none, none⟩ "a",
        .ruleRef ⟨⟨4, 5⟩, none, none⟩ "b"], 0⟩,
      ⟨⟨6, 12⟩, "a", .literal ⟨⟨8, 11⟩, none, none⟩ "x" false, 0⟩,
      ⟨⟨12, 18⟩, "a", .literal ⟨⟨14, 17⟩, none, none⟩ "y" false, 0⟩,
      ⟨⟨18, 22⟩, "b", .ruleRef ⟨⟨20, 21⟩, none, none⟩ "c", 0⟩,
      ⟨⟨22, 26⟩, "b", .ruleRef ⟨⟨24, 25⟩, none, none⟩ "s", 0⟩,
      ⟨⟨26, 31⟩, "c", .literal ⟨⟨28, 31⟩, none, none⟩ "z" false, 0⟩], "s"⟩ := by
    decide +kernel
  rw [checkedGrammar, hparse]
  cbv

/-- Both matchers match the first `a` and the target of the first `b`. -/
theorem compile_firsts_repeating : ∃ g c c' m m', Grammar.parse repeatingText = .ok g ∧
    g.firsts.ruleNames = ["s", "a", "b", "c"] ∧ g.ProxiesPrecede ∧
      compile repeatingText {} = .ok c ∧ g.firsts.compile {} = .ok c' ∧
        Matcher.bind c .passthrough {} = .ok m ∧ Matcher.bind c' .passthrough {} = .ok m' ∧
          m.Gives "xz" none (.ok (.arr [.str "x", .str "z"])) ∧
            m'.Gives "xz" none (.ok (.arr [.str "x", .str "z"])) := by
  obtain ⟨g, hg, hfound⟩ := exists_checkedGrammar repeating_program
  simp only [Prod.mk.injEq, decide_eq_true_eq, toOption_eq_some_iff] at hfound
  obtain ⟨hprecede, hnames, hp⟩ := hfound
  have hc : compile repeatingText {} = .ok _ := compile_eq_ok_iff.mpr ⟨g, _, hg, hp, rfl⟩
  obtain ⟨g', c', hparse, -, -, hc', hbinds⟩ := compile_firsts hc
  obtain rfl := Except.ok.inj ((checkedGrammar_eq_ok_iff.mp hg).1.symm.trans hparse)
  have hgives : ∀ source, (⟨repeatingProgram, #[], {}, source⟩ : Matcher).Gives "xz" none
      (.ok (.arr [.str "x", .str "z"])) := fun source => ⟨nofun, 2, by cbv⟩
  obtain ⟨m', hm', hiff⟩ := hbinds .passthrough _ (bind_eq_ok.mpr ⟨[], rfl, rfl⟩)
  exact ⟨g, _, c', _, m', hparse, hnames, hprecede, hc, hc', bind_eq_ok.mpr ⟨[], rfl, rfl⟩, hm',
    hgives _, (hiff hprecede "xz" none _ ⟨_, rfl⟩).mp (hgives _)⟩

/-- A proxy named `a` behind a rule of that name that is none. -/
def hiddenText : String := "s='q' a;a='x';a=b;b='y'"

/-- The program of the text, if the second element of `s` calls the rule with this number. -/
def hiddenProgram (rule : Nat) : Program where
  initializer := none
  rules := #[⟨"s", 4, .sequence 0 1 [.literal 2 "q" false "\"q\"", .call 3 rule]⟩,
    ⟨"a", 1, .literal 0 "x" false "\"x\""⟩, ⟨"b", 1, .literal 0 "y" false "\"y\""⟩]
  start := 0
  code := #[]

theorem hidden_programs : (checkedGrammar hiddenText).toOption.map (fun g =>
    (g.removeProxies.1.assignSlots.lower.toOption,
      g.firsts.removeProxies.1.assignSlots.lower.toOption)) =
      some (some (hiddenProgram 2), some (hiddenProgram 1)) := by
  have hparse : Grammar.parse hiddenText = .ok ⟨none, [
      ⟨⟨0, 8⟩, "s", .sequence ⟨⟨2, 7⟩, none, none⟩ [.literal ⟨⟨2, 6⟩, none, none⟩ "q" false,
        .ruleRef ⟨⟨6, 7⟩, none, none⟩ "a"], 0⟩,
      ⟨⟨8, 14⟩, "a", .literal ⟨⟨10, 13⟩, none, none⟩ "x" false, 0⟩,
      ⟨⟨14, 18⟩, "a", .ruleRef ⟨⟨16, 17⟩, none, none⟩ "b", 0⟩,
      ⟨⟨18, 23⟩, "b", .literal ⟨⟨20, 23⟩, none, none⟩ "y" false, 0⟩], "s"⟩ := by
    decide +kernel
  rw [checkedGrammar, hparse]
  cbv

/-- The second `a` leads the reference in `s` to `b`, although the first `a` is what it means.
Without the second one it means that. -/
theorem compile_firsts_hidden : ∃ g c c' m m', Grammar.parse hiddenText = .ok g ∧
    compile hiddenText {} = .ok c ∧ g.firsts.compile {} = .ok c' ∧
      Matcher.bind c .passthrough {} = .ok m ∧ Matcher.bind c' .passthrough {} = .ok m' ∧
        m'.Gives "qx" none (.ok (.arr [.str "q", .str "x"])) ∧
          ¬ m.Gives "qx" none (.ok (.arr [.str "q", .str "x"])) := by
  obtain ⟨g, hg, hfound⟩ := exists_checkedGrammar hidden_programs
  simp only [Prod.mk.injEq, toOption_eq_some_iff] at hfound
  obtain ⟨hp, hp'⟩ := hfound
  have hgives : ∀ source, (⟨hiddenProgram 1, #[], {}, source⟩ : Matcher).Gives "qx" none
      (.ok (.arr [.str "q", .str "x"])) := fun source => ⟨by rintro ⟨⟩, 2, by cbv⟩
  have hmismatch : ∀ source, (⟨hiddenProgram 2, #[], {}, source⟩ : Matcher).Gives "qx" none
      (.error (.parse (.mismatch ⟨["\"y\""], some "x", 1, 1, 2⟩))) :=
    fun source => ⟨by rintro ⟨⟩, 2, by cbv⟩
  refine ⟨g, _, _, _, _, (checkedGrammar_eq_ok_iff.mp hg).1,
    compile_eq_ok_iff.mpr ⟨g, _, hg, hp, rfl⟩, Grammar.compile_eq_ok_iff.mpr ⟨_, hp', rfl⟩,
    bind_eq_ok.mpr ⟨[], rfl, rfl⟩, bind_eq_ok.mpr ⟨[], rfl, rfl⟩, hgives _, fun h => ?_⟩
  cases (hmismatch _).unique h

end Packrat
