import Mathlib.Logic.Relation
import Packrat.Grammar.LeftRecursion

/-!
# What the check for left recursion decides

The check is a depth-first search. What it searches for can be said without it: `Closes` is a chain
of leftmost references that leads back to a name on its path. The search finds one exactly when
there is one, although it enters no rule of a name that it has entered before: a path holds those
names already, so any way back to them closes the chain there and then.

For a grammar whose rule names are distinct, chains from a rule are walks in the graph of leftmost
references, and the check is passed exactly by the grammars whose graph has no cycle.

## Main results

* `closingReference_isSome_iff`: the search finds a closing reference if there is one
* `acyclic_of_checkLeftRecursion`: a grammar that passes the check has no leftmost cycle
* `checkLeftRecursion_eq_ok_iff`: with distinct names, the grammars without one are those that pass
-/

namespace Packrat

/-- A chain of leftmost references, beginning with one of `refs`, whose last one `r` leads back to a
name on the path. A name means the first rule that has it. -/
inductive Closes (rules : List Rule) : List String → List Reference → Reference → Prop
  | here {path : List String} {refs : List Reference} {r : Reference} :
      r ∈ refs → r.name ∈ path → Closes rules path refs r
  | step {path : List String} {refs : List Reference} {s r : Reference} {rule : Rule} :
      s ∈ refs → s.name ∉ path → rules.find? (·.name == s.name) = some rule →
        Closes rules (s.name :: path) rule.body.leftmost r → Closes rules path refs r

theorem Closes.mono {rules : List Rule} {path : List String} {refs refs' : List Reference}
    {r : Reference} (h : Closes rules path refs r) (hsub : ∀ s ∈ refs, s ∈ refs') :
    Closes rules path refs' r := by
  cases h with
  | here hr hpath => exact .here (hsub _ hr) hpath
  | step hs hpath hrule hclose => exact .step (hsub _ hs) hpath hrule hclose

/-- Leaving out the rules of one name does not hide the rules of another. -/
theorem find?_rulesExcept {name other : String} (hne : other ≠ name) (rules : List Rule) :
    (rulesExcept name rules).find? (·.name == other) = rules.find? (·.name == other) := by
  rw [rulesExcept, List.find?_filter]
  congr 1
  funext r
  by_cases h : r.name = other
  · simp [h, hne]
  · simp [h]

/-- The search finds a reference that closes a chain, and it misses none. The rules it still knows
are those it may have to enter. -/
theorem closingReference_spec (rules known : List Rule) (path : List String)
    (refs : List Reference)
    (hknown : ∀ name ∉ path, known.find? (·.name == name) = rules.find? (·.name == name)) :
    (∀ r, closingReference known path refs = some r → Closes rules path refs r) ∧
      (closingReference known path refs = none → ∀ r, ¬ Closes rules path refs r) := by
  induction known, path, refs using closingReference.induct with
  | case1 known path =>
    refine ⟨fun r hr => ?_, fun _ r h => ?_⟩
    · rw [closingReference] at hr
      nomatch hr
    · cases h with
      | here hr _ => nomatch hr
      | step hs _ _ _ => nomatch hs
  | case2 known path s refs hs =>
    rw [closingReference, if_pos hs]
    refine ⟨fun r hr => ?_, nofun⟩
    obtain rfl := Option.some.inj hr
    exact .here List.mem_cons_self hs
  | case3 known path s refs hs hnone ih =>
    rw [closingReference, if_neg hs, hnone]
    refine ⟨fun r hr => ((ih hknown).1 r hr).mono fun t => List.mem_cons_of_mem _, ?_⟩
    intro hr r hclose
    cases hclose with
    | here hmem hpath =>
      rcases List.mem_cons.mp hmem with rfl | hmem
      · exact hs hpath
      · exact (ih hknown).2 hr r (.here hmem hpath)
    | step hmem hpath hrule hclose =>
      rcases List.mem_cons.mp hmem with rfl | hmem
      · rw [← hknown _ hs, hnone] at hrule
        nomatch hrule
      · exact (ih hknown).2 hr r (.step hmem hpath hrule hclose)
  | case4 known path s refs hs rule hrule ihbody ih =>
    rw [closingReference, if_neg hs, hrule]
    have hrule' : rules.find? (·.name == s.name) = some rule := (hknown _ hs).symm.trans hrule
    have hbody := ihbody fun name hname => by
      rw [List.mem_cons, not_or] at hname
      rw [find?_rulesExcept hname.1, hknown name hname.2]
    refine ⟨fun r hr => ?_, ?_⟩
    · rcases Option.or_eq_some_iff.mp hr with hr | ⟨-, hr⟩
      · exact .step List.mem_cons_self hs hrule' (hbody.1 r hr)
      · exact ((ih hknown).1 r hr).mono fun t => List.mem_cons_of_mem _
    · intro hr r hclose
      obtain ⟨hnone, hnone'⟩ := Option.or_eq_none_iff.mp hr
      cases hclose with
      | here hmem hpath =>
        rcases List.mem_cons.mp hmem with rfl | hmem
        · exact hs hpath
        · exact (ih hknown).2 hnone' r (.here hmem hpath)
      | step hmem hpath hrule₂ hclose =>
        rcases List.mem_cons.mp hmem with rfl | hmem
        · rw [hrule'] at hrule₂
          obtain rfl := Option.some.inj hrule₂
          exact hbody.2 hnone r hclose
        · exact (ih hknown).2 hnone' r (.step hmem hpath hrule₂ hclose)

/-- The search finds a closing reference if there is one. -/
theorem closingReference_isSome_iff (rules : List Rule) (path : List String)
    (refs : List Reference) :
    (closingReference rules path refs).isSome ↔ ∃ r, Closes rules path refs r := by
  obtain ⟨hsome, hnone⟩ := closingReference_spec rules rules path refs fun _ _ => rfl
  cases h : closingReference rules path refs with
  | none => simpa using hnone h
  | some r => simpa using ⟨r, hsome r h⟩

/-! ### Cycles -/

namespace Grammar

/-- The body of the first rule of a name has a leftmost reference to another. -/
def Leftmost (g : Grammar) (a b : String) : Prop :=
  ∃ rule, g.find? a = some rule ∧ ∃ r ∈ rule.body.leftmost, r.name = b

/-- No rule reaches itself through leftmost references. -/
def Acyclic (g : Grammar) : Prop := ∀ name, ¬ Relation.TransGen g.Leftmost name name

/-- With distinct names, every rule is the first one of its name. -/
theorem find?_of_nodup {g : Grammar} (hg : g.ruleNames.Nodup) {r : Rule} (hr : r ∈ g.rules) :
    g.find? r.name = some r := by
  rw [find?, List.find?_eq_some_iff_append]
  refine ⟨by simp, ?_⟩
  obtain ⟨before, after, heq⟩ := List.append_of_mem hr
  refine ⟨before, after, heq, ?_⟩
  intro t ht
  rw [ruleNames, heq, List.map_append, List.map_cons, List.nodup_append] at hg
  have hne := hg.2.2 t.name (List.mem_map_of_mem ht) r.name List.mem_cons_self
  simpa using hne

/-- A walk back to the path closes a chain, at the latest where it arrives. -/
theorem closes_of_transGen {g : Grammar} {a b : String} (h : Relation.TransGen g.Leftmost a b)
    {rule : Rule} (hrule : g.find? a = some rule) {path : List String} (hb : b ∈ path) :
    ∃ r, Closes g.rules path rule.body.leftmost r := by
  induction h using Relation.TransGen.head_induction_on generalizing path rule with
  | single hab =>
    obtain ⟨rule', hrule', r, hr, rfl⟩ := hab
    obtain rfl := Option.some.inj (hrule.symm.trans hrule')
    exact ⟨r, .here hr hb⟩
  | @head a c hac hcb ih =>
    obtain ⟨rule', hrule', s, hs, rfl⟩ := hac
    obtain rfl := Option.some.inj (hrule.symm.trans hrule')
    by_cases hpath : s.name ∈ path
    · exact ⟨s, .here hs hpath⟩
    · obtain ⟨_, ⟨next, hnext, -⟩, -⟩ := Relation.TransGen.head'_iff.mp hcb
      obtain ⟨r, hr⟩ := ih hnext (List.mem_cons_of_mem _ hb)
      exact ⟨r, .step hs hpath hnext hr⟩

/-- A chain that closes is a walk, and the part of it behind the name it leads back to is a cycle.
-/
theorem transGen_of_closes {g : Grammar} {path : List String} {refs : List Reference}
    {r : Reference} (h : Closes g.rules path refs r) {current : String}
    (hrefs : ∀ s ∈ refs, g.Leftmost current s.name)
    (hpath : ∀ name ∈ path, Relation.ReflTransGen g.Leftmost name current) :
    ∃ name, Relation.TransGen g.Leftmost name name := by
  induction h generalizing current with
  | here hr hmem => exact ⟨_, .tail' (hpath _ hmem) (hrefs _ hr)⟩
  | @step path refs s r rule hs _ hrule _ ih =>
    have hbody : ∀ t ∈ rule.body.leftmost, g.Leftmost s.name t.name :=
      fun t ht => ⟨rule, hrule, t, ht, rfl⟩
    refine ih hbody ?_
    intro name hname
    rcases List.mem_cons.mp hname with rfl | hname
    · exact .refl
    · exact (hpath name hname).tail (hrefs s hs)

/-- The check is passed when no rule begins a chain that leads back to itself or to a name on the
way. -/
theorem checkLeftRecursion_eq_ok_iff_closes {g : Grammar} : g.checkLeftRecursion = .ok () ↔
    ∀ rule ∈ g.rules, ∀ r, ¬ Closes g.rules [rule.name] rule.body.leftmost r := by
  have hsearch : ∀ rule : Rule, closingReference g.rules [rule.name] rule.body.leftmost = none ↔
      ∀ r, ¬ Closes g.rules [rule.name] rule.body.leftmost r := by
    intro rule
    rw [← not_exists, ← closingReference_isSome_iff, Option.not_isSome_iff_eq_none]
  unfold checkLeftRecursion
  split
  · next r h =>
    obtain ⟨rule, hrule, hr⟩ := List.exists_of_findSome?_eq_some h
    refine ⟨nofun, fun hall => ?_⟩
    rw [(hsearch rule).mpr (hall rule hrule)] at hr
    nomatch hr
  · next h =>
    refine ⟨fun _ rule hrule => (hsearch rule).mp ?_, fun _ => rfl⟩
    exact List.findSome?_eq_none_iff.mp h rule hrule

/-- A grammar that passes the check has no leftmost cycle, whether or not names are distinct. -/
theorem acyclic_of_checkLeftRecursion {g : Grammar} (hg : g.checkLeftRecursion = .ok ()) :
    g.Acyclic := by
  intro name hcycle
  obtain ⟨_, ⟨rule, hrule, -⟩, -⟩ := Relation.TransGen.head'_iff.mp hcycle
  have hname : rule.name = name := by simpa using List.find?_some hrule
  obtain ⟨r, hr⟩ := closes_of_transGen hcycle hrule (List.mem_singleton.mpr rfl)
  exact checkLeftRecursion_eq_ok_iff_closes.mp hg rule (List.mem_of_find?_eq_some hrule) r
    (hname ▸ hr)

/-- With distinct rule names, the check for left recursion is passed exactly by the grammars without
a leftmost cycle. -/
theorem checkLeftRecursion_eq_ok_iff {g : Grammar} (hg : g.ruleNames.Nodup) :
    g.checkLeftRecursion = .ok () ↔ g.Acyclic := by
  refine ⟨acyclic_of_checkLeftRecursion, fun hacyclic => ?_⟩
  rw [checkLeftRecursion_eq_ok_iff_closes]
  intro rule hrule r hr
  have hfind := find?_of_nodup hg hrule
  obtain ⟨name, hname⟩ := transGen_of_closes hr (fun s hs => ⟨rule, hfind, s, hs, rfl⟩)
    fun name hname => List.mem_singleton.mp hname ▸ .refl
  exact hacyclic name hname

end Grammar

end Packrat
