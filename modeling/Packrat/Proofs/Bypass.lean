import Mathlib.Data.List.Nodup
import Packrat.Grammar.Proxy
import Packrat.Proofs.LeftRecursion

/-!
# Leaving out one rule

Removing proxies is a sequence of single removals: one rule goes, and every reference to its name,
the start included, is redirected to its target. A removal touches every other rule, so facts about
the rule list have to be carried from one removal to the next. `Sound` collects them: distinct
names, references and a start that name rules, no leftmost cycle. A single removal keeps it
(`Sound.bypass`), provided that the rule was a proxy: then a leftmost reference of the new grammar
is one of the old grammar, or two of them with the proxy between.

The target of a proxy is never the proxy itself, and this is the one place where the absence of
cycles matters: a proxy of itself would leave its references dangling.

## Main results

* `Sound.bypass`: what the checks ensure survives a removal
* `sound_iff`: what the checks ensure
-/

namespace Packrat

/-! ### Redirected references -/

namespace Expr

theorem referencesAll_renameAll {f : String → String} {items : List Expr}
    (ih : ∀ e ∈ items, (e.rename f).references = e.references.map fun r => ⟨f r.name, r.span⟩) :
    referencesAll (renameAll f items) =
      (referencesAll items).map fun r => ⟨f r.name, r.span⟩ := by
  induction items with
  | nil => rfl
  | cons e es ihes =>
    rw [renameAll, referencesAll, referencesAll, List.map_append, ih e List.mem_cons_self,
      ihes fun e he => ih e (List.mem_cons_of_mem _ he)]

theorem references_rename (f : String → String) (e : Expr) :
    (e.rename f).references = e.references.map fun r => ⟨f r.name, r.span⟩ := by
  induction e using Expr.inductionOn with
  | choice i items ih | sequence i items ih => exact referencesAll_renameAll ih
  | named _ _ _ ih | action _ _ _ _ ih | labeled _ _ _ ih | lookahead _ _ _ ih | optional _ _ ih
  | repeated _ _ _ ih => exact ih
  | _ => rfl

theorem leftmostAll_renameAll {f : String → String} {items : List Expr}
    (ih : ∀ e ∈ items, (e.rename f).leftmost = e.leftmost.map fun r => ⟨f r.name, r.span⟩) :
    leftmostAll (renameAll f items) = (leftmostAll items).map fun r => ⟨f r.name, r.span⟩ := by
  induction items with
  | nil => rfl
  | cons e es ihes =>
    rw [renameAll, leftmostAll, leftmostAll, List.map_append, ih e List.mem_cons_self,
      ihes fun e he => ih e (List.mem_cons_of_mem _ he)]

theorem leftmost_rename (f : String → String) (e : Expr) :
    (e.rename f).leftmost = e.leftmost.map fun r => ⟨f r.name, r.span⟩ := by
  induction e using Expr.inductionOn with
  | choice i items ih => exact leftmostAll_renameAll ih
  | sequence i items ih =>
    cases items with
    | nil => rfl
    | cons e es => exact ih e List.mem_cons_self
  | named _ _ _ ih | action _ _ _ _ ih | labeled _ _ _ ih | lookahead _ _ _ ih | optional _ _ ih
  | repeated _ _ _ ih => exact ih
  | _ => rfl

/-- Names that stay as they are leave the expression as it is. -/
theorem rename_eq_self {f : String → String} (e : Expr)
    (h : ∀ r ∈ e.references, f r.name = r.name) : e.rename f = e := by
  induction e using Expr.inductionOn with
  | choice i items ih | sequence i items ih =>
    rw [references, referencesAll_eq_flatMap] at h
    have hitems : ∀ e ∈ items, e.rename f = e := fun e he =>
      ih e he fun r hr => h r (List.mem_flatMap_of_mem he hr)
    rw [rename, renameAll_eq_map, List.map_congr_left hitems, List.map_id']
  | named _ _ _ ih | action _ _ _ _ ih | labeled _ _ _ ih | lookahead _ _ _ ih | optional _ _ ih
  | repeated _ _ _ ih => rw [rename, ih h]
  | ruleRef i name => rw [rename, h ⟨name, i.span⟩ (List.mem_singleton.mpr rfl)]
  | _ => rfl

/-- Renaming makes no proxies and unmakes none. -/
theorem proxyTarget?_rename (f : String → String) (e : Expr) :
    (e.rename f).proxyTarget? = e.proxyTarget?.map f := by
  cases e <;> rfl

theorem proxyTarget?_eq_some_iff {e : Expr} {target : String} :
    e.proxyTarget? = some target ↔ ∃ i, e = .ruleRef i target := by
  cases e <;> simp [proxyTarget?]

end Expr

namespace Grammar

variable {g : Grammar}

/-! ### What the checks ensure -/

/-- A leftmost reference of a redirected rule was one before, maybe under another name. -/
theorem exists_of_mem_leftmost_redirect {rule : Rule} {source target : String} {ref : Reference}
    (h : ref ∈ (rule.redirect source target).body.leftmost) :
    ∃ old ∈ rule.body.leftmost, ref.name = Expr.redirection source target old.name := by
  rw [Rule.redirect, Expr.redirect, Expr.leftmost_rename] at h
  obtain ⟨old, hold, rfl⟩ := List.mem_map.mp h
  exact ⟨old, hold, rfl⟩

/-- A grammar that passes both checks, with distinct names and a start that names a rule. -/
structure Sound (g : Grammar) : Prop where
  names : g.ruleNames.Nodup
  references : ∀ r ∈ g.references, g.defines r.name = true
  acyclic : g.Acyclic
  start : g.defines g.start = true

theorem sound_iff (hnames : g.ruleNames.Nodup) (hstart : g.defines g.start = true) :
    g.Sound ↔ g.checkReferences = .ok () ∧ g.checkLeftRecursion = .ok () := by
  rw [checkReferences_eq_ok_iff, checkLeftRecursion_eq_ok_iff hnames]
  constructor
  · intro h
    exact ⟨h.references, h.acyclic⟩
  · rintro ⟨href, hacyclic⟩
    exact ⟨hnames, href, hacyclic, hstart⟩

theorem mem_references_iff {ref : Reference} :
    ref ∈ g.references ↔ ∃ rule ∈ g.rules, ref ∈ rule.body.references := List.mem_flatMap

/-! ### One removal -/

/-- The grammar of the remaining rules, with references to the name of a proxy redirected to its
target. -/
def bypass (g : Grammar) (rest : List Rule) (source target : String) : Grammar :=
  { g with
    rules := rest.map (·.redirect source target)
    start := Expr.redirection source target g.start }

/-- A rule of the grammar, given with its neighbours, that stands for another one. -/
structure HasProxy (g : Grammar) (before : List Rule) (proxy : Rule) (after : List Rule)
    (target : String) : Prop where
  rules : g.rules = before ++ proxy :: after
  target : proxy.body.proxyTarget? = some target

namespace HasProxy

variable {before after : List Rule} {proxy : Rule} {target : String}

theorem mem (h : g.HasProxy before proxy after target) : proxy ∈ g.rules := by
  rw [h.rules]
  exact List.mem_append_right _ List.mem_cons_self

theorem body (h : g.HasProxy before proxy after target) : ∃ i, proxy.body = .ruleRef i target :=
  Expr.proxyTarget?_eq_some_iff.mp h.target

/-- The target is referred to. -/
theorem exists_mem_references (h : g.HasProxy before proxy after target) :
    ∃ span, ⟨target, span⟩ ∈ g.references := by
  obtain ⟨i, hbody⟩ := h.body
  refine ⟨i.span, mem_references_iff.mpr ⟨proxy, h.mem, ?_⟩⟩
  rw [hbody]
  exact List.mem_singleton.mpr rfl

/-- A walk leads from a proxy to its target. -/
theorem leftmost (h : g.HasProxy before proxy after target) (hg : g.Sound) :
    g.Leftmost proxy.name target := by
  obtain ⟨i, hbody⟩ := h.body
  refine ⟨proxy, find?_of_nodup hg.names h.mem, ⟨target, i.span⟩, ?_, rfl⟩
  rw [hbody]
  exact List.mem_singleton.mpr rfl

theorem target_ne (h : g.HasProxy before proxy after target) (hg : g.Sound) :
    target ≠ proxy.name := by
  intro heq
  have hedge := h.leftmost hg
  rw [heq] at hedge
  exact hg.acyclic _ (.single hedge)

theorem mem_rules_iff (h : g.HasProxy before proxy after target) {rule : Rule} :
    rule ∈ g.rules ↔ rule = proxy ∨ rule ∈ before ++ after := by
  rw [h.rules, List.mem_append, List.mem_append, List.mem_cons, or_left_comm]

/-- A reference behind a removal was one before, maybe under another name. -/
theorem exists_of_mem_references (h : g.HasProxy before proxy after target) {ref : Reference}
    (hmem : ref ∈ (g.bypass (before ++ after) proxy.name target).references) :
    ∃ old ∈ g.references, ref.name = Expr.redirection proxy.name target old.name := by
  obtain ⟨_, hrule', hmem⟩ := mem_references_iff.mp hmem
  obtain ⟨rule, hrule, rfl⟩ := List.mem_map.mp hrule'
  rw [Rule.redirect, Expr.redirect, Expr.references_rename] at hmem
  obtain ⟨old, hold, rfl⟩ := List.mem_map.mp hmem
  exact ⟨old, mem_references_iff.mpr ⟨rule, h.mem_rules_iff.mpr (.inr hrule), hold⟩, rfl⟩

/-- The names that are left are the other ones. -/
theorem defines_bypass (h : g.HasProxy before proxy after target) (hg : g.Sound) (name : String) :
    (g.bypass (before ++ after) proxy.name target).defines name = true ↔
      g.defines name = true ∧ name ≠ proxy.name := by
  have hnames := hg.names
  rw [ruleNames, h.rules, List.map_append, List.map_cons] at hnames
  have hfresh : ∀ rule ∈ before ++ after, rule.name ≠ proxy.name := by
    intro rule hrule heq
    have hmem : proxy.name ∈ (before ++ after).map (·.name) := heq ▸ List.mem_map_of_mem hrule
    rw [List.map_append] at hmem
    exact (List.nodup_cons.mp (List.nodup_middle.mp hnames)).1 hmem
  rw [defines_iff, defines_iff]
  constructor
  · rintro ⟨_, hmem, rfl⟩
    obtain ⟨rule, hrule, rfl⟩ := List.mem_map.mp hmem
    exact ⟨⟨rule, h.mem_rules_iff.mpr (.inr hrule), rfl⟩, hfresh rule hrule⟩
  · rintro ⟨⟨rule, hrule, rfl⟩, hne⟩
    rcases h.mem_rules_iff.mp hrule with rfl | hrule
    · exact absurd rfl hne
    · exact ⟨_, List.mem_map_of_mem hrule, rfl⟩

/-- A redirected name is left if the name was known. -/
theorem defines_redirection (h : g.HasProxy before proxy after target) (hg : g.Sound)
    {name : String} (hname : g.defines name = true) :
    (g.bypass (before ++ after) proxy.name target).defines
      (Expr.redirection proxy.name target name) = true := by
  rw [h.defines_bypass hg, Expr.redirection]
  split
  · obtain ⟨span, hmem⟩ := h.exists_mem_references
    exact ⟨hg.references ⟨target, span⟩ hmem, h.target_ne hg⟩
  · next hne => exact ⟨hname, hne⟩

/-- The target is left. -/
theorem defines_target (h : g.HasProxy before proxy after target) (hg : g.Sound) :
    (g.bypass (before ++ after) proxy.name target).defines target = true := by
  have hproxy := h.defines_redirection hg (defines_iff.mpr ⟨proxy, h.mem, rfl⟩)
  rwa [Expr.redirection, if_pos rfl] at hproxy

/-- A step of a walk leads where it led before, or there through the proxy. -/
theorem transGen_of_redirected (hlead : g.Leftmost proxy.name target) {a b : String}
    (hedge : g.Leftmost a b) :
    Relation.TransGen g.Leftmost a (Expr.redirection proxy.name target b) := by
  rw [Expr.redirection]
  split
  · next heq => exact .tail (.single (heq ▸ hedge)) hlead
  · exact .single hedge

/-- A leftmost reference behind a removal was one before, or led through the proxy. -/
theorem transGen_of_leftmost (h : g.HasProxy before proxy after target) (hg : g.Sound)
    {a b : String} (hab : (g.bypass (before ++ after) proxy.name target).Leftmost a b) :
    Relation.TransGen g.Leftmost a b := by
  obtain ⟨rule', hfind, r', hr', rfl⟩ := hab
  obtain ⟨rule, hrule, rfl⟩ := List.mem_map.mp (List.mem_of_find?_eq_some hfind)
  have hname : rule.name = a := by simpa [Rule.redirect] using List.find?_some hfind
  obtain ⟨r, hr, heq⟩ := exists_of_mem_leftmost_redirect hr'
  have hedge : g.Leftmost a r.name := by
    refine ⟨rule, ?_, r, hr, rfl⟩
    rw [← hname]
    exact find?_of_nodup hg.names (h.mem_rules_iff.mpr (.inr hrule))
  rw [heq]
  exact transGen_of_redirected (h.leftmost hg) hedge

/-- A removal keeps what the checks ensure. -/
theorem sound_bypass (h : g.HasProxy before proxy after target) (hg : g.Sound) :
    (g.bypass (before ++ after) proxy.name target).Sound where
  names := by
    have hsub : (before ++ after).Sublist g.rules := by
      rw [h.rules]
      exact (List.Sublist.refl before).append (List.sublist_cons_self proxy after)
    have hnames : (g.bypass (before ++ after) proxy.name target).ruleNames =
        (before ++ after).map (·.name) := by
      rw [ruleNames, bypass, List.map_map]
      rfl
    rw [hnames]
    exact hg.names.sublist (hsub.map _)
  references := by
    intro ref hmem
    obtain ⟨old, hold, heq⟩ := h.exists_of_mem_references hmem
    rw [heq]
    exact h.defines_redirection hg (hg.references old hold)
  acyclic := by
    intro name hcycle
    exact hg.acyclic name (.closed (fun _ _ => h.transGen_of_leftmost hg) _ _ hcycle)
  start := h.defines_redirection hg hg.start

end HasProxy

end Grammar

end Packrat
