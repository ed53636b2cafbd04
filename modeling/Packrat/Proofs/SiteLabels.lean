import Packrat.Proofs.CodeSites
import Packrat.Proofs.Extents
import Packrat.Proofs.Holders

/-!
# Labels of code sites

A code site lists the labels in view of its code block. They come from the scopes that are open
there, so each of them is a label that the rule has, and since a label that is bound again keeps its
place, none is listed twice.

Which labels a site lists is settled together with the slots, and removing proxies does not change
it: a reference binds nothing, whatever it is called.

## Main results

* `Scope.nodup_inView`: labels in view have different names
* `Grammar.codeSites_assignSlots_removeProxies`: removing proxies changes no site
* `Grammar.lists_of_lower`: what a site of a program lists
-/

namespace Packrat

namespace Scope

variable {α : Type}

theorem nodup_rebind {labels : Scope α} (h : (labels.map Prod.fst).Nodup) (name : String) (a : α) :
    ((labels.rebind name a).map Prod.fst).Nodup := by
  rw [map_fst_rebind]
  split
  · exact h
  · next hname =>
    rw [List.nodup_append]
    refine ⟨h, List.nodup_singleton _, fun old hold new hnew => ?_⟩
    obtain rfl := List.mem_singleton.mp hnew
    exact ne_of_mem_of_not_mem hold hname

theorem nodup_bindAll {seen : Scope α} (h : (seen.map Prod.fst).Nodup) (labels : Scope α) :
    ((bindAll seen labels).map Prod.fst).Nodup := by
  induction labels generalizing seen with
  | nil => exact h
  | cons label labels ih => exact ih (nodup_rebind h label.1 label.2)

/-- Labels in view have different names. -/
theorem nodup_inView (scopes : List (Scope α)) : ((inView scopes).map Prod.fst).Nodup :=
  @nodup_bindAll α [] List.nodup_nil _

/-- The names of some labels, as far as they have a property, keep it when one of such a name is
bound. -/
theorem forall_rebind {P : String → Prop} {labels : Scope α} (h : ∀ label ∈ labels, P label.1)
    {name : String} (hname : P name) (a : α) : ∀ label ∈ labels.rebind name a, P label.1 := by
  have hnames : ∀ n ∈ (labels.rebind name a).map Prod.fst, P n := by
    rw [map_fst_rebind]
    split
    · exact List.forall_mem_map.mpr h
    · exact List.forall_mem_append.mpr
        ⟨List.forall_mem_map.mpr h, List.forall_mem_singleton.mpr hname⟩
  exact List.forall_mem_map.mp hnames

theorem forall_bindAll {P : String → Prop} {seen labels : Scope α}
    (hseen : ∀ label ∈ seen, P label.1) (h : ∀ label ∈ labels, P label.1) :
    ∀ label ∈ bindAll seen labels, P label.1 := by
  induction labels generalizing seen with
  | nil => exact hseen
  | cons label labels ih =>
    obtain ⟨hlabel, hlabels⟩ := List.forall_mem_cons.mp h
    exact ih (forall_rebind hseen hlabel label.2) hlabels

theorem forall_inView {P : String → Prop} {scopes : List (Scope α)}
    (h : ∀ scope ∈ scopes, ∀ label ∈ scope, P label.1) : ∀ label ∈ inView scopes, P label.1 := by
  refine forall_bindAll nofun fun label hlabel => ?_
  obtain ⟨scope, hscope, hlabel⟩ := List.mem_flatten.mp hlabel
  exact h scope (List.mem_reverse.mp hscope) label hlabel

end Scope

/-- The labels of a code site differ from one another, and each has the property. -/
structure CodeSite.Lists (P : String → Prop) (site : CodeSite) : Prop where
  nodup : site.labels.Nodup
  names : ∀ label ∈ site.labels, P label

/-! ### Labels of open scopes -/

namespace Pool

variable {P : String → Prop} {p : Pool}

/-- The labels of all open scopes have a property. -/
def Named (P : String → Prop) (p : Pool) : Prop := ∀ scope ∈ p.scopes, ∀ label ∈ scope, P label.1

theorem Named.of_scopes {q : Pool} (h : p.Named P) (hscopes : q.scopes = p.scopes) : q.Named P := by
  rwa [Named, hscopes]

theorem Named.acquire (h : p.Named P) : p.acquire.2.Named P :=
  h.of_scopes p.acquire_spec.2.2.2.1

theorem Named.openScope (h : p.Named P) : p.openScope.Named P :=
  List.forall_mem_cons.mpr ⟨nofun, h⟩

theorem Named.closeScope (h : p.Named P) : p.closeScope.Named P := by
  intro scope hscope
  rw [scopes_closeScope] at hscope
  exact h scope (List.mem_of_mem_tail hscope)

theorem Named.bindLabel (h : p.Named P) {label : String} (hlabel : P label) (slot : Nat) :
    (p.bindLabel label slot).Named P := by
  cases hscopes : p.scopes with
  | nil =>
    refine h.of_scopes ?_
    have hretain : (p.retain slot).scopes = [] := hscopes
    rw [Pool.bindLabel, hretain, hscopes]
    exact hretain
  | cons scope outer =>
    rw [Named, scopes_bindLabel p label slot hscopes]
    rw [Named, hscopes] at h
    obtain ⟨hscope, houter⟩ := List.forall_mem_cons.mp h
    exact List.forall_mem_cons.mpr ⟨Scope.forall_rebind hscope hlabel slot, houter⟩

/-- A site that lists the labels in view lists different labels of open scopes. -/
theorem Named.lists (h : p.Named P) (kind : CodeKind) (code : String) :
    CodeSite.Lists P ⟨kind, code, p.inView.map Prod.fst⟩ :=
  ⟨Scope.nodup_inView p.scopes, List.forall_mem_map.mpr (Scope.forall_inView h)⟩

end Pool

namespace Expr

variable {P : String → Prop} {items : List Expr} {p : Pool}

/-- The labels in an expression have a property. -/
def LabelsAll (P : String → Prop) (e : Expr) : Prop :=
  ∀ i label body, (labeled i label body).Inside e → P label

theorem LabelsAll.child {e c : Expr} (h : e.LabelsAll P) (hc : c ∈ e.children) : c.LabelsAll P :=
  fun i label body hinside => h i label body (.child hc hinside)

/-- Slots do for an expression what the claim about its sites takes: the labels that stay in the
open scopes and those that its sites list are labels of the expression or were in the open scopes.
-/
def Listed (P : String → Prop) (e : Expr) : Prop :=
  ∀ {r : Nat} {p : Pool}, p.Named P → (e.assign r p).2.Named P ∧
    ∀ site ∈ (e.assign r p).1.codeSites, site.Lists P

theorem listed_alternatives (ih : ∀ e ∈ items, e.Listed P) {r : Nat} (hp : p.Named P) :
    (assignAlternatives r items p).2.Named P ∧
      ∀ site ∈ codeSitesAll (assignAlternatives r items p).1, site.Lists P := by
  induction items generalizing p with
  | nil => exact ⟨hp, nofun⟩
  | cons e es ihes =>
    obtain ⟨hfirst, hsites⟩ := ih e List.mem_cons_self hp.openScope
    obtain ⟨hrest, hmore⟩ := ihes (fun e he => ih e (List.mem_cons_of_mem _ he)) hfirst.closeScope
    exact ⟨hrest, List.forall_mem_append.mpr ⟨hsites, hmore⟩⟩

theorem listed_elements (ih : ∀ e ∈ items, e.Listed P) (hp : p.Named P) :
    (assignElements items p).2.2.Named P ∧
      ∀ site ∈ codeSitesAll (assignElements items p).1, site.Lists P := by
  induction items generalizing p with
  | nil => exact ⟨hp, nofun⟩
  | cons e es ihes =>
    obtain ⟨hfirst, hsites⟩ := ih e List.mem_cons_self hp.acquire
    obtain ⟨hrest, hmore⟩ := ihes (fun e he => ih e (List.mem_cons_of_mem _ he)) hfirst
    exact ⟨hrest, List.forall_mem_append.mpr ⟨hsites, hmore⟩⟩

theorem listed (e : Expr) (h : e.LabelsAll P) : e.Listed P := by
  induction e using Expr.inductionOn with
  | named i name body ih => exact ih (h.child List.mem_cons_self)
  | choice i items ih =>
    exact fun hp => listed_alternatives (fun e he => ih e he (h.child he)) hp
  | action i code params body ih =>
    intro r p hp
    obtain ⟨hbody, hsites⟩ := ih (h.child List.mem_cons_self) hp.acquire.openScope
    refine ⟨hbody.closeScope, List.forall_mem_append.mpr ⟨hsites, ?_⟩⟩
    exact List.forall_mem_singleton.mpr (hbody.lists .action code)
  | sequence i items ih =>
    intro r p hp
    obtain ⟨hitems, hsites⟩ := listed_elements (fun e he => ih e he (h.child he)) hp.acquire
    exact ⟨hitems.of_scopes (Pool.scopes_releaseAll _ _), hsites⟩
  | labeled i label body ih =>
    intro r p hp
    obtain ⟨hbody, hsites⟩ := ih (h.child List.mem_cons_self) hp.openScope
    exact ⟨hbody.closeScope.bindLabel (h i label body .self) r, hsites⟩
  | lookahead i negated body ih =>
    intro r p hp
    obtain ⟨hbody, hsites⟩ := ih (h.child List.mem_cons_self) hp.acquire.openScope
    exact ⟨hbody.closeScope, hsites⟩
  | predicate i negated code params =>
    exact fun hp => ⟨hp, List.forall_mem_singleton.mpr (hp.lists .predicate code)⟩
  | optional i body ih =>
    intro r p hp
    obtain ⟨hbody, hsites⟩ := ih (h.child List.mem_cons_self) hp.openScope
    exact ⟨hbody.closeScope, hsites⟩
  | repeated i nonempty body ih =>
    intro r p hp
    obtain ⟨hbody, hsites⟩ := ih (h.child List.mem_cons_self) hp.acquire.openScope
    exact ⟨hbody.closeScope, hsites⟩
  | ruleRef | literal | charClass | any => exact fun hp => ⟨hp, nofun⟩

end Expr

/-! ### Grammars -/

namespace Grammar

variable {g : Grammar}

/-- Removing proxies changes no site, the labels that it lists included. -/
theorem codeSites_assignSlots_removeProxies (g : Grammar) :
    g.removeProxies.1.assignSlots.codeSites = g.assignSlots.codeSites := by
  rw [codeSites, codeSites, assignSlots, assignSlots, List.flatMap_map, List.flatMap_map]
  refine flatMap_removeProxies (fun {rule i name} hbody => ?_) (fun source target rule => ?_) g
  · have hassign : rule.assign.body =
        .ruleRef { i with result := (Pool.acquire {}).1, place := none } name := by
      rw [Rule.assign, hbody]
      rfl
    rw [hassign]
    rfl
  · have hassign : (rule.redirect source target).assign.body =
        rule.assign.body.rename (Expr.redirection source target) :=
      congrArg Rule.body (Rule.assign_rename (Expr.redirection source target) rule)
    rw [hassign, Expr.codeSites_rename]

/-- A site of a program lists different labels, each of them one of the grammar. -/
theorem lists_of_lower {P : String → Prop} (h : ∀ r ∈ g.rules, r.body.LabelsAll P) {g' : Grammar}
    (hg : g' = g ∨ g' = g.removeProxies.1) {p : Program} (hp : g'.assignSlots.lower = .ok p) :
    ∀ site ∈ p.code, site.Lists P := by
  have hcode : p.code.toList = g.assignSlots.codeSites := by
    rw [code_of_lower hp]
    rcases hg with rfl | rfl
    · rfl
    · exact codeSites_assignSlots_removeProxies g
  intro site hsite
  rw [← Array.mem_toList_iff, hcode, codeSites, assignSlots, List.flatMap_map] at hsite
  obtain ⟨rule, hrule, hsite⟩ := List.mem_flatMap.mp hsite
  have hempty : Pool.Named P (Pool.acquire {}).2.openScope :=
    Pool.Named.openScope (List.forall_mem_nil _)
  exact ((rule.body.listed (h rule hrule)) hempty).2 site hsite

/-- The labels of a grammar that was read are identifiers. -/
theorem labels_of_parse {text : String} (h : Grammar.parse text = .ok g) :
    ∀ r ∈ g.rules, r.body.LabelsAll (isIdentifier · = true) :=
  fun r hr _ label _ hinside => (((grounded_of_parse h).rules r hr).parts _ hinside).name label rfl

end Grammar

end Packrat
