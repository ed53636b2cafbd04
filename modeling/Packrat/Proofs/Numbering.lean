import Packrat.Proofs.Backtracking
import Packrat.Proofs.SiteLabels

/-!
# Code blocks and the operations that call them

A program keeps its code apart from its operations: an operation has the number of a site and the
slots of the labels there, the list of sites has the code and the names of the labels, and a matcher
has a third list, of the functions of a host. The three are joined by index while a text is matched,
and this module shows that they belong together. Read in order, with the body of an action before
the action, the code blocks of the expressions are the sites of the program, and the operations that
call code have the numbers from zero on: the first of them calls the first block, and so on.

So whatever operation a parse comes to, its site is there, a function of its kind is bound to it,
and the names and the values of labels that are paired up for it are equally many.

## Main results

* `Expr.codeUses_of_lower`: the operation of an expression calls its code blocks in order
* `Grammar.equips_of_matcher`: what an operation that calls code finds
* `codeUses_numbered`: both, for the programs of a grammar
-/

namespace Packrat

/-- A code block of a grammar with its labels and their slots. -/
structure CodeBlock where
  kind : CodeKind
  /-- Text between the outer braces. -/
  code : String
  params : Params
  deriving DecidableEq, Repr

/-- The site of a block. -/
def CodeBlock.site (b : CodeBlock) : CodeSite := ⟨b.kind, b.code, b.params.map Prod.fst⟩

/-- What an operation has to say about the code that it calls. -/
structure CodeUse where
  kind : CodeKind
  site : Nat
  slots : List Nat
  deriving DecidableEq, Repr

/-- How blocks are called whose sites have the numbers from `first` on. -/
def numberedUses (first : Nat) (blocks : List CodeBlock) : List CodeUse :=
  (blocks.zipIdx first).map fun (b, i) => ⟨b.kind, i, b.params.map Prod.snd⟩

theorem numberedUses_append (first : Nat) (blocks blocks' : List CodeBlock) :
    numberedUses first (blocks ++ blocks') =
      numberedUses first blocks ++ numberedUses (first + blocks.length) blocks' := by
  rw [numberedUses, List.zipIdx_append, List.map_append]
  rfl

/-! ### Code blocks of expressions -/

namespace Expr

mutual
/-- The code blocks of an expression, those inside an action before the one of the action. -/
def codeBlocks : Expr → List CodeBlock
  | choice _ items | sequence _ items => codeBlocksAll items
  | action _ code params body => body.codeBlocks ++ [⟨.action, code, params⟩]
  | predicate _ _ code params => [⟨.predicate, code, params⟩]
  | named _ _ body | labeled _ _ body | lookahead _ _ body | optional _ body
  | repeated _ _ body => body.codeBlocks
  | ruleRef .. | literal .. | charClass .. | any .. => []

/-- The code blocks of several expressions. -/
def codeBlocksAll : List Expr → List CodeBlock
  | [] => []
  | e :: es => e.codeBlocks ++ codeBlocksAll es
end

theorem codeSitesAll_eq_map {items : List Expr}
    (ih : ∀ e ∈ items, e.codeSites = e.codeBlocks.map CodeBlock.site) :
    codeSitesAll items = (codeBlocksAll items).map CodeBlock.site := by
  induction items with
  | nil => rfl
  | cons e es ihes =>
    rw [codeSitesAll, codeBlocksAll, List.map_append, ih e List.mem_cons_self,
      ihes fun e he => ih e (List.mem_cons_of_mem _ he)]

/-- The sites of an expression are those of its blocks. -/
theorem codeSites_eq_map (e : Expr) : e.codeSites = e.codeBlocks.map CodeBlock.site := by
  induction e using Expr.inductionOn with
  | choice i items ih | sequence i items ih => exact codeSitesAll_eq_map ih
  | action i code params body ih => rw [codeSites, codeBlocks, List.map_append, ih]; rfl
  | named _ _ _ ih | labeled _ _ _ ih | lookahead _ _ _ ih | optional _ _ ih
  | repeated _ _ _ ih => exact ih
  | _ => rfl

end Expr

/-! ### Calls of operations -/

namespace Op

mutual
/-- The calls of code in an operation, those inside an action before the one of the action. -/
def codeUses : Op → List CodeUse
  | choice _ items | sequence _ _ items => codeUsesAll items
  | action _ _ site slots body => body.codeUses ++ [⟨.action, site, slots⟩]
  | predicate _ _ site slots => [⟨.predicate, site, slots⟩]
  | named _ _ body | lookahead _ _ _ body | optional _ body | repeated _ _ body => body.codeUses
  | call .. | literal .. | charClass .. | any .. => []

/-- The calls of code in several operations. -/
def codeUsesAll : List Op → List CodeUse
  | [] => []
  | o :: os => o.codeUses ++ codeUsesAll os
end

theorem codeUsesAll_eq_flatMap (items : List Op) : codeUsesAll items = items.flatMap codeUses := by
  induction items with
  | nil => rfl
  | cons o os ih => rw [codeUsesAll, ih, List.flatMap_cons]

/-- The call of an operation itself. -/
def codeUse? : Op → Option CodeUse
  | action _ _ site slots _ => some ⟨.action, site, slots⟩
  | predicate _ _ site slots => some ⟨.predicate, site, slots⟩
  | _ => none

theorem codeUses_of_mem_children {b c : Op} (hc : c ∈ b.children) : c.codeUses ⊆ b.codeUses := by
  cases b with
  | choice | sequence =>
    rw [codeUses, codeUsesAll_eq_flatMap]
    exact fun use huse => List.mem_flatMap.mpr ⟨c, hc, huse⟩
  | action =>
    obtain rfl := List.mem_singleton.mp hc
    exact List.subset_append_left _ _
  | named | lookahead | optional | repeated =>
    obtain rfl := List.mem_singleton.mp hc
    exact List.Subset.refl _
  | predicate | call | literal | charClass | any => nomatch hc

/-- Every operation inside that calls code is on the list. -/
theorem mem_codeUses_of_inside {o b : Op} (h : o.Inside b) {use : CodeUse}
    (huse : o.codeUse? = some use) : use ∈ b.codeUses := by
  induction h with
  | self =>
    cases o with
    | action =>
      obtain rfl := Option.some.inj huse
      exact List.mem_append_right _ List.mem_cons_self
    | predicate =>
      obtain rfl := Option.some.inj huse
      exact List.mem_cons_self
    | _ => nomatch huse
  | child hc _ ih => exact codeUses_of_mem_children hc ih

end Op

namespace Expr

section

variable {names : List String} {sites sites' : Array CodeSite} {o : Op}

theorem size_of_lower (e : Expr) (h : e.lower names sites = .ok (o, sites')) :
    sites'.size = sites.size + e.codeBlocks.length := by
  rw [← Array.length_toList, e.codeSites_of_lower h, List.length_append, Array.length_toList,
    codeSites_eq_map, List.length_map]

theorem codeUses_of_lowerAll {items : List Expr} {os : List Op}
    (ih : ∀ e ∈ items, ∀ {sites sites' : Array CodeSite} {o : Op},
      e.lower names sites = .ok (o, sites') →
        o.codeUses = numberedUses sites.size e.codeBlocks)
    (h : lowerAll names items sites = .ok (os, sites')) :
    Op.codeUsesAll os = numberedUses sites.size (codeBlocksAll items) := by
  induction items generalizing sites os with
  | nil =>
    obtain ⟨rfl, -⟩ := lowerAll_nil.mp h
    rfl
  | cons e es ihes =>
    obtain ⟨b, inner, bs, hb, hbs, rfl⟩ := lowerAll_cons.mp h
    rw [Op.codeUsesAll, codeBlocksAll, numberedUses_append, ih e List.mem_cons_self hb,
      ihes (fun e he => ih e (List.mem_cons_of_mem _ he)) hbs, e.size_of_lower hb]

/-- The operation of an expression calls the code blocks of the expression, in order and under the
numbers behind those that were met before. -/
theorem codeUses_of_lower (e : Expr) (h : e.lower names sites = .ok (o, sites')) :
    o.codeUses = numberedUses sites.size e.codeBlocks := by
  induction e using Expr.inductionOn generalizing sites sites' o with
  | named i name body ih =>
    obtain ⟨_, b, -, hb, rfl⟩ := lower_named.mp h
    rw [Op.codeUses, codeBlocks, ih hb]
  | choice i items ih =>
    obtain ⟨_, bs, -, hbs, rfl⟩ := lower_choice.mp h
    rw [Op.codeUses, codeBlocks, codeUses_of_lowerAll ih hbs]
  | action i code params body ih =>
    obtain ⟨_, _, b, inner, -, -, hb, rfl, -⟩ := lower_action.mp h
    rw [Op.codeUses, codeBlocks, numberedUses_append, ih hb, body.size_of_lower hb]
    rfl
  | sequence i items ih =>
    obtain ⟨_, _, bs, -, -, hbs, rfl⟩ := lower_sequence.mp h
    rw [Op.codeUses, codeBlocks, codeUses_of_lowerAll ih hbs]
  | labeled i label body ih => rw [codeBlocks, ih (lower_labeled.mp h).2]
  | lookahead i negated body ih =>
    obtain ⟨_, _, b, -, -, hb, rfl⟩ := lower_lookahead.mp h
    rw [Op.codeUses, codeBlocks, ih hb]
  | predicate i negated code params =>
    obtain ⟨_, -, rfl, -⟩ := lower_predicate.mp h
    rfl
  | optional i body ih =>
    obtain ⟨_, b, -, hb, rfl⟩ := lower_optional.mp h
    rw [Op.codeUses, codeBlocks, ih hb]
  | repeated i nonempty body ih =>
    obtain ⟨_, b, -, hb, rfl⟩ := lower_repeated.mp h
    rw [Op.codeUses, codeBlocks, ih hb]
  | ruleRef i name =>
    obtain ⟨_, rule, -, -, rfl, -⟩ := lower_ruleRef.mp h
    rfl
  | literal i value ignoreCase =>
    obtain ⟨_, -, rfl, -⟩ := lower_literal.mp h
    rfl
  | charClass i members raw =>
    obtain ⟨_, -, rfl, -⟩ := lower_charClass.mp h
    rfl
  | any i =>
    obtain ⟨_, -, rfl, -⟩ := lower_any.mp h
    rfl

end

end Expr

/-! ### Programs -/

/-- The code blocks of a grammar. -/
def Grammar.codeBlocks (g : Grammar) : List CodeBlock := g.rules.flatMap (·.body.codeBlocks)

/-- The calls of code in a program. -/
def Program.codeUses (p : Program) : List CodeUse := p.rules.toList.flatMap (·.body.codeUses)

theorem codeUses_of_lowerRules {names : List String} {rules : List Rule}
    {sites sites' : Array CodeSite} {rs : List RuleProgram}
    (h : lowerRules names rules sites = .ok (rs, sites')) :
    rs.flatMap (·.body.codeUses) =
      numberedUses sites.size (rules.flatMap (·.body.codeBlocks)) := by
  induction rules generalizing sites rs with
  | nil =>
    obtain ⟨rfl, -⟩ := lowerRules_nil.mp h
    rfl
  | cons rule rules ih =>
    obtain ⟨b, inner, bs, hb, hbs, rfl⟩ := lowerRules_cons.mp h
    rw [List.flatMap_cons, List.flatMap_cons, numberedUses_append, ih hbs,
      rule.body.codeUses_of_lower hb, rule.body.size_of_lower hb]

namespace Grammar

variable {g : Grammar} {p : Program}

theorem codeUses_of_lower (hp : g.lower = .ok p) : p.codeUses = numberedUses 0 g.codeBlocks := by
  obtain ⟨rs, code, start, hrs, -, rfl⟩ := lower_eq_ok_iff.mp hp
  exact codeUses_of_lowerRules hrs

theorem codeSites_eq_map (g : Grammar) : g.codeSites = g.codeBlocks.map CodeBlock.site := by
  rw [codeSites, codeBlocks, List.map_flatMap]
  exact List.flatMap_congr fun rule _ => rule.body.codeSites_eq_map

end Grammar

/-- What a program has for a block and for the call of it. -/
structure Program.Matches (p : Program) (use : CodeUse) (block : CodeBlock) : Prop where
  kind : use.kind = block.kind
  site : p.code[use.site]? = some block.site
  slots : use.slots = block.params.map Prod.snd
  labels : block.site.labels.Nodup
  count : block.site.labels.length = use.slots.length

theorem forall₂_numberedUses {R : CodeUse → CodeBlock → Prop} {blocks : List CodeBlock}
    {first : Nat}
    (h : ∀ (i : Nat) (b : CodeBlock), blocks[i]? = some b →
      R ⟨b.kind, first + i, b.params.map Prod.snd⟩ b) :
    List.Forall₂ R (numberedUses first blocks) blocks := by
  induction blocks generalizing first with
  | nil => exact .nil
  | cons block blocks ih =>
    refine .cons (h 0 block rfl) (ih fun i b hb => ?_)
    rw [Nat.add_right_comm]
    exact h (i + 1) b hb

theorem exists_of_forall₂ {α β : Type} {R : α → β → Prop} {as : List α} {bs : List β}
    (h : List.Forall₂ R as bs) {a : α} (ha : a ∈ as) : ∃ b, R a b := by
  induction h with
  | nil => nomatch ha
  | cons hab _ ih =>
    rcases List.mem_cons.mp ha with rfl | ha
    · exact ⟨_, hab⟩
    · exact ih ha

theorem map_site_numberedUses (first : Nat) (blocks : List CodeBlock) :
    (numberedUses first blocks).map CodeUse.site = List.range' first blocks.length := by
  rw [numberedUses, List.map_map, ← List.zipIdx_map_snd first blocks]
  rfl

/-! ### Matchers -/

/-- What the function is for. -/
def Binding.kind : Binding → CodeKind
  | action _ => .action
  | predicate _ => .predicate

namespace Matcher

variable {m : Matcher}

/-- What an operation finds that calls code: the site is there, a function of its kind is bound to
it, and every label of the site comes with a value. -/
def Equips (m : Matcher) (o : Op) : Prop :=
  ∀ use, o.codeUse? = some use → ∃ site, m.program.code[use.site]? = some site ∧
    site.kind = use.kind ∧ (∃ b, m.bindings[use.site]? = some b ∧ b.kind = use.kind) ∧
      ∀ begun matched fr cx fr', m.context use.site use.slots begun matched fr = .ok cx fr' →
        cx.labels.map Prod.fst = site.labels

/-- The functions that a host offers for sites are of their kinds. -/
theorem Serves.kind {h : Actions} (hserves : m.Serves h) {i : Nat} {site : CodeSite}
    (hsite : m.program.code[i]? = some site) :
    ∃ b, m.bindings[i]? = some b ∧ b.kind = site.kind := by
  obtain ⟨kind, code, labels⟩ := site
  cases kind with
  | action =>
    obtain ⟨f, hf, -⟩ := hserves.action hsite
    exact ⟨_, hf, rfl⟩
  | predicate =>
    obtain ⟨f, hf, -⟩ := hserves.predicate hsite
    exact ⟨_, hf, rfl⟩

/-- No label is lost where there are as many slots. -/
theorem labels_of_context {site : CodeSite} {i : Nat} {slots : List Nat} {begun : Cursor}
    {matched : Value} {fr fr' : Frame} {cx : Context} (hsite : m.program.code[i]? = some site)
    (hlength : site.labels.length = slots.length)
    (h : m.context i slots begun matched fr = .ok cx fr') :
    cx.labels.map Prod.fst = site.labels := by
  unfold context at h
  rw [hsite] at h
  obtain ⟨here, _, hcursor, h⟩ := Run.of_bind h
  obtain ⟨vs, _, hvalues, h⟩ := Run.of_bind h
  obtain ⟨rfl, -⟩ := Run.of_values hvalues
  obtain ⟨rfl, rfl⟩ := EStateM.Result.ok.inj h
  exact List.map_fst_zip (by rw [List.length_map, hlength])

end Matcher

namespace Grammar

variable {g g' : Grammar} {p : Program}

/-- Blocks and calls belong together, one by one. -/
theorem matches_of_lower (hg : g' = g ∨ g' = g.removeProxies.1)
    (hp : g'.assignSlots.lower = .ok p) :
    List.Forall₂ p.Matches p.codeUses g'.assignSlots.codeBlocks := by
  have hsites : p.code.toList = g'.assignSlots.codeBlocks.map CodeBlock.site := by
    rw [code_of_lower hp, codeSites_eq_map]
  rw [codeUses_of_lower hp]
  refine forall₂_numberedUses fun i block hblock => ?_
  rw [Nat.zero_add]
  have hsite : p.code[i]? = some block.site := by
    rw [← Array.getElem?_toList, hsites, List.getElem?_map, hblock]
    rfl
  have hlists := lists_of_lower (P := fun _ => True) (fun _ _ _ _ _ _ => trivial) hg hp block.site
    (Array.mem_of_getElem? hsite)
  exact ⟨rfl, hsite, rfl, hlists.nodup, by rw [CodeBlock.site, List.length_map, List.length_map]⟩

/-- Every operation of a program that calls code is on the list of calls. -/
theorem mem_codeUses_of_has {o : Op} (h : p.Has o) {use : CodeUse} (huse : o.codeUse? = some use) :
    use ∈ p.codeUses := by
  obtain ⟨i, r, hr, hinside⟩ := h
  exact List.mem_flatMap.mpr ⟨r, Array.mem_toList_iff.mpr (Array.mem_of_getElem? hr),
    Op.mem_codeUses_of_inside hinside huse⟩

/-- Every operation of a program finds what it needs for the code that it calls. -/
theorem equips_of_matcher {h : Actions} {options : Options} {m : Matcher}
    (hg : g' = g ∨ g' = g.removeProxies.1) (hm : g'.matcher h options = .ok m) {o : Op}
    (ho : m.program.Has o) : m.Equips o := by
  intro use huse
  have hmatches := matches_of_lower hg (parts_of_matcher hm).1
  obtain ⟨block, hblock⟩ := exists_of_forall₂ hmatches (mem_codeUses_of_has ho huse)
  obtain ⟨b, hb, hkind⟩ := (serves_of_matcher hm).kind hblock.site
  exact ⟨block.site, hblock.site, hblock.kind.symm, ⟨b, hb, hkind.trans hblock.kind.symm⟩,
    fun _ _ _ _ _ hcontext => Matcher.labels_of_context hblock.site hblock.count hcontext⟩

end Grammar

/-- A grammar that was checked has a program. In it, and in the one without proxies, the operations
that call code have the numbers from zero on, in order, and belong to the code blocks of the grammar
one by one; removing proxies and assigning slots changes no block. A matcher therefore never lacks a
function for an operation that a parse comes to, takes none of the wrong kind, and loses no label.
-/
theorem codeUses_numbered {text : String} {g : Grammar} (hg : checkedGrammar text = .ok g) :
    (∃ p, g.assignSlots.lower = .ok p) ∧
    ∀ {g' : Grammar} {p : Program}, g' = g ∨ g' = g.removeProxies.1 →
      g'.assignSlots.lower = .ok p →
        (p.code.toList.map (·.block) = g.codeSites.map (·.block) ∧
          p.codeUses.map (·.site) = List.range p.code.size ∧
          List.Forall₂ p.Matches p.codeUses g'.assignSlots.codeBlocks ∧
          ∀ o, p.Has o → ∀ use, o.codeUse? = some use → use ∈ p.codeUses) ∧
        ∀ {h : Actions} {options : Options} {m : Matcher}, g'.matcher h options = .ok m →
          m.program = p ∧
          (∀ fuel input rule stage, m.Visits fuel input rule stage → m.Equips stage.op) ∧
          ∀ fuel input start f, (m.parse fuel input start).result ≠ .error (.fault f) := by
  obtain ⟨hparse, hreferences, -⟩ := checkedGrammar_eq_ok_iff.mp hg
  have hformed := Grammar.wellFormed_of_parse hparse
  refine ⟨Grammar.exists_lower (g.checkReferences_eq_ok_iff.mp hreferences) hformed.start, ?_⟩
  intro g' p hg' hp
  refine ⟨⟨?_, ?_, Grammar.matches_of_lower hg' hp,
    fun o ho use => Grammar.mem_codeUses_of_has ho⟩, ?_⟩
  · rw [Grammar.code_of_lower hp, Grammar.blocks_assignSlots]
    rcases hg' with rfl | rfl
    · rfl
    · rw [Grammar.codeSites_removeProxies]
  · rw [Grammar.codeUses_of_lower hp, map_site_numberedUses, ← Array.length_toList,
      Grammar.code_of_lower hp, Grammar.codeSites_eq_map, List.length_map, List.range_eq_range']
  · intro h options m hm
    have hchoosable : ∀ r ∈ g'.rules, r.body.choosable = true := by
      rcases hg' with rfl | rfl
      · exact hformed.choosable
      · exact hformed.choosable_removeProxies
    refine ⟨?_, fun fuel input rule stage hvisits => ?_, ?_⟩
    · exact Except.ok.inj ((Grammar.parts_of_matcher hm).1.symm.trans hp)
    · exact Grammar.equips_of_matcher hg' hm hvisits.has
    · exact (Grammar.adequate_of_matcher hm hchoosable).faultless

/-- The action calls the only block, with the slot of its label; a parse of `x` comes to it. -/
theorem codeUses_numbered_small : ∃ m, buildMatcher smallText .passthrough {} = .ok m ∧
    m.program.codeUses = [⟨.action, 0, [0]⟩] ∧ m.program.codeUses.map (·.site) = [0] ∧
      (∃ stage, m.Visits 3 ['x'] 0 stage ∧ stage.op.codeUse? = some ⟨.action, 0, [0]⟩ ∧
        m.Equips stage.op) ∧ ∀ f, (m.parse 3 "x" none).result ≠ .error (.fault f) := by
  obtain ⟨source, hm⟩ := small_matcher {}
  obtain ⟨g, hg, hmatcher⟩ := buildMatcher_eq_ok_iff_matcher.mp hm
  obtain ⟨⟨-, hnumbers, -, -⟩, hruns⟩ :=
    (codeUses_numbered hg).2 (.inr rfl) (Grammar.parts_of_matcher hmatcher).1
  obtain ⟨-, hequips, hfaultless⟩ := hruns hmatcher
  let r : RuleProgram := ⟨"s", 2, .action 0 1 0 [0] (.call 0 1)⟩
  let stage : Stage := ⟨2, r.body, ⟨(State.start false false ['x']).entering 0, .blank 2⟩⟩
  have hvisits : (smallMatcher {} source).Visits 3 ['x'] 0 stage := .single (.call (r := r) rfl rfl)
  exact ⟨_, hm, rfl, hnumbers, ⟨stage, hvisits, rfl, hequips 3 ['x'] 0 stage hvisits⟩,
    hfaultless 3 "x" none⟩

end Packrat
