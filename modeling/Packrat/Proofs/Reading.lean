import Packrat.Notation.Production
import Packrat.Grammar.Proxy
import Packrat.Grammar.References

/-!
# Grammars that are read

Some grammars are never read from a text: one whose start rule is missing, and one with a choice
between no alternatives. Both facts are needed to compile a grammar faithfully. Without a start rule
there is nothing to lower, and a choice without alternatives would leave in its slot what was there
before.

`Reader.Yields p P` says that every result of a reader satisfies `P`. There is one lemma for each
way to put readers together and one for each production.

## Main results

* `Grammar.wellFormed_of_parse`: what is read is well formed
* `Grammar.WellFormed.choosable_removeProxies`: choices keep their alternatives when proxies are
  removed
-/

namespace Packrat

/-! ### Choices with alternatives -/

namespace Expr

mutual
/-- Whether every choice has an alternative. -/
def choosable : Expr → Bool
  | choice _ items => !items.isEmpty && choosableAll items
  | sequence _ items => choosableAll items
  | named _ _ body | action _ _ _ body | labeled _ _ body | lookahead _ _ body | optional _ body
  | repeated _ _ body => body.choosable
  | predicate .. | ruleRef .. | literal .. | charClass .. | any .. => true

/-- Whether every choice in several expressions has an alternative. -/
def choosableAll : List Expr → Bool
  | [] => true
  | e :: es => e.choosable && choosableAll es
end

theorem choosableAll_iff {items : List Expr} :
    choosableAll items = true ↔ ∀ e ∈ items, e.choosable = true := by
  induction items with
  | nil => simp [choosableAll]
  | cons e es ih => simp [choosableAll, ih]

theorem choosableAll_rename {f : String → String} {items : List Expr}
    (ih : ∀ e ∈ items, (e.rename f).choosable = e.choosable) :
    choosableAll (renameAll f items) = choosableAll items := by
  induction items with
  | nil => rfl
  | cons e es ihes =>
    rw [renameAll, choosableAll, choosableAll, ih e List.mem_cons_self,
      ihes fun e he => ih e (List.mem_cons_of_mem _ he)]

theorem choosable_rename (f : String → String) (e : Expr) :
    (e.rename f).choosable = e.choosable := by
  induction e using Expr.inductionOn with
  | choice i items ih =>
    have hempty : (renameAll f items).isEmpty = items.isEmpty := by cases items <;> rfl
    rw [rename, choosable, choosable, hempty, choosableAll_rename ih]
  | sequence i items ih => rw [rename, choosable, choosable, choosableAll_rename ih]
  | named _ _ _ ih | action _ _ _ _ ih | labeled _ _ _ ih | lookahead _ _ _ ih | optional _ _ ih
  | repeated _ _ _ ih => rw [rename, choosable, choosable, ih]
  | _ => rfl

end Expr

/-- A grammar as it can be read from a text. -/
structure Grammar.WellFormed (g : Grammar) : Prop where
  start : g.defines g.start = true
  choosable (r : Rule) : r ∈ g.rules → r.body.choosable = true

/-! ### Results of readers -/

namespace Reader

variable {α β : Type} {p q : Reader α} {P : α → Prop} {Q : β → Prop}

/-- Every result of the reader satisfies `P`. -/
def Yields (p : Reader α) (P : α → Prop) : Prop :=
  ∀ (s : ReaderState) (a : α) (t : ReaderState), p s = (some a, t) → P a

theorem Yields.of_all (h : ∀ a, P a) : p.Yields P := fun _ a _ _ => h a

theorem Yields.pure {a : α} (h : P a) : (pure a : Reader α).Yields P := by
  intro s b t hp
  obtain rfl := Option.some.inj (Prod.mk.inj hp).1
  exact h

theorem Yields.fail : (Reader.fail : Reader α).Yields P := fun _ _ _ hp => nomatch hp

theorem Yields.bind {f : α → Reader β} (h : p.Yields P) (hf : ∀ a, P a → (f a).Yields Q) :
    (p >>= f).Yields Q := by
  intro s b t hp
  rw [bind_apply] at hp
  cases hps : p s with
  | mk result s' =>
    rw [hps] at hp
    cases result with
    | none => nomatch hp
    | some a => exact hf a (h s a s' hps) s' b t hp

/-- The results of the first reader do not matter. -/
theorem Yields.after {f : α → Reader β} (hf : ∀ a, (f a).Yields Q) : (p >>= f).Yields Q :=
  .bind (P := fun _ => True) (.of_all fun _ => trivial) fun a _ => hf a

theorem Yields.orElse (hp : p.Yields P) (hq : q.Yields P) : (p <|> q).Yields P := by
  intro s a t h
  change Reader.orElse p (fun _ => q) s = _ at h
  unfold Reader.orElse at h
  cases hps : p s with
  | mk result s' =>
    rw [hps] at h
    cases result with
    | none => exact hq s' a t h
    | some b =>
      obtain rfl := Option.some.inj (Prod.mk.inj h).1
      exact hp s b s' hps

theorem Yields.attempt (h : p.Yields P) : (Reader.attempt p).Yields P := by
  intro s a t hp
  unfold Reader.attempt at hp
  cases hps : p s with
  | mk result s' =>
    rw [hps] at hp
    cases result with
    | none => nomatch hp
    | some b =>
      obtain rfl := Option.some.inj (Prod.mk.inj hp).1
      exact h s b s' hps

theorem Yields.option (h : p.Yields P) :
    (Reader.option p).Yields fun a => ∀ b, a = some b → P b := by
  rintro s a t hp b rfl
  cases hps : p s with
  | mk result s' =>
    have hresult : result = some b := by
      unfold Reader.option at hp
      rw [hps] at hp
      exact Option.some.inj (Prod.mk.inj hp).1
    exact h s b s' (hresult ▸ hps)

theorem forall_mem_collect (h : p.Yields P) (bound : Nat) (s : ReaderState) :
    ∀ a ∈ (collect p bound s).1, P a := by
  induction bound generalizing s with
  | zero => exact fun _ ha => nomatch ha
  | succ bound ih =>
    rw [collect]
    cases hps : p s with
    | mk result s' =>
      cases result with
      | none => exact fun _ ha => nomatch ha
      | some a =>
        intro b hb
        rcases List.mem_cons.mp hb with rfl | hb
        · exact h s b s' hps
        · exact ih s' b hb

theorem Yields.many (h : p.Yields P) : (Reader.many p).Yields fun as => ∀ a ∈ as, P a := by
  intro s as t hp
  have has : (collect p (s.state.cursor.ahead.length + 1) s).1 = as :=
    Option.some.inj (Prod.mk.inj hp).1
  exact has ▸ forall_mem_collect h _ s

theorem Yields.of_run {source : String} {a : α} (h : p.Yields P) (hrun : p.run source = .ok a) :
    P a := by
  unfold Reader.run at hrun
  cases hp : p ⟨State.start false false source.toList, none⟩ with
  | mk result s =>
    rw [hp] at hrun
    dsimp only at hrun
    split at hrun
    · nomatch hrun
    · cases result with
      | none => nomatch hrun
      | some b =>
        have hab : b = a := by
          unfold State.finish at hrun
          dsimp only at hrun
          split at hrun
          · exact Except.ok.inj hrun
          · nomatch hrun
        exact hab ▸ h _ b s hp

end Reader

/-! ### Productions -/

namespace Notation

open Reader

/-- Every expression that is read has alternatives for its choices. -/
abbrev YieldsChoosable (p : Reader Expr) : Prop := p.Yields fun e => e.choosable = true

theorem spanned_yields {begun : Cursor} {build : Info → Expr}
    (h : ∀ i, (build i).choosable = true) : YieldsChoosable (spanned begun build) :=
  .after fun span => .pure (h ⟨span, none, none⟩)

theorem ruleReference_yields : YieldsChoosable ruleReference := by
  refine .attempt (.after fun begun => .after fun name => .after fun beginsRule => ?_)
  split
  · exact .fail
  · exact .pure rfl

section

variable {choice : Reader Expr} (h : YieldsChoosable choice)

include h

theorem parenthesized_yields : YieldsChoosable (parenthesized choice) := by
  refine .attempt (.after fun _ => .bind h fun e he => .after fun _ => ?_)
  exact .pure he

theorem primary_yields : YieldsChoosable (primary choice) := by
  refine .after fun begun => .orElse ruleReference_yields (.orElse ?_ (.orElse ?_ (.orElse ?_ ?_)))
  · exact .after fun _ => spanned_yields fun _ => rfl
  · exact .after fun _ => spanned_yields fun _ => rfl
  · exact .after fun _ => spanned_yields fun _ => rfl
  · exact parenthesized_yields h

omit h in
theorem suffixOperator_yields : suffixOperator.Yields fun build =>
    ∀ e i, (build e i).choosable = e.choosable := by
  refine .orElse ?_ (.orElse ?_ ?_)
  · exact .after fun _ => .pure fun _ _ => rfl
  · exact .after fun _ => .pure fun _ _ => rfl
  · exact .after fun _ => .pure fun _ _ => rfl

theorem suffixed_yields : YieldsChoosable (suffixed choice) := by
  refine .after fun begun => .bind (primary_yields h) fun e he => ?_
  refine .bind suffixOperator_yields.option fun operator hoperator => ?_
  cases operator with
  | none => exact .pure he
  | some build => exact spanned_yields fun i => (hoperator build rfl e i).trans he

theorem predicateOf_yields (operator : String) (negated : Bool) :
    YieldsChoosable (predicateOf choice operator negated) := by
  refine .after fun begun => .orElse ?_ ?_
  · exact .after fun _ => spanned_yields fun _ => rfl
  · have hbody : YieldsChoosable (attempt do token operator; suffixed choice) :=
      .attempt (.after fun _ => suffixed_yields h)
    exact .bind hbody fun e he => spanned_yields fun _ => he

theorem prefixed_yields : YieldsChoosable (prefixed choice) :=
  .orElse (predicateOf_yields h "&" false)
    (.orElse (predicateOf_yields h "!" true) (suffixed_yields h))

theorem labeled_yields : YieldsChoosable (labeled choice) := by
  refine .orElse (.attempt ?_) (prefixed_yields h)
  refine .after fun begun => .after fun label => .after fun _ => ?_
  exact .bind (prefixed_yields h) fun e he => spanned_yields fun _ => he

omit h in
/-- The code block behind the elements of a sequence leaves them choosable. -/
theorem closing_yields (begun : Cursor) {e : Expr} (he : e.choosable = true) :
    YieldsChoosable (do
      match ← option action with
      | some code => spanned begun (.action · code [] e)
      | none => return e) := by
  refine .after fun code => ?_
  cases code with
  | none => exact .pure he
  | some code => exact spanned_yields fun _ => he

theorem sequence_yields : YieldsChoosable (sequence choice) := by
  refine .after fun begun => .bind (labeled_yields h).many fun es hes => ?_
  split
  · next e => exact closing_yields begun (hes e List.mem_cons_self)
  · have hbody : YieldsChoosable (spanned begun (.sequence · es)) :=
      spanned_yields fun _ => Expr.choosableAll_iff.mpr hes
    exact .bind hbody fun e he => closing_yields begun he

theorem choiceWith_yields : YieldsChoosable (choiceWith choice) := by
  refine .after fun begun => .bind (sequence_yields h) fun first hfirst => ?_
  have hmore : YieldsChoosable (attempt do token "/"; sequence choice) :=
    .attempt (.after fun _ => sequence_yields h)
  refine .bind hmore.many fun rest hrest => ?_
  cases rest with
  | nil => exact .pure hfirst
  | cons e es =>
    refine spanned_yields fun _ => ?_
    rw [Expr.choosable, Bool.and_eq_true]
    refine ⟨rfl, Expr.choosableAll_iff.mpr ?_⟩
    intro other hother
    rcases List.mem_cons.mp hother with rfl | hother
    · exact hfirst
    · exact hrest other hother

end

theorem choiceWithin_yields (depth : Nat) : YieldsChoosable (choiceWithin depth) := by
  induction depth with
  | zero => exact .fail
  | succ depth ih => exact choiceWith_yields ih

theorem choice_yields : YieldsChoosable choice := .after fun _ => choiceWithin_yields _

theorem rule_yields : rule.Yields fun r => r.body.choosable = true := by
  refine .attempt (.after fun begun => .after fun name => .after fun displayName => ?_)
  refine .after fun _ => .bind choice_yields fun e he => .after fun _ => .after fun span => ?_
  cases displayName with
  | none => exact .pure he
  | some displayName => exact .pure he

theorem grammar_yields : grammar.Yields Grammar.WellFormed := by
  refine .attempt (.after fun _ => .after fun front =>
    .bind rule_yields.many fun rules hrules => ?_)
  cases rules with
  | nil => exact .fail
  | cons first rest =>
    refine .pure ⟨?_, hrules⟩
    exact Grammar.defines_iff.mpr ⟨first, List.mem_cons_self, rfl⟩

end Notation

/-! ### Grammars -/

namespace Grammar

variable {g : Grammar}

theorem wellFormed_of_parse {text : String} (h : Grammar.parse text = .ok g) : g.WellFormed :=
  Notation.grammar_yields.of_run h

theorem WellFormed.choosable_removeProxies (h : g.WellFormed) :
    ∀ r ∈ g.removeProxies.1.rules, r.body.choosable = true := by
  have hend := removeProxies_invariant
    (I := fun kept pending _ => ∀ r ∈ kept ++ pending, r.body.choosable = true) ?_ ?_ h.choosable
  · rwa [List.append_nil] at hend
  · intro kept pending start rule _ hall
    rwa [← List.append_cons]
  · intro kept pending start rule target _ hall r hr
    rw [← List.map_append] at hr
    obtain ⟨old, hold, rfl⟩ := List.mem_map.mp hr
    refine (Expr.choosable_rename _ _).trans (hall old ?_)
    exact ((List.sublist_cons_self rule pending).append_left kept).subset hold

end Grammar

end Packrat
