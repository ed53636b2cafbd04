import Packrat.Proofs.LeftRecursion

/-!
# Chains of leftmost references

What the check for left recursion decides, said without the search and for every grammar, also one
in which names repeat or are undefined. A chain starts at a rule of the list and goes from rule to
rule through references that stand in front; a name leads to the first rule that has it, and one
that no rule has leads nowhere. The check refuses a grammar exactly if some chain comes back to a
name that it has entered, the name of the rule where it starts included, and then it reports the
reference with which a chain comes back.

## The search over all rules

`closingReference` forgets the rules of a name below that name, which is why it ends. `Searches` is
the search that forgets nothing and keeps no record of what it has seen before: it goes into the
first rule of every name that is not on its path. That this search ends too, and with the same
answer, is `searches_closingReference`.

## Main results

* `searches_closingReference`: the search over all rules ends, with the reference that is reported
* `comesBack_of_closes`, `closes_of_comesBack`: what the search finds are chains that come back
* `checkLeftRecursion_exact`: which grammars are refused, and with which reference
-/

namespace Packrat

/-! ### References in front -/

/-- The reference stands in front: in any alternative of a choice, in the first element of a
sequence, and inside of whatever wraps a single expression. Nothing stands in a predicate. -/
inductive InFront (r : Reference) : Expr → Prop
  | here (place : Option Nat) (result : Option Nat) :
      InFront r (.ruleRef ⟨r.span, result, place⟩ r.name)
  | alternative {i : Info} {items : List Expr} {e : Expr} :
      e ∈ items → InFront r e → InFront r (.choice i items)
  | first {i : Info} {e : Expr} {rest : List Expr} :
      InFront r e → InFront r (.sequence i (e :: rest))
  | named {i : Info} {name : String} {body : Expr} :
      InFront r body → InFront r (.named i name body)
  | action {i : Info} {code : String} {params : Params} {body : Expr} :
      InFront r body → InFront r (.action i code params body)
  | labeled {i : Info} {label : String} {body : Expr} :
      InFront r body → InFront r (.labeled i label body)
  | lookahead {i : Info} {negated : Bool} {body : Expr} :
      InFront r body → InFront r (.lookahead i negated body)
  | optional {i : Info} {body : Expr} : InFront r body → InFront r (.optional i body)
  | repeated {i : Info} {nonempty : Bool} {body : Expr} :
      InFront r body → InFront r (.repeated i nonempty body)

theorem mem_leftmost_of_inFront {r : Reference} {e : Expr} (h : InFront r e) :
    r ∈ e.leftmost := by
  induction h with
  | here => exact List.mem_singleton.mpr rfl
  | alternative he _ ih =>
    rw [Expr.leftmost, Expr.leftmostAll_eq_flatMap]
    exact List.mem_flatMap_of_mem he ih
  | first _ ih => exact ih
  | named _ ih | action _ ih | labeled _ ih | lookahead _ ih | optional _ ih | repeated _ ih =>
    exact ih

/-- The leftmost references of an expression are those that stand in front. -/
theorem mem_leftmost_iff {r : Reference} {e : Expr} : r ∈ e.leftmost ↔ InFront r e := by
  refine ⟨fun h => ?_, mem_leftmost_of_inFront⟩
  induction e using Expr.inductionOn with
  | choice i items ih =>
    rw [Expr.leftmost, Expr.leftmostAll_eq_flatMap] at h
    obtain ⟨e, he, hr⟩ := List.mem_flatMap.mp h
    exact .alternative he (ih e he hr)
  | sequence i items ih =>
    cases items with
    | nil => nomatch h
    | cons e rest => exact .first (ih e List.mem_cons_self h)
  | named _ _ _ ih => exact .named (ih h)
  | action _ _ _ _ ih => exact .action (ih h)
  | labeled _ _ _ ih => exact .labeled (ih h)
  | lookahead _ _ _ ih => exact .lookahead (ih h)
  | optional _ _ ih => exact .optional (ih h)
  | repeated _ _ _ ih => exact .repeated (ih h)
  | ruleRef i name =>
    obtain rfl := List.mem_singleton.mp h
    exact .here i.place i.result
  | predicate | literal | charClass | any => nomatch h

/-! ### Chains -/

/-- The references lead from the body of one rule to the next, from `start` to `last`. A name leads
to the first rule that has it. -/
inductive Chain (g : Grammar) (start : Rule) : List Reference → Rule → Prop
  | start : Chain g start [] start
  | enter {refs : List Reference} {rule next : Rule} {r : Reference} :
      Chain g start refs rule → InFront r rule.body → g.find? r.name = some next →
        Chain g start (refs ++ [r]) next

/-- The names that a chain enters, in order, with that of the rule where it starts. -/
def entered (start : Rule) (refs : List Reference) : List String :=
  start.name :: refs.map (·.name)

/-- A chain from the rule comes back with `r` to a name that it has entered. -/
def ComesBack (g : Grammar) (start : Rule) (r : Reference) : Prop :=
  ∃ refs last, Chain g start refs last ∧ InFront r last.body ∧ r.name ∈ entered start refs

/-- A chain from the rule leads to a reference to its own name. -/
def ReachesItself (g : Grammar) (rule : Rule) : Prop :=
  ∃ refs last r, Chain g rule refs last ∧ InFront r last.body ∧ r.name = rule.name

section

variable {g : Grammar} {start : Rule} {refs : List Reference} {last : Rule} {r : Reference}

theorem entered_append (start : Rule) (refs : List Reference) (r : Reference) :
    entered start (refs ++ [r]) = entered start refs ++ [r.name] := by
  simp [entered]

/-- Where a chain has led, a search from there finds what a search from its start finds, unless that
one comes back earlier. -/
theorem Chain.closes (h : Chain g start refs last) :
    (∃ r, Closes g.rules [start.name] start.body.leftmost r) ∨
      ∀ r, Closes g.rules (entered start refs).reverse last.body.leftmost r →
        Closes g.rules [start.name] start.body.leftmost r := by
  induction h with
  | start => exact .inr fun r hr => hr
  | @enter refs rule next s _ hs hnext ih =>
    rcases ih with hfound | hback
    · exact .inl hfound
    have hmem : s ∈ rule.body.leftmost := mem_leftmost_iff.mpr hs
    by_cases hpath : s.name ∈ (entered start refs).reverse
    · exact .inl ⟨s, hback s (.here hmem hpath)⟩
    · refine .inr fun r hr => hback r (.step hmem hpath hnext ?_)
      rwa [entered_append, List.reverse_append] at hr

/-- Where a chain comes back, the search finds one that does. -/
theorem closes_of_comesBack (h : ComesBack g start r) :
    ∃ r, Closes g.rules [start.name] start.body.leftmost r := by
  obtain ⟨refs, last, hchain, hfront, hentered⟩ := h
  rcases hchain.closes with hfound | hback
  · exact hfound
  · exact ⟨r, hback r (.here (mem_leftmost_iff.mpr hfront) (List.mem_reverse.mpr hentered))⟩

/-- What closes a chain that goes on from another one comes back on the two together. -/
theorem Chain.comesBack (h : Chain g start refs last) {path : List String}
    (hpath : path = (entered start refs).reverse)
    (hclose : Closes g.rules path last.body.leftmost r) : ComesBack g start r := by
  generalize hfronts : last.body.leftmost = fronts at hclose
  -- The path of the search is what the chain has entered, in reverse.
  induction hclose generalizing refs last with
  | here hr hmem =>
    subst hpath hfronts
    exact ⟨refs, last, h, mem_leftmost_iff.mp hr, List.mem_reverse.mp hmem⟩
  | @step path fronts s r rule hs _ hrule _ ih =>
    subst hpath hfronts
    refine ih (h.enter (mem_leftmost_iff.mp hs) hrule) ?_ rfl
    rw [entered_append, List.reverse_append]
    rfl

/-- What the search finds comes back. -/
theorem comesBack_of_closes (h : Closes g.rules [start.name] start.body.leftmost r) :
    ComesBack g start r := Chain.start.comesBack rfl h

/-- From a name that a chain has entered, its rest leads on. -/
theorem Chain.from_entered (hstart : g.find? start.name = some start) (h : Chain g start refs last)
    {name : String} (hname : name ∈ entered start refs) :
    ∃ rule refs', g.find? name = some rule ∧ Chain g rule refs' last := by
  induction h with
  | start =>
    obtain rfl := List.mem_singleton.mp hname
    exact ⟨start, [], hstart, .start⟩
  | @enter refs rule next s _ hs hnext ih =>
    rw [entered_append, List.mem_append, List.mem_singleton] at hname
    rcases hname with hname | rfl
    · obtain ⟨first, refs', hfirst, hchain⟩ := ih hname
      exact ⟨first, refs' ++ [s], hfirst, hchain.enter hs hnext⟩
    · exact ⟨next, [], hnext, .start⟩

theorem name_of_find? {name : String} {rule : Rule} (h : g.find? name = some rule) :
    rule.name = name := by
  simpa using List.find?_some h

/-- With distinct names, the rule to which a chain comes back reaches itself. -/
theorem ComesBack.reachesItself (h : ComesBack g start r) (hg : g.ruleNames.Nodup)
    (hstart : start ∈ g.rules) : ∃ rule, g.find? r.name = some rule ∧ ReachesItself g rule := by
  obtain ⟨refs, last, hchain, hfront, hentered⟩ := h
  have hfirst := Grammar.find?_of_nodup hg hstart
  obtain ⟨rule, refs', hrule, hchain'⟩ := hchain.from_entered hfirst hentered
  exact ⟨rule, hrule, refs', last, r, hchain', hfront, (name_of_find? hrule).symm⟩

end

/-! ### The search over all rules -/

/-- The search for a reference that leads back to the path, depth first, through the first rule of
every name that is not on the path, however often it was seen elsewhere. -/
inductive Searches (g : Grammar) : List String → List Reference → Option Reference → Prop
  | done {path : List String} : Searches g path [] none
  | back {path : List String} {r : Reference} {rs : List Reference} :
      r.name ∈ path → Searches g path (r :: rs) (some r)
  | undefined {path : List String} {r : Reference} {rs : List Reference} {o : Option Reference} :
      r.name ∉ path → g.find? r.name = none → Searches g path rs o → Searches g path (r :: rs) o
  | found {path : List String} {r s : Reference} {rs : List Reference} {rule : Rule} :
      r.name ∉ path → g.find? r.name = some rule →
        Searches g (r.name :: path) rule.body.leftmost (some s) → Searches g path (r :: rs) (some s)
  | onward {path : List String} {r : Reference} {rs : List Reference} {rule : Rule}
      {o : Option Reference} :
      r.name ∉ path → g.find? r.name = some rule →
        Searches g (r.name :: path) rule.body.leftmost none → Searches g path rs o →
          Searches g path (r :: rs) o

/-- The search from each of the rules, up to the first one that finds something. -/
inductive SearchesAll (g : Grammar) : List Rule → Option Reference → Prop
  | done : SearchesAll g [] none
  | found {rule : Rule} {rules : List Rule} {r : Reference} :
      Searches g [rule.name] rule.body.leftmost (some r) → SearchesAll g (rule :: rules) (some r)
  | onward {rule : Rule} {rules : List Rule} {o : Option Reference} :
      Searches g [rule.name] rule.body.leftmost none → SearchesAll g rules o →
        SearchesAll g (rule :: rules) o

section

variable {g : Grammar}

/-- The search over all rules ends, and it comes to the same as the one that forgets the rules of
the names on its path: it never goes into any of those. -/
theorem searches_closingReference (known : List Rule) (path : List String) (refs : List Reference)
    (hknown : ∀ name ∉ path, known.find? (·.name == name) = g.find? name) :
    Searches g path refs (closingReference known path refs) := by
  induction known, path, refs using closingReference.induct with
  | case1 known path =>
    rw [closingReference]
    exact .done
  | case2 known path s refs hs =>
    rw [closingReference, if_pos hs]
    exact .back hs
  | case3 known path s refs hs hnone ih =>
    rw [closingReference, if_neg hs, hnone]
    exact .undefined hs ((hknown _ hs).symm.trans hnone) (ih hknown)
  | case4 known path s refs hs rule hrule ihbody ih =>
    rw [closingReference, if_neg hs, hrule]
    have hfind : g.find? s.name = some rule := (hknown _ hs).symm.trans hrule
    -- Behind `s` its name is on the path, and only for such names is a rule not known any more.
    have hbody := ihbody fun name hname => by
      rw [List.mem_cons, not_or] at hname
      rw [find?_rulesExcept hname.1, hknown name hname.2]
    dsimp only
    cases hbelow :
        closingReference (rulesExcept s.name known) (s.name :: path) rule.body.leftmost with
    | none =>
      rw [Option.none_or]
      exact .onward hs hfind (hbelow ▸ hbody) (ih hknown)
    | some r => exact .found hs hfind (hbelow ▸ hbody)

theorem searchesAll_findSome? (rules : List Rule) : SearchesAll g rules
    (rules.findSome? fun rule => closingReference g.rules [rule.name] rule.body.leftmost) := by
  induction rules with
  | nil => exact .done
  | cons rule rules ih =>
    have hfirst := searches_closingReference (g := g) g.rules [rule.name] rule.body.leftmost
      fun _ _ => rfl
    rw [List.findSome?_cons]
    cases h : closingReference g.rules [rule.name] rule.body.leftmost with
    | none => exact .onward (h ▸ hfirst) ih
    | some r => exact .found (h ▸ hfirst)

/-- The check reports what the search finds. -/
theorem checkLeftRecursion_eq (g : Grammar) : g.checkLeftRecursion =
    match g.rules.findSome? fun rule =>
      closingReference g.rules [rule.name] rule.body.leftmost with
    | some r => .error (.leftRecursion r.name r.span)
    | none => .ok () := rfl

/-- What is reported closes a chain from a rule of the list. -/
theorem exists_closes_of_error {e : GrammarError} (h : g.checkLeftRecursion = .error e) :
    ∃ rule ∈ g.rules, ∃ r, e = .leftRecursion r.name r.span ∧
      Closes g.rules [rule.name] rule.body.leftmost r := by
  rw [checkLeftRecursion_eq] at h
  split at h
  · next r hr =>
    obtain ⟨rule, hrule, hfound⟩ := List.exists_of_findSome?_eq_some hr
    have hsound := (closingReference_spec g.rules g.rules [rule.name] rule.body.leftmost
      fun _ _ => rfl).1
    exact ⟨rule, hrule, r, (Except.error.inj h).symm, hsound r hfound⟩
  · nomatch h

/-- The check for left recursion, for every grammar. Its search over all rules ends, and it reports
what that finds. It refuses the grammar if and only if a chain of leftmost references from some rule
of the list comes back. It reports the name and the place of a reference with which a chain does,
and with distinct rule names the rule of that name reaches itself. -/
theorem checkLeftRecursion_exact (g : Grammar) :
    ((SearchesAll g g.rules none ∧ g.checkLeftRecursion = .ok ()) ∨
      ∃ r, SearchesAll g g.rules (some r) ∧
        g.checkLeftRecursion = .error (.leftRecursion r.name r.span)) ∧
    ((∃ e, g.checkLeftRecursion = .error e) ↔ ∃ start ∈ g.rules, ∃ r, ComesBack g start r) ∧
    ∀ e, g.checkLeftRecursion = .error e → ∃ r, e = .leftRecursion r.name r.span ∧
      (∃ start ∈ g.rules, ComesBack g start r) ∧
      (g.ruleNames.Nodup → ∃ rule, g.find? r.name = some rule ∧ ReachesItself g rule) := by
  refine ⟨?_, ⟨?_, ?_⟩, ?_⟩
  · have hsearch := searchesAll_findSome? (g := g) g.rules
    rw [checkLeftRecursion_eq]
    cases h : g.rules.findSome? fun rule =>
        closingReference g.rules [rule.name] rule.body.leftmost with
    | none => exact .inl ⟨h ▸ hsearch, rfl⟩
    | some r => exact .inr ⟨r, h ▸ hsearch, rfl⟩
  · rintro ⟨e, he⟩
    obtain ⟨start, hstart, r, -, hclose⟩ := exists_closes_of_error he
    exact ⟨start, hstart, r, comesBack_of_closes hclose⟩
  · rintro ⟨start, hstart, r, hback⟩
    obtain ⟨r', hclose⟩ := closes_of_comesBack hback
    have hnot : g.checkLeftRecursion ≠ .ok () := fun hok =>
      Grammar.checkLeftRecursion_eq_ok_iff_closes.mp hok start hstart r' hclose
    cases h : g.checkLeftRecursion with
    | error e => exact ⟨e, rfl⟩
    | ok => exact absurd h hnot
  · intro e he
    obtain ⟨start, hstart, r, rfl, hclose⟩ := exists_closes_of_error he
    have hback := comesBack_of_closes hclose
    exact ⟨r, rfl, ⟨start, hstart, hback⟩, fun hg => hback.reachesItself hg hstart⟩

end

/-- Three rules that call each other in a ring, as in `a=b 'x';b=c?;c='z'/a`. -/
def circular : Grammar where
  initializer := none
  rules := [
    ⟨⟨0, 8⟩, "a", .sequence ⟨⟨2, 7⟩, none, none⟩ [
      .ruleRef ⟨⟨2, 3⟩, none, none⟩ "b", .literal ⟨⟨4, 7⟩, none, none⟩ "x" false], 0⟩,
    ⟨⟨8, 13⟩, "b", .optional ⟨⟨10, 12⟩, none, none⟩ (.ruleRef ⟨⟨10, 11⟩, none, none⟩ "c"), 0⟩,
    ⟨⟨13, 20⟩, "c", .choice ⟨⟨15, 20⟩, none, none⟩ [
      .literal ⟨⟨15, 18⟩, none, none⟩ "z" false, .ruleRef ⟨⟨19, 20⟩, none, none⟩ "a"], 0⟩]
  start := "a"

theorem checkLeftRecursion_exact_circular : circular.ruleNames.Nodup ∧
    circular.checkLeftRecursion = .error (.leftRecursion "a" ⟨19, 20⟩) ∧
    (∃ start ∈ circular.rules, ComesBack circular start ⟨"a", ⟨19, 20⟩⟩) ∧
    ∃ rule, circular.find? "a" = some rule ∧ ReachesItself circular rule := by
  have hnames : circular.ruleNames.Nodup := by decide
  have hcheck : circular.checkLeftRecursion = .error (.leftRecursion "a" ⟨19, 20⟩) := by cbv
  obtain ⟨⟨name, span⟩, heq, hback, hitself⟩ := (checkLeftRecursion_exact circular).2.2 _ hcheck
  obtain ⟨rfl, rfl⟩ := GrammarError.leftRecursion.inj heq
  exact ⟨hnames, hcheck, hback, hitself hnames⟩

end Packrat
