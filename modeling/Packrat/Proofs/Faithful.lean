import Packrat.Proofs.CodeSites
import Packrat.Proofs.Liveness

/-!
# Operations mean what their expressions mean

An expression gets its slots, is lowered, and the operation is run by the matcher; or the expression
is evaluated as it stands. `Faithful` says that the run goes the course of the evaluation, from
registers that are `Ready` to registers that are `Settled`. There is one lemma for each form of
expression, and each of them follows the steps of the operation: what is acquired, what is read
while it is still live, where the outcome goes.

Code blocks are found through their sites. Sites are numbered in the order in which they are met, so
the sites of a part of a program are sites of the whole (`Extends`), and the functions bound to them
are those that the host offers for their code (`Serves`).

## Main results

* `faithful`: the operation of every expression mirrors its meaning
-/

namespace Packrat

/-! ### Code sites -/

/-- All sites of one list are sites of another, with the same numbers. -/
def Extends (sites code : Array CodeSite) : Prop :=
  ∀ (i : Nat) (site : CodeSite), sites[i]? = some site → code[i]? = some site

theorem Extends.trans {sites inner code : Array CodeSite} (h : Extends sites inner)
    (h' : Extends inner code) : Extends sites code := fun i site hsite => h' i site (h i site hsite)

theorem Extends.of_append {sites code : Array CodeSite} {more : List CodeSite}
    (h : code.toList = sites.toList ++ more) : Extends sites code := by
  intro i site hsite
  rw [← Array.getElem?_toList] at hsite ⊢
  rw [h, List.getElem?_append_left (List.getElem?_eq_some_iff.mp hsite).1, hsite]

theorem Extends.push (sites : Array CodeSite) (site : CodeSite) :
    Extends sites (sites.push site) := .of_append Array.toList_push

theorem Extends.last {sites code : Array CodeSite} {site : CodeSite}
    (h : Extends (sites.push site) code) : code[sites.size]? = some site :=
  h _ _ (by rw [Array.getElem?_push, if_pos rfl])

namespace Expr

variable {names : List String}

theorem extends_of_lowerAll {items : List Expr} {sites sites' : Array CodeSite} {os : List Op}
    (h : lowerAll names items sites = .ok (os, sites')) : Extends sites sites' :=
  .of_append (codeSitesAll_of_lowerAll (fun e _ _ _ _ => e.codeSites_of_lower) h)

/-- An operation puts its outcome where the expression was told to. -/
theorem result_of_lower (e : Expr) {r : Nat} {p : Pool} {sites sites' : Array CodeSite} {o : Op}
    (h : (e.assign r p).1.lower names sites = .ok (o, sites')) : o.result = r := by
  induction e using Expr.inductionOn generalizing r p sites sites' o with
  | named i name body ih =>
    obtain ⟨_, b, hr, -, rfl⟩ := lower_named.mp h
    exact (Option.some.inj hr).symm
  | choice i items ih =>
    obtain ⟨_, bs, hr, -, rfl⟩ := lower_choice.mp h
    exact (Option.some.inj hr).symm
  | action i code params body ih =>
    obtain ⟨_, place, b, inner, hr, -, -, rfl, -⟩ := lower_action.mp h
    exact (Option.some.inj hr).symm
  | sequence i items ih =>
    obtain ⟨_, place, bs, hr, -, -, rfl⟩ := lower_sequence.mp h
    exact (Option.some.inj hr).symm
  | labeled i label body ih => exact ih (lower_labeled.mp h).2
  | lookahead i negated body ih =>
    obtain ⟨_, place, b, hr, -, -, rfl⟩ := lower_lookahead.mp h
    exact (Option.some.inj hr).symm
  | predicate i negated code params =>
    obtain ⟨_, hr, rfl, -⟩ := lower_predicate.mp h
    exact (Option.some.inj hr).symm
  | optional i body ih =>
    obtain ⟨_, b, hr, -, rfl⟩ := lower_optional.mp h
    exact (Option.some.inj hr).symm
  | repeated i nonempty body ih =>
    obtain ⟨_, b, hr, -, rfl⟩ := lower_repeated.mp h
    exact (Option.some.inj hr).symm
  | ruleRef i name =>
    obtain ⟨_, rule, hr, -, rfl, -⟩ := lower_ruleRef.mp h
    exact (Option.some.inj hr).symm
  | literal i value ignoreCase =>
    obtain ⟨_, hr, rfl, -⟩ := lower_literal.mp h
    exact (Option.some.inj hr).symm
  | charClass i members raw =>
    obtain ⟨_, hr, rfl, -⟩ := lower_charClass.mp h
    exact (Option.some.inj hr).symm
  | any i =>
    obtain ⟨_, hr, rfl, -⟩ := lower_any.mp h
    exact (Option.some.inj hr).symm

theorem results_of_lowerAll {items : List Expr} {p : Pool} {sites sites' : Array CodeSite}
    {os : List Op} (h : lowerAll names (assignElements items p).1 sites = .ok (os, sites')) :
    os.map Op.result = (assignElements items p).2.1 := by
  induction items generalizing p sites os with
  | nil =>
    obtain ⟨rfl, -⟩ := lowerAll_nil.mp h
    rfl
  | cons e es ih =>
    obtain ⟨b, inner, bs, hb, hbs, rfl⟩ := lowerAll_cons.mp h
    rw [List.map_cons, result_of_lower e hb, ih hbs]
    rfl

end Expr

/-- The functions bound to the sites of a program are those that the host offers for their code. -/
def Matcher.Serves (m : Matcher) (h : Actions) : Prop :=
  ∀ (i : Nat) (site : CodeSite), m.program.code[i]? = some site →
    ∃ b, m.bindings[i]? = some b ∧ Matcher.bindSite h site = .ok b

/-! ### The forms -/

open Run

section

variable (m : Matcher) (h : Actions) (names : List String) (call : Nat → Run (Option Value))
  (outcome : String → Parse (Option Value)) (fuel : Nat)

/-- The operation of an expression goes the course of its evaluation. -/
structure Faithful (e : Expr) : Prop where
  tracks {owned : List Nat} {r : Nat} {p : Pool} {env : List (Scope Value)}
    {regs : Registers Cursor} {sites sites' : Array CodeSite} {o : Op} :
      Ready owned r p env regs → (e.assign r p).1.lower names sites = .ok (o, sites') →
        Extends sites' m.program.code → (e.assign r p).2.holders.length ≤ regs.size →
          Tracks m regs (fun _ => Settled owned r p (e.assign r p).2 env regs)
            (m.eval call fuel o) (e.meaning h outcome fuel env)

end

section

variable {m : Matcher} {h : Actions} {names : List String} {call : Nat → Run (Option Value)}
  {outcome : String → Parse (Option Value)} {fuel : Nat} {owned : List Nat} {r : Nat} {p : Pool}
  {env : List (Scope Value)} {regs : Registers Cursor} {sites sites' : Array CodeSite} {o : Op}
  {i : Info} {body : Expr} {items : List Expr}

theorem lt_of_ready (e : Expr) (hready : Ready owned r p env regs)
    (hsize : (e.assign r p).2.holders.length ≤ regs.size) : r < regs.size :=
  e.lt_of_assign hready.accounts hready.owned hsize

/-- An expression in a scope of its own. -/
theorem Faithful.enclosed {e : Expr} (he : Faithful m h names call outcome fuel e)
    (hready : Ready owned r p env regs)
    (hlower : (e.assign r p.openScope).1.lower names sites = .ok (o, sites'))
    (hsites : Extends sites' m.program.code)
    (hsize : (e.assign r p.openScope).2.holders.length ≤ regs.size) :
    Tracks m regs (fun _ v regs' => Intact owned r p.scopes env regs regs' ∧ regs'.matchAt r = v ∧
      v ≠ some .null) (m.eval call fuel o) (Parse.enclosed (e.meaning h outcome fuel) env) := by
  refine Tracks.map_right (he.tracks hready.openScope hlower hsites hsize) ?_
  rintro _ hit regs' hsettled
  refine ⟨hsettled.intact, hsettled.outcome, ?_⟩
  cases hit with
  | none => nofun
  | some w => exact fun heq => (hsettled.inner w.1 w.2 rfl).1 (Option.some.inj heq)

theorem faithful_named {name : String} (ih : Faithful m h names call outcome fuel body) :
    Faithful m h names call outcome fuel (.named i name body) := by
  refine ⟨fun {owned r p env regs sites sites' o} hready hlower hsites hsize => ?_⟩
  have hr := lt_of_ready (.named i name body) hready hsize
  obtain ⟨_, b, hres, hb, rfl⟩ := Expr.lower_named.mp hlower
  obtain rfl := Option.some.inj hres
  rw [Matcher.eval, Expr.meaning]
  refine .bind (.silently (ih.tracks hready hb hsites hsize)) ?_
  rintro _ hit regs' hsettled
  refine .left (isMatch_matchAt (hsettled.size ▸ hr)) ?_
  rw [hsettled.outcome]
  cases hit with
  | none =>
    refine Tracks.map_right (.fail name) ?_
    rintro _ _ _ rfl
    exact hsettled
  | some w => exact .pure hsettled

/-- Alternatives with one outcome slot: behind the last one that was tried, it holds the outcome. -/
theorem firstMatch_tracks (ih : ∀ e ∈ items, Faithful m h names call outcome fuel e)
    {os : List Op} (hready : Ready owned r p env regs)
    (hlower : Expr.lowerAll names (Expr.assignAlternatives r items p).1 sites = .ok (os, sites'))
    (hsites : Extends sites' m.program.code)
    (hsize : (Expr.assignAlternatives r items p).2.holders.length ≤ regs.size)
    (hnone : items = [] → regs.matchAt r = none) :
    Tracks m regs (fun _ v regs' => Intact owned r p.scopes env regs regs' ∧ regs'.matchAt r = v ∧
      v ≠ some .null) (m.firstMatch call fuel r os)
      (Expr.meaningFirst h outcome fuel items env) := by
  induction items generalizing p regs sites os with
  | nil =>
    obtain ⟨rfl, rfl⟩ := Expr.lowerAll_nil.mp hlower
    rw [Matcher.firstMatch, Expr.meaningFirst]
    exact .pure ⟨hready.intact, hnone rfl, by simp⟩
  | cons e es ihes =>
    obtain ⟨b, inner, bs, hb, hbs, rfl⟩ := Expr.lowerAll_cons.mp hlower
    have hrest := Expr.extends_of_lowerAll hbs
    have hfirst := (e.assign_keeps hready.openScope.accounts hready.owned)
    have hclosed := hfirst.closeScope hready.accounts.opened
    have hkeeps := (Expr.alternatives_keep es hclosed.accounts hready.owned).1
    have hgrows : (e.assign r p.openScope).2.holders.length ≤ regs.size := by
      rw [← Pool.length_closeScope]
      exact Nat.le_trans hkeeps.grows hsize
    rw [Matcher.firstMatch, Expr.meaningFirst]
    refine .bind ((ih e List.mem_cons_self).enclosed hready hb (hrest.trans hsites) hgrows) ?_
    rintro _ v regs' ⟨hintact, hmatch, hv⟩
    have hr : r < regs'.size := by
      rw [hintact.size]
      exact hready.lt (Nat.le_trans hfirst.grows hgrows)
    refine .left (isMatch_matchAt hr) ?_
    rw [hmatch]
    cases v with
    | some v => exact .pure ⟨hintact, hmatch, hv⟩
    | none =>
      have hready' := hready.of_intact hintact hclosed.accounts hfirst.scopes_closeScope
      have hsize' : (Expr.assignAlternatives r es
          (e.assign r p.openScope).2.closeScope).2.holders.length ≤ regs'.size := by
        rw [hintact.size]
        exact hsize
      refine Tracks.mono (ihes (fun e he => ih e (List.mem_cons_of_mem _ he)) hready' hbs hsize'
        fun _ => hmatch) ?_
      rintro _ v regs'' ⟨hintact', hmatch', hv'⟩
      rw [hfirst.scopes_closeScope] at hintact'
      exact ⟨hintact.trans hintact', hmatch', hv'⟩

theorem faithful_choice (ih : ∀ e ∈ items, Faithful m h names call outcome fuel e)
    (hitems : items ≠ []) : Faithful m h names call outcome fuel (.choice i items) := by
  refine ⟨fun {owned r p env regs sites sites' o} hready hlower hsites hsize => ?_⟩
  obtain ⟨_, bs, hres, hbs, rfl⟩ := Expr.lower_choice.mp hlower
  obtain rfl := Option.some.inj hres
  rw [Matcher.eval, Expr.meaning]
  have hscopes := (Expr.alternatives_keep items hready.accounts hready.owned).2
  refine Tracks.map_right (firstMatch_tracks ih hready hbs hsites hsize (absurd · hitems)) ?_
  rintro _ v regs' ⟨hintact, hmatch, hv⟩
  exact .within hintact hmatch hv hscopes

theorem faithful_labeled {label : String} (ih : Faithful m h names call outcome fuel body) :
    Faithful m h names call outcome fuel (.labeled i label body) := by
  refine ⟨fun {owned r p env regs sites sites' o} hready hlower hsites hsize => ?_⟩
  have hkeeps := body.assign_keeps hready.openScope.accounts hready.owned
  have hscopes := hkeeps.scopes_closeScope
  have hsize' : (body.assign r p.openScope).2.holders.length ≤ regs.size := by
    refine Nat.le_trans (Nat.le_of_eq ?_) hsize
    exact ((Pool.length_bindLabel ..).trans (Pool.length_closeScope _)).symm
  rw [Expr.meaning]
  refine Tracks.map_right
    (ih.enclosed hready (Expr.lower_labeled.mp hlower).2 hsites hsize') ?_
  rintro _ v regs' ⟨hintact, hmatch, hv⟩
  refine ⟨hintact.size, hintact.kept, ?_, hintact.bound.tail, ?_⟩
  · rw [hmatch]
    cases v <;> rfl
  · intro w env' heq
    cases v with
    | none => cases heq
    | some v =>
      obtain ⟨rfl, rfl⟩ := Prod.mk.inj (Option.some.inj heq)
      have hnull : v ≠ .null := fun h => hv (congrArg some h)
      obtain ⟨scope, outer, hcons⟩ := List.exists_cons_of_ne_nil hready.accounts.opened
      have hbind := Pool.scopes_bindLabel (body.assign r p.openScope).2.closeScope label r
        (hscopes.trans hcons)
      refine ⟨hnull, ?_, ?_⟩
      · change Bound (Pool.bindLabel _ label r).scopes regs' _
        rw [hbind]
        exact (hcons ▸ hintact.bound).bindLabel label hmatch hnull
      · cases env <;> rfl

theorem faithful_optional (ih : Faithful m h names call outcome fuel body) :
    Faithful m h names call outcome fuel (.optional i body) := by
  refine ⟨fun {owned r p env regs sites sites' o} hready hlower hsites hsize => ?_⟩
  have hr := lt_of_ready (.optional i body) hready hsize
  obtain ⟨_, b, hres, hb, rfl⟩ := Expr.lower_optional.mp hlower
  obtain rfl := Option.some.inj hres
  have hkeeps := body.assign_keeps hready.openScope.accounts hready.owned
  have hscopes := hkeeps.scopes_closeScope
  have hsize' : (body.assign r p.openScope).2.holders.length ≤ regs.size := by
    rw [← Pool.length_closeScope]
    exact hsize
  rw [Matcher.eval, Expr.meaning]
  refine .bind (ih.enclosed hready hb hsites hsize') ?_
  rintro _ v regs' ⟨hintact, hmatch, hv⟩
  have hr' : r < regs'.size := hintact.size ▸ hr
  refine .left (isMatch_matchAt hr') ?_
  rw [hmatch]
  cases v with
  | some v => exact .pure (.within hintact hmatch hv hscopes)
  | none =>
    refine .last (setOutcome_put hr' _) ?_
    exact Settled.put (v := some .empty) hintact hr' hready.free (by rintro ⟨⟩) hscopes

/-- The body of a repetition has its outcome slot for itself and starts each pass in a scope of its
own. -/
theorem faithful_repeated {nonempty : Bool} (ih : Faithful m h names call outcome fuel body) :
    Faithful m h names call outcome fuel (.repeated i nonempty body) := by
  refine ⟨fun {owned r p env regs sites sites' o} hready hlower hsites hsize => ?_⟩
  have hr := lt_of_ready (.repeated i nonempty body) hready hsize
  obtain ⟨_, b, hres, hb, rfl⟩ := Expr.lower_repeated.mp hlower
  obtain rfl := Option.some.inj hres
  have hresult := body.result_of_lower hb
  have hitem := hready.acquire
  have hkeeps := body.assign_keeps hitem.openScope.accounts hitem.owned
  have hclosed := hkeeps.closeScope hitem.accounts.opened
  obtain ⟨-, hlt, -, hacquired, -⟩ := p.acquire_spec
  have hscopes : ((Expr.repeated i nonempty body).assign r p).2.scopes = p.scopes :=
    Expr.scopes_assign_repeated hready.accounts
  have hsize' : (body.assign p.acquire.1 p.acquire.2.openScope).2.holders.length ≤ regs.size :=
    Pool.length_le_of_released hsize
  have hslot : p.acquire.1 < regs.size :=
    Nat.lt_of_lt_of_le hlt (Nat.le_trans hkeeps.grows hsize')
  have hpass : ∀ r', Intact (p.acquire.1 :: owned) p.acquire.1 p.acquire.2.scopes env regs r' →
      Tracks m r' (fun _ v r'' => p.acquire.1 < r''.size ∧ r''.matchAt p.acquire.1 = v ∧
        Intact (p.acquire.1 :: owned) p.acquire.1 p.acquire.2.scopes env regs
          (r''.put p.acquire.1 .blank)) (m.eval call fuel b)
        (Parse.enclosed (body.meaning h outcome fuel) env) := by
    intro r' hintact
    have hready' := hitem.of_intact hintact hitem.accounts rfl
    refine Tracks.mono (ih.enclosed hready' hb hsites (hintact.size ▸ hsize')) ?_
    rintro _ v r'' ⟨hintact', hmatch, -⟩
    have hslot' : p.acquire.1 < r''.size := by
      rw [hintact'.size, hintact.size]
      exact hslot
    exact ⟨hslot', hmatch, (hintact.trans hintact').put hslot' hitem.free _⟩
  rw [Matcher.eval, Expr.meaning, hresult]
  refine .bind (.collect hpass hitem.intact fuel) ?_
  rintro values _ regs' ⟨rfl, hintact⟩
  have hr' : r < regs'.size := hintact.size ▸ hr
  have hintact' : Intact owned r p.scopes env regs regs' := by
    refine ⟨hintact.size, ?_, hacquired ▸ hintact.bound⟩
    intro slot howned _
    exact hintact.kept slot (List.mem_cons_of_mem _ howned)
      (ne_of_mem_of_not_mem howned hready.accounts.fresh.1)
  split
  · refine .last (setOutcome_put hr' _) ?_
    exact Settled.put (v := none) hintact' hr' hready.free (by simp) hscopes
  · refine .last (setOutcome_put hr' _) ?_
    exact Settled.put (v := some (.arr values)) hintact' hr' hready.free (by simp) hscopes

theorem emptyIf_ne_null (b : Bool) : emptyIf b ≠ some .null := by
  cases b <;> nofun

theorem faithful_lookahead {negated : Bool} (ih : Faithful m h names call outcome fuel body) :
    Faithful m h names call outcome fuel (.lookahead i negated body) := by
  refine ⟨fun {owned r p env regs sites sites' o} hready hlower hsites hsize => ?_⟩
  have hr := lt_of_ready (.lookahead i negated body) hready hsize
  obtain ⟨_, place, b, hres, hplace, hb, rfl⟩ := Expr.lower_lookahead.mp hlower
  obtain rfl := Option.some.inj hres
  obtain rfl := Option.some.inj hplace
  obtain ⟨-, hlt, -, hacquired, -⟩ := p.acquire_spec
  have hscopes : ((Expr.lookahead i negated body).assign r p).2.scopes = p.scopes :=
    Expr.scopes_assign_lookahead hready.accounts hready.owned
  have hkeeps := body.assign_keeps hready.accounts.acquire.openScope
    (List.mem_cons_of_mem _ hready.owned)
  have hsize' : (body.assign r p.acquire.2.openScope).2.holders.length ≤ regs.size :=
    Pool.length_le_of_released hsize
  have hslot : p.acquire.1 < regs.size :=
    Nat.lt_of_lt_of_le hlt (Nat.le_trans hkeeps.grows hsize')
  rw [Matcher.eval, Expr.meaning]
  refine .savePlace hslot fun begun => ?_
  have hready' := hready.place hslot (.place begun)
  refine .bind (.silently (ih.enclosed hready' hb hsites
    (Registers.size_put regs _ _ ▸ hsize'))) ?_
  rintro _ v regs' ⟨hintact, hmatch, hv⟩
  rw [hacquired] at hintact
  obtain ⟨hintact, hbegun⟩ := hintact.place hready hslot
  have hr' : r < regs'.size := hintact.size ▸ hr
  refine .left (isMatch_matchAt hr') ?_
  rw [hmatch]
  have hput : ∀ b, Settled owned r p _ env regs (Hit.within env (emptyIf b))
      (regs'.put r (.outcome (emptyIf b))) :=
    fun b => .put hintact hr' hready.free (emptyIf_ne_null b) hscopes
  cases v with
  | none =>
    have hvalue : emptyIf ((none : Option Value).isSome != negated) = emptyIf negated := by
      cases negated <;> rfl
    refine .last (setOutcome_put hr' _) ?_
    rw [hvalue]
    exact hput negated
  | some v =>
    have hvalue : emptyIf ((some v).isSome != negated) = emptyIf !negated := by
      cases negated <;> rfl
    have hne : p.acquire.1 ≠ r :=
      (ne_of_mem_of_not_mem hready.owned hready.accounts.fresh.1).symm
    have hbegun' : (regs'.put r (.outcome (emptyIf !negated))).content p.acquire.1 =
        .place begun := by
      rw [Registers.content_put hr', if_neg hne, hbegun]
    have hslot' : p.acquire.1 < (regs'.put r (.outcome (emptyIf !negated))).size := by
      rw [Registers.size_put, hintact.size]
      exact hslot
    refine .left (setOutcome_put hr' _) (.left (place_content hslot' hbegun') ?_)
    rw [hvalue]
    refine Tracks.map_right (.moveTo begun) ?_
    rintro _ _ _ rfl
    exact hput !negated

theorem faithful_ruleRef {name : String}
    (hcall : ∀ rule, names.findIdx? (· == name) = some rule → ∀ regs, Tracks m regs
      (fun a b r => a = b ∧ a ≠ some .null ∧ r = regs) (call rule) (outcome name)) :
    Faithful m h names call outcome fuel (.ruleRef i name) := by
  refine ⟨fun {owned r p env regs sites sites' o} hready hlower hsites hsize => ?_⟩
  have hr := lt_of_ready (.ruleRef i name) hready hsize
  obtain ⟨_, rule, hres, hrule, rfl, rfl⟩ := Expr.lower_ruleRef.mp hlower
  obtain rfl := Option.some.inj hres
  rw [Matcher.eval, Expr.meaning_ruleRef]
  refine .bind (hcall rule hrule regs) ?_
  rintro v _ _ ⟨rfl, hv, rfl⟩
  exact .last (setOutcome_put hr v) (.put hready.intact hr hready.free hv rfl)

/-- A terminal puts its value into the outcome slot. -/
theorem faithful_terminal {f : State → Option Value × State} (hf : Terminal f)
    (hnull : ∀ s, (f s).1 ≠ some .null) (hready : Ready owned r p env regs) (hr : r < regs.size) :
    Tracks m regs (fun _ => Settled owned r p p env regs) (Run.step f >>= Run.setOutcome r)
      (Parse.step f >>= fun v => Pure.pure (Hit.within env v)) := by
  refine .bind (.step hf hnull) ?_
  rintro v _ _ ⟨rfl, hv, rfl⟩
  exact .last (setOutcome_put hr v) (.put hready.intact hr hready.free hv rfl)

theorem literal_ne_null (s : State) (value : String) (ignoreCase : Bool) (d : String) :
    (s.literal value ignoreCase d).1 ≠ some .null := by
  unfold State.literal
  dsimp only
  split
  · nofun
  · nofun

theorem charValue_ne_null (s : State) (q : Char → Bool) (d : String) :
    (s.charValue q d).1 ≠ some .null := by
  change (s.charWhere q d).1.map (fun c => Value.str (String.singleton c)) ≠ some .null
  cases (s.charWhere q d).1 with
  | none => nofun
  | some c => nofun

theorem faithful_literal {value : String} {ignoreCase : Bool} :
    Faithful m h names call outcome fuel (.literal i value ignoreCase) := by
  refine ⟨fun {owned r p env regs sites sites' o} hready hlower hsites hsize => ?_⟩
  have hr := lt_of_ready (.literal i value ignoreCase) hready hsize
  obtain ⟨_, hres, rfl, rfl⟩ := Expr.lower_literal.mp hlower
  obtain rfl := Option.some.inj hres
  rw [Matcher.eval, Expr.meaning]
  exact faithful_terminal (terminal_literal _ _ _) (fun s => literal_ne_null s _ _ _) hready hr

theorem faithful_charClass {members : CharClass} {raw : String} :
    Faithful m h names call outcome fuel (.charClass i members raw) := by
  refine ⟨fun {owned r p env regs sites sites' o} hready hlower hsites hsize => ?_⟩
  have hr := lt_of_ready (.charClass i members raw) hready hsize
  obtain ⟨_, hres, rfl, rfl⟩ := Expr.lower_charClass.mp hlower
  obtain rfl := Option.some.inj hres
  rw [Matcher.eval, Expr.meaning]
  exact faithful_terminal (terminal_charValue _ _) (fun s => charValue_ne_null s _ _) hready hr

theorem faithful_any : Faithful m h names call outcome fuel (.any i) := by
  refine ⟨fun {owned r p env regs sites sites' o} hready hlower hsites hsize => ?_⟩
  have hr := lt_of_ready (.any i) hready hsize
  obtain ⟨_, hres, rfl, rfl⟩ := Expr.lower_any.mp hlower
  obtain rfl := Option.some.inj hres
  rw [Matcher.eval, Expr.meaning]
  exact faithful_terminal (terminal_charValue _ _) (fun s => charValue_ne_null s _ _) hready hr

/-! ### Code blocks -/

theorem Matcher.Serves.action (hserves : m.Serves h) {site : Nat} {code : String}
    {labels : List String} (hsite : m.program.code[site]? = some ⟨.action, code, labels⟩) :
    ∃ f, m.bindings[site]? = some (.action f) ∧ ∀ cx, h.act code cx = f.run cx := by
  obtain ⟨b, hb, hbind⟩ := hserves site _ hsite
  unfold Matcher.bindSite at hbind
  dsimp only at hbind
  split at hbind
  · next f hf =>
    obtain rfl := Except.ok.inj hbind
    refine ⟨f, hb, fun cx => ?_⟩
    rw [Actions.act, hf]
  · nomatch hbind

theorem Matcher.Serves.predicate (hserves : m.Serves h) {site : Nat} {code : String}
    {labels : List String} (hsite : m.program.code[site]? = some ⟨.predicate, code, labels⟩) :
    ∃ f, m.bindings[site]? = some (.predicate f) ∧ ∀ cx, h.judge code cx = f.run cx := by
  obtain ⟨b, hb, hbind⟩ := hserves site _ hsite
  unfold Matcher.bindSite at hbind
  dsimp only at hbind
  split at hbind
  · next f hf =>
    obtain rfl := Except.ok.inj hbind
    refine ⟨f, hb, fun cx => ?_⟩
    rw [Actions.judge, hf]
  · nomatch hbind

theorem faithful_predicate {negated : Bool} {code : String} {params : Params}
    (hserves : m.Serves h) :
    Faithful m h names call outcome fuel (.predicate i negated code params) := by
  refine ⟨fun {owned r p env regs sites sites' o} hready hlower hsites hsize => ?_⟩
  have hr := lt_of_ready (.predicate i negated code params) hready hsize
  obtain ⟨_, hres, rfl, rfl⟩ := Expr.lower_predicate.mp hlower
  obtain rfl := Option.some.inj hres
  have hsite := hsites.last
  obtain ⟨f, hbinding, hjudge⟩ := hserves.predicate hsite
  have hanswer : ∀ s : State, m.runPredicate sites.size (p.inView.map Prod.snd) ⟨s, regs⟩ =
      Matcher.callCode sites.size (Context.ofMatch (Scope.inView env) s.cursor s.cursor .null) f
        ⟨s, regs⟩ := by
    intro s
    unfold Matcher.runPredicate
    rw [hbinding, bind_of_ok (cursor_apply _), bind_of_ok
      (context_ofMatch hready.accounts hready.bound hsize hsite s.cursor .null s)]
  rw [Matcher.eval, Expr.meaning]
  refine .of_cursor (f := fun here => Matcher.callCode sites.size
    (Context.ofMatch (Scope.inView env) here here .null) f >>= fun answer =>
      Run.setOutcome r (emptyIf (answer != negated))) ?_ fun here => ?_
  · intro s
    rw [Run.bind_apply, hanswer s, ← Run.bind_apply]
  · dsimp only
    rw [hjudge]
    refine .bind (.ask hsite f hready.bound.clean_inView) ?_
    rintro answer _ _ ⟨rfl, rfl⟩
    exact .last (setOutcome_put hr _)
      (.put hready.intact hr hready.free (emptyIf_ne_null _) rfl)

theorem faithful_action {code : String} {params : Params} (hserves : m.Serves h)
    (ih : Faithful m h names call outcome fuel body) :
    Faithful m h names call outcome fuel (.action i code params body) := by
  refine ⟨fun {owned r p env regs sites sites' o} hready hlower hsites hsize => ?_⟩
  have hr := lt_of_ready (.action i code params body) hready hsize
  have hassign : (Expr.assign r (.action i code params body) p).1 =
      .action { i with result := r, place := p.acquire.1 } code
        (body.assign r p.acquire.2.openScope).2.inView
        (body.assign r p.acquire.2.openScope).1 := rfl
  rw [hassign] at hlower
  obtain ⟨_, place, b, inner, hres, hplace, hb, rfl, rfl⟩ := Expr.lower_action.mp hlower
  obtain rfl := Option.some.inj hres
  obtain rfl := Option.some.inj hplace
  have hsite := hsites.last
  obtain ⟨f, hbinding, hact⟩ := hserves.action hsite
  obtain ⟨-, hlt, -, hacquired, -⟩ := p.acquire_spec
  have haccounts := hready.accounts.acquire
  have hkeeps := body.assign_keeps haccounts.openScope (List.mem_cons_of_mem _ hready.owned)
  have hscopes : ((Expr.action i code params body).assign r p).2.scopes = p.scopes :=
    Expr.scopes_assign_action hready.accounts hready.owned
  have hsize' : (body.assign r p.acquire.2.openScope).2.holders.length ≤ regs.size :=
    Pool.length_le_of_released hsize
  have hslot : p.acquire.1 < regs.size :=
    Nat.lt_of_lt_of_le hlt (Nat.le_trans hkeeps.grows hsize')
  rw [Matcher.eval, Expr.meaning]
  refine .savePlace hslot fun begun => ?_
  have hready' := hready.place hslot (.place begun)
  refine .bind (ih.tracks hready'.openScope hb ((Extends.push _ _).trans hsites)
    (Registers.size_put regs _ _ ▸ hsize')) ?_
  rintro _ hit regs' hsettled
  have hintact := hsettled.intact
  rw [hacquired] at hintact
  obtain ⟨hintact, hbegun⟩ := hintact.place hready hslot
  have hr' : r < regs'.size := hintact.size ▸ hr
  have hslot' : p.acquire.1 < regs'.size := hintact.size ▸ hslot
  refine .left (isMatch_matchAt hr') ?_
  have hmatch := hsettled.outcome
  rw [hmatch]
  cases hit with
  | none => exact .pure (.within (v := none) hintact hmatch (by simp) hscopes)
  | some w =>
    obtain ⟨matched, labels⟩ := w
    obtain ⟨-, hbound, -⟩ := hsettled.inner matched labels rfl
    have hcx := context_ofMatch hkeeps.accounts hbound (hintact.size ▸ hsize') hsite begun matched
    have hvalue : (regs'.matchAt r).getD .null = matched := by
      rw [hmatch]
      rfl
    refine .left (place_content hslot' hbegun) (.left (value_matchAt hr') ?_)
    rw [hvalue]
    refine .read (a := fun here => Context.ofMatch (Scope.inView labels) begun here matched) hcx
      fun here => ?_
    unfold Matcher.runAction
    dsimp only
    rw [hbinding, hact]
    refine .bind (.ask hsite f hbound.clean_inView) ?_
    rintro answer _ _ ⟨rfl, rfl⟩
    split
    · refine .left (setOutcome_put hr' _) (Tracks.map_right (.moveTo begun) ?_)
      rintro _ _ _ rfl
      exact Settled.put (v := none) hintact hr' hready.free (by simp) hscopes
    · next hnull =>
      refine .last (setOutcome_put hr' _) ?_
      exact Settled.put (v := some answer) hintact hr' hready.free
        (fun heq => hnull (Value.isNull_iff.mpr (Option.some.inj heq))) hscopes

/-! ### Sequences -/

/-- What the elements of a sequence leave, in `slots`. -/
structure Gathered (owned slots : List Nat) (p q : Pool) (env : List (Scope Value))
    (regs : Registers Cursor) (result : Option (List Value × List (Scope Value)))
    (regs' : Registers Cursor) : Prop where
  size : regs'.size = regs.size
  kept (slot : Nat) : slot ∈ owned → regs'.content slot = regs.content slot
  outer : Bound p.scopes.tail regs' env.tail
  inner (values : List Value) (env' : List (Scope Value)) : result = some (values, env') →
    slots.map regs'.matchAt = values.map some ∧ Bound q.scopes regs' env' ∧ env'.tail = env.tail

/-- An element takes a slot that nobody holds. -/
theorem Ready.element (haccounts : p.Accounts owned) (hbound : Bound p.scopes regs env) :
    Ready (p.acquire.1 :: owned) p.acquire.1 p.acquire.2 env regs := by
  obtain ⟨-, -, -, hacquired, -⟩ := p.acquire_spec
  refine ⟨haccounts.acquire, List.mem_cons_self, ?_, hacquired ▸ hbound⟩
  rw [Pool.labelSlots, hacquired]
  exact haccounts.fresh.2

section

variable {q q' : Pool} {slots : List Nat} {regs' regs'' : Registers Cursor}

/-- Behind an element, matched or not, what was live in front of it still is. -/
theorem Settled.gathered {hit : Hit} (haccounts : p.Accounts owned)
    (h : Settled (p.acquire.1 :: owned) p.acquire.1 p.acquire.2 q env regs hit regs') :
    Gathered owned slots p q' env regs none regs' := by
  obtain ⟨-, -, -, hacquired, -⟩ := p.acquire_spec
  refine ⟨h.size, ?_, hacquired ▸ h.outer, nofun⟩
  intro slot howned
  exact h.kept slot (List.mem_cons_of_mem _ howned) (ne_of_mem_of_not_mem howned haccounts.fresh.1)

/-- An element that has matched keeps its value while the others are run. -/
theorem Gathered.cons {v : Value} {env' : List (Scope Value)}
    {result : Option (List Value × List (Scope Value))} (haccounts : p.Accounts owned)
    (hsettled : Settled (p.acquire.1 :: owned) p.acquire.1 p.acquire.2 q env regs (some (v, env'))
      regs') (houter : q.scopes.tail = p.acquire.2.scopes.tail)
    (h : Gathered (p.acquire.1 :: owned) slots q q' env' regs' result regs'') :
    Gathered owned (p.acquire.1 :: slots) p q' env regs
      (result.map fun (vs, scopes) => (v :: vs, scopes)) regs'' := by
  obtain ⟨-, -, -, hacquired, -⟩ := p.acquire_spec
  obtain ⟨-, -, htail⟩ := hsettled.inner v env' rfl
  refine ⟨h.size.trans hsettled.size, ?_, ?_, ?_⟩
  · intro slot howned
    rw [h.kept slot (List.mem_cons_of_mem _ howned)]
    exact hsettled.kept slot (List.mem_cons_of_mem _ howned)
      (ne_of_mem_of_not_mem howned haccounts.fresh.1)
  · have hgone := h.outer
    rwa [houter, hacquired, htail] at hgone
  · intro values env'' heq
    obtain ⟨⟨vs, last⟩, rfl, hlast⟩ := Option.map_eq_some_iff.mp heq
    obtain ⟨rfl, rfl⟩ := Prod.mk.inj hlast
    obtain ⟨hvalues, hbound, htail'⟩ := h.inner vs last rfl
    refine ⟨?_, hbound, htail'.trans htail⟩
    have hhead : regs''.matchAt p.acquire.1 = some v := by
      rw [Registers.matchAt, h.kept _ List.mem_cons_self]
      exact hsettled.outcome
    exact List.cons_eq_cons.mpr ⟨hhead, hvalues⟩

end

/-- The slots of the elements that have matched are owned while the others are run. -/
theorem allMatch_tracks (ih : ∀ e ∈ items, Faithful m h names call outcome fuel e)
    {os : List Op} (haccounts : p.Accounts owned) (hbound : Bound p.scopes regs env)
    (hlower : Expr.lowerAll names (Expr.assignElements items p).1 sites = .ok (os, sites'))
    (hsites : Extends sites' m.program.code)
    (hsize : (Expr.assignElements items p).2.2.holders.length ≤ regs.size) :
    Tracks m regs (fun b result regs' => b = result.isSome ∧
      Gathered owned (Expr.assignElements items p).2.1 p (Expr.assignElements items p).2.2 env regs
        result regs') (m.allMatch call fuel os) (Expr.meaningAll h outcome fuel items env) := by
  induction items generalizing owned p env regs sites os with
  | nil =>
    obtain ⟨rfl, rfl⟩ := Expr.lowerAll_nil.mp hlower
    rw [Matcher.allMatch, Expr.meaningAll]
    refine .pure ⟨rfl, rfl, fun _ _ => rfl, hbound.tail, ?_⟩
    intro values env' heq
    obtain ⟨rfl, rfl⟩ := Prod.mk.inj (Option.some.inj heq)
    exact ⟨rfl, hbound, rfl⟩
  | cons e es ihes =>
    have hassign : (Expr.assignElements (e :: es) p).1 = (e.assign p.acquire.1 p.acquire.2).1 ::
        (Expr.assignElements es (e.assign p.acquire.1 p.acquire.2).2).1 := rfl
    rw [hassign] at hlower
    obtain ⟨b, inner, bs, hb, hbs, rfl⟩ := Expr.lowerAll_cons.mp hlower
    have hrest := Expr.extends_of_lowerAll hbs
    have hready := Ready.element haccounts hbound
    have hfirst := e.assign_keeps hready.accounts hready.owned
    have hkeeps := Expr.elements_keep es hfirst.accounts
    have hgrows := Nat.le_trans hkeeps.grows hsize
    have hslot := lt_of_ready e hready hgrows
    rw [Matcher.allMatch, Expr.meaningAll, e.result_of_lower hb]
    refine .bind ((ih e List.mem_cons_self).tracks hready hb (hrest.trans hsites) hgrows) ?_
    rintro _ hit regs' hsettled
    refine .left (isMatch_matchAt (hsettled.size ▸ hslot)) ?_
    rw [hsettled.outcome]
    cases hit with
    | none => exact .pure ⟨rfl, hsettled.gathered haccounts⟩
    | some w =>
      obtain ⟨v, env'⟩ := w
      obtain ⟨-, hbound', -⟩ := hsettled.inner v env' rfl
      refine Tracks.map_right (ihes (fun e he => ih e (List.mem_cons_of_mem _ he)) hfirst.accounts
        hbound' hbs (hsettled.size ▸ hsize)) ?_
      rintro _ result regs'' ⟨rfl, hgathered⟩
      refine ⟨?_, .cons haccounts hsettled hfirst.outer hgathered⟩
      cases result <;> rfl

/-- Where all elements have matched, their values are read off their slots. -/
theorem values_gathered {slots : List Nat} {values : List Value}
    (h : slots.map regs.matchAt = values.map some) (s : State) :
    Run.values slots ⟨s, regs⟩ = .ok values ⟨s, regs⟩ := by
  have hlt : ∀ slot ∈ slots, slot < regs.size := by
    intro slot hmem
    have hmatch : regs.matchAt slot ∈ values.map some := h ▸ List.mem_map_of_mem hmem
    obtain ⟨v, -, hv⟩ := List.mem_map.mp hmatch
    exact Registers.lt_of_matchAt hv.symm
  have hread : (slots.map fun slot => (regs.matchAt slot).getD .null) = values := by
    have hmap := congrArg (List.map fun v : Option Value => v.getD .null) h
    rw [List.map_map, List.map_map] at hmap
    exact hmap.trans (List.map_id' values)
  rw [values_matchAt hlt, hread]

/-- The place a sequence keeps is still there behind the elements. -/
theorem Gathered.place {slots : List Nat} {q : Pool} {begun : Cursor}
    {result : Option (List Value × List (Scope Value))} {regs' : Registers Cursor}
    (hgathered : Gathered (p.acquire.1 :: owned) slots p.acquire.2 q env
      (regs.put p.acquire.1 (.place begun)) result regs')
    (hslot : p.acquire.1 < regs.size) : regs'.content p.acquire.1 = .place begun := by
  rw [hgathered.kept _ List.mem_cons_self, Registers.content_put hslot, if_pos rfl]

/-- Behind the elements, the outcome slot takes the list of their values, or that one is missing. -/
theorem Gathered.settled {slots : List Nat} {q q' : Pool} {begun : Cursor}
    {result : Option (List Value × List (Scope Value))} {regs' : Registers Cursor}
    (hgathered : Gathered (p.acquire.1 :: owned) slots p.acquire.2 q env
      (regs.put p.acquire.1 (.place begun)) result regs')
    (hready : Ready owned r p env regs) (hslot : p.acquire.1 < regs.size) (hr : r < regs.size)
    (hscopes : q'.scopes = q.scopes) (hfree : r ∉ q.labelSlots) :
    Settled owned r p q' env regs (result.map fun w => (.arr w.1, w.2))
      (regs'.put r (.outcome (result.map fun w => .arr w.1))) := by
  obtain ⟨-, -, -, hacquired, -⟩ := p.acquire_spec
  have hsize : regs'.size = regs.size := hgathered.size.trans (Registers.size_put ..)
  have hr' : r < regs'.size := hsize ▸ hr
  refine ⟨(Registers.size_put ..).trans hsize, ?_, ?_, ?_, ?_⟩
  · intro slot howned hne
    rw [Registers.content_put hr', if_neg hne, hgathered.kept slot (List.mem_cons_of_mem _ howned),
      Registers.content_put hslot, if_neg (ne_of_mem_of_not_mem howned hready.accounts.fresh.1)]
  · rw [Registers.matchAt_put hr', if_pos rfl, Option.map_map]
    rfl
  · exact (hacquired ▸ hgathered.outer).put hr'
      (fun hmem => hready.free (Pool.mem_labelSlots_of_tail hmem)) _
  · intro v env' heq
    obtain ⟨⟨values, env''⟩, rfl, hw⟩ := Option.map_eq_some_iff.mp heq
    obtain ⟨rfl, rfl⟩ := Prod.mk.inj hw
    obtain ⟨-, hbound, htail⟩ := hgathered.inner values env'' rfl
    exact ⟨nofun, hscopes ▸ hbound.put hr' hfree _, htail⟩

theorem faithful_sequence (ih : ∀ e ∈ items, Faithful m h names call outcome fuel e) :
    Faithful m h names call outcome fuel (.sequence i items) := by
  refine ⟨fun {owned r p env regs sites sites' o} hready hlower hsites hsize => ?_⟩
  have hr := lt_of_ready (.sequence i items) hready hsize
  have hassign : (Expr.assign r (.sequence i items) p).1 = .sequence
      { i with result := r, place := p.acquire.1 } (Expr.assignElements items p.acquire.2).1 := rfl
  rw [hassign] at hlower
  obtain ⟨_, place, bs, hres, hplace, hbs, rfl⟩ := Expr.lower_sequence.mp hlower
  obtain rfl := Option.some.inj hres
  obtain rfl := Option.some.inj hplace
  have hresults := Expr.results_of_lowerAll hbs
  obtain ⟨-, hlt, -, hacquired, -⟩ := p.acquire_spec
  have hkeeps := Expr.elements_keep items hready.accounts.acquire
  have hsize' : (Expr.assignElements items p.acquire.2).2.2.holders.length ≤ regs.size := by
    refine Nat.le_trans (Nat.le_of_eq ?_) hsize
    exact ((Pool.length_release ..).trans (Pool.length_releaseAll ..)).symm
  have hslot : p.acquire.1 < regs.size :=
    Nat.lt_of_lt_of_le hlt (Nat.le_trans hkeeps.grows hsize')
  have hfree : r ∉ (Expr.assignElements items p.acquire.2).2.2.labelSlots :=
    Expr.assignElements_free (fun e _ _ _ _ => e.assign_free) hready.accounts.acquire
      (List.mem_cons_of_mem _ hready.owned)
      (by rw [Pool.labelSlots_of_scopes hacquired]; exact hready.free)
  have hscopes : (Expr.assign r (.sequence i items) p).2.scopes =
      (Expr.assignElements items p.acquire.2).2.2.scopes :=
    (Pool.scopes_release ..).trans (Pool.scopes_releaseAll ..)
  rw [Matcher.eval, Expr.meaning]
  refine .savePlace hslot fun begun => ?_
  have hready' := hready.place hslot (.place begun)
  refine .bind (allMatch_tracks ih hready'.accounts hready'.bound hbs hsites
    (Registers.size_put regs _ _ ▸ hsize')) ?_
  rintro _ result regs' ⟨rfl, hgathered⟩
  have hsettled := hgathered.settled hready hslot hr hscopes hfree
  have hr' : r < regs'.size := by
    rw [hgathered.size, Registers.size_put]
    exact hr
  cases result with
  | none =>
    have hne : p.acquire.1 ≠ r :=
      (ne_of_mem_of_not_mem hready.owned hready.accounts.fresh.1).symm
    have hbegun : (regs'.put r (.outcome none)).content p.acquire.1 = .place begun := by
      rw [Registers.content_put hr', if_neg hne, hgathered.place hslot]
    have hslot' : p.acquire.1 < (regs'.put r (.outcome none)).size := by
      rw [Registers.size_put, hgathered.size, Registers.size_put]
      exact hslot
    refine .left (setOutcome_put hr' none) (.left (place_content hslot' hbegun) ?_)
    refine Tracks.map_right (.moveTo begun) ?_
    rintro _ _ _ rfl
    exact hsettled
  | some w =>
    obtain ⟨values, env'⟩ := w
    refine .left (values_gathered (hresults ▸ (hgathered.inner values env' rfl).1)) ?_
    exact .last (setOutcome_put hr' _) hsettled

/-- The operation of every expression mirrors its meaning. -/
theorem faithful (hserves : m.Serves h)
    (hcall : ∀ name rule, names.findIdx? (· == name) = some rule → ∀ regs, Tracks m regs
      (fun a b r => a = b ∧ a ≠ some .null ∧ r = regs) (call rule) (outcome name))
    (e : Expr) (he : e.choosable = true) : Faithful m h names call outcome fuel e := by
  induction e using Expr.inductionOn with
  | named i name body ih => exact faithful_named (ih he)
  | choice i items ih =>
    rw [Expr.choosable, Bool.and_eq_true] at he
    have hitems := Expr.choosableAll_iff.mp he.2
    refine faithful_choice (fun e hmem => ih e hmem (hitems e hmem)) ?_
    rintro rfl
    cases he.1
  | action i code params body ih => exact faithful_action hserves (ih he)
  | sequence i items ih =>
    have hitems := Expr.choosableAll_iff.mp he
    exact faithful_sequence fun e hmem => ih e hmem (hitems e hmem)
  | labeled i label body ih => exact faithful_labeled (ih he)
  | lookahead i negated body ih => exact faithful_lookahead (ih he)
  | predicate i negated code params => exact faithful_predicate hserves
  | optional i body ih => exact faithful_optional (ih he)
  | repeated i nonempty body ih => exact faithful_repeated (ih he)
  | ruleRef i name => exact faithful_ruleRef (hcall name)
  | literal i value ignoreCase => exact faithful_literal
  | charClass i members raw => exact faithful_charClass
  | any i => exact faithful_any

end

end Packrat
