import Packrat.Proofs.Bypass
import Packrat.Proofs.Lowering
import Packrat.Proofs.Memory

/-!
# Proxies are not observable

A grammar and the one without its proxies have different programs: fewer rules, other rule numbers,
other registers. `Bypasses` says what is left in common behind a single removal. Every rule but the
proxy has the same body up to a renumbering of its calls, and the renumbering takes the proxy to
where it takes the proxy's target.

Two parses without a memory then follow each other, in states that differ in their journals only.
Where both run a rule that is left, the bodies do it. Where one of them enters the proxy, it only
enters the target from there. A memory is put back at the end, since it changes no result.

## Main results

* `bypassed_leads`, `leads_bypassed`: a single removal, seen from both sides
* `removeProxies_agrees`: all removals
-/

namespace Packrat

open Filter Run

/-! ### Where rules go -/

/-- The number of a rule once the one numbered `k` is gone and `j` is where its target has gone. -/
def settle (k j i : Nat) : Nat := if i < k then i else if i = k then j else i - 1

/-- Keeps numbers below `size`, and makes all others the first one. -/
def clamp (size i : Nat) : Nat := if i < size then i else 0

theorem findIdx?_settle {before after : List String} {source target : String} {j : Nat}
    (hsource : source ∉ before)
    (hj : (before ++ after).findIdx? (· == target) = some j) {name : String} {i : Nat}
    (hi : (before ++ source :: after).findIdx? (· == name) = some i) :
    (before ++ after).findIdx? (· == Expr.redirection source target name) =
      some (settle before.length j i) := by
  rw [List.findIdx?_append, List.findIdx?_cons] at hi
  by_cases hname : name = source
  · subst hname
    have hnone : before.findIdx? (· == name) = none := by
      rw [List.findIdx?_eq_none_iff]
      intro x hx
      exact beq_eq_false_iff_ne.mpr fun heq => hsource (heq ▸ hx)
    obtain rfl : before.length = i := by simpa [hnone] using hi
    rw [Expr.redirection, if_pos rfl, settle, if_neg (Nat.lt_irrefl _), if_pos rfl, hj]
  · rw [Expr.redirection, if_neg hname, List.findIdx?_append]
    have hne : (source == name) = false := beq_eq_false_iff_ne.mpr (Ne.symm hname)
    rw [hne] at hi
    cases hbefore : before.findIdx? (· == name) with
    | some b =>
      obtain rfl : b = i := by simpa [hbefore] using hi
      have hlt : b < before.length := (List.findIdx?_eq_some_iff_findIdx_eq.mp hbefore).1
      rw [settle, if_pos hlt]
      rfl
    | none =>
      cases hafter : after.findIdx? (· == name) with
      | none => simp [hbefore, hafter] at hi
      | some a =>
        obtain rfl : a + 1 + before.length = i := by simpa [hbefore, hafter] using hi
        rw [settle, if_neg (by omega), if_neg (by omega)]
        simp only [Option.map_some, Option.none_or, Option.some.injEq]
        omega

theorem getElem?_settle {α : Type} {before after : List α} {a : α} {j i : Nat}
    (hi : i ≠ before.length) :
    (before ++ after)[settle before.length j i]? = (before ++ a :: after)[i]? := by
  by_cases hlt : i < before.length
  · rw [settle, if_pos hlt, List.getElem?_append_left hlt, List.getElem?_append_left hlt]
  · obtain ⟨d, rfl⟩ : ∃ d, i = before.length + (d + 1) :=
      ⟨i - before.length - 1, by omega⟩
    have hpred : before.length + (d + 1) - 1 = before.length + d := rfl
    rw [settle, if_neg hlt, if_neg hi, hpred, List.getElem?_append_right (by omega),
      List.getElem?_append_right (by omega), Nat.add_sub_cancel_left, Nat.add_sub_cancel_left,
      List.getElem?_cons_succ]

namespace Grammar

variable {g : Grammar}

@[simp] theorem ruleNames_bypass (g : Grammar) (rest : List Rule) (source target : String) :
    (g.bypass rest source target).ruleNames = rest.map (·.name) := by
  rw [ruleNames, bypass, List.map_map]
  rfl

/-- A proxy is not numbered as its target is. -/
theorem HasProxy.index_ne {before after : List Rule} {proxy : Rule} {target : String}
    (h : g.HasProxy before proxy after target) (hg : g.Sound) {t : Nat}
    (ht : g.findIndex? target = some t) : t ≠ before.length := by
  rintro rfl
  obtain ⟨hlt, hname, -⟩ := List.findIdx?_eq_some_iff_getElem.mp ht
  simp only [h.rules, List.getElem_append_right, Nat.le_refl, Nat.sub_self, List.getElem_cons_zero,
    beq_iff_eq] at hname
  exact h.target_ne hg hname.symm

theorem HasProxy.findIndex?_bypass {before after : List Rule} {proxy : Rule} {target : String}
    (h : g.HasProxy before proxy after target) (hg : g.Sound) {j : Nat}
    (hj : (g.bypass (before ++ after) proxy.name target).findIndex? target = some j)
    {name : String} {i : Nat} (hi : g.findIndex? name = some i) :
    (g.bypass (before ++ after) proxy.name target).findIndex?
      (Expr.redirection proxy.name target name) = some (settle before.length j i) := by
  have hnames := hg.names
  rw [findIndex?_eq, ruleNames_bypass, List.map_append] at hj ⊢
  rw [findIndex?_eq, ruleNames, h.rules, List.map_append, List.map_cons] at hi
  rw [ruleNames, h.rules, List.map_append, List.map_cons] at hnames
  have hsource : proxy.name ∉ before.map (·.name) := by
    intro hmem
    exact (List.nodup_append.mp hnames).2.2 _ hmem _ List.mem_cons_self rfl
  have hsettle := findIdx?_settle hsource hj hi
  rwa [List.length_map] at hsettle

end Grammar

/-- What a program has in common with the one in which the rule numbered `k`, a mere call of the
rule numbered `t`, makes way. The calls of both are renumberings of the same calls, by `σ` on the
one side, which keeps the numbers of rules, and by `ρ` behind it on the other side. -/
structure Program.Bypasses (p p' : Program) (k t : Nat) (σ ρ : Nat → Nat) : Prop where
  code : p.code = p'.code
  start : p'.start = ρ p.start
  proxy : ∃ name, p.rules[k]? = some ⟨name, 1, .call 0 t⟩
  target : t ≠ k
  inRange : t < p.rules.size
  meet : ρ t = ρ k
  valid : ∀ i, σ i < p.rules.size
  rule : ∀ i r, i ≠ k → p.rules[i]? = some r → r.body = r.body.renumber σ ∧
    p'.rules[ρ i]? = some { r with body := r.body.renumber fun i => ρ (σ i) }

/-- A program bypasses a proxy if its rules are those before and behind it, with their calls led
elsewhere. -/
theorem Program.Bypasses.of_rules {p p' : Program} {as bs : List RuleProgram} {name : String}
    {t j : Nat} (hrules : p.rules = (as ++ ⟨name, 1, .call 0 t⟩ :: bs).toArray)
    (hself : (as ++ bs).map (RuleProgram.renumber (clamp p.rules.size)) = as ++ bs)
    (htarget : t ≠ as.length) (hrange : t < p.rules.size) (hmeet : settle as.length j t = j)
    (hrules' : p'.rules = ((as ++ bs).map (RuleProgram.renumber fun i =>
      settle as.length j (clamp p.rules.size i))).toArray)
    (hstart : p'.start = settle as.length j p.start) (hcode : p.code = p'.code) :
    p.Bypasses p' as.length t (clamp p.rules.size) (settle as.length j) := by
  refine ⟨hcode, hstart, ⟨name, ?_⟩, htarget, hrange, ?_, ?_, ?_⟩
  · rw [hrules]
    simp
  · rw [hmeet, settle, if_neg (Nat.lt_irrefl _), if_pos rfl]
  · intro i
    unfold clamp
    split
    · assumption
    · exact Nat.zero_lt_of_lt hrange
  · intro i r hi hr
    have hrest : (as ++ bs)[settle as.length j i]? = some r := by
      rw [getElem?_settle hi, ← hr, hrules, List.getElem?_toArray]
    have hmem := congrArg (·[settle as.length j i]?) hself
    simp only [List.getElem?_map, hrest, Option.map_some, Option.some.injEq] at hmem
    refine ⟨(congrArg RuleProgram.body hmem).symm, ?_⟩
    rw [hrules', List.getElem?_toArray, List.getElem?_map, hrest]
    rfl

theorem RuleProgram.renumber_id (r : RuleProgram) : r.renumber id = r := by
  rw [RuleProgram.renumber, Op.renumber_id]

namespace Grammar.HasProxy

variable {g : Grammar} {before after : List Rule} {proxy : Rule} {target : String} {p : Program}

/-- The rules of a program around a proxy. Those before and behind it can be lowered without it,
with renamed references and renumbered calls. -/
theorem lower_around (h : g.HasProxy before proxy after target) (hp : g.assignSlots.lower = .ok p) :
    ∃ as bs t, p.rules = (as ++ ⟨proxy.name, 1, .call 0 t⟩ :: bs).toArray ∧
      as.length = before.length ∧ g.findIndex? target = some t ∧
        ∀ (names' : List String) (f : String → String) (ρ : Nat → Nat),
          (∀ name i, g.findIndex? name = some i → names'.findIdx? (· == f name) = some (ρ i)) →
            lowerRules names' ((before ++ after).map fun r => (r.rename f).assign) #[] =
              .ok ((as ++ bs).map (RuleProgram.renumber ρ), p.code) := by
  obtain ⟨rs, code, start, hrs, -, rfl⟩ := lower_eq_ok_iff.mp hp
  obtain ⟨i, hbody⟩ := h.body
  have hassign : proxy.assign =
      ⟨proxy.span, proxy.name, .ruleRef { i with result := some 0, place := none } target, 1⟩ := by
    rw [Rule.assign, hbody]
    rfl
  have hrules : g.assignSlots.rules =
      before.map Rule.assign ++ proxy.assign :: after.map Rule.assign := by
    rw [assignSlots, h.rules, List.map_append, List.map_cons]
  rw [ruleNames_assignSlots, hrules, hassign] at hrs
  obtain ⟨as, inner, rest, has, hrest, rfl⟩ := lowerRules_append.mp hrs
  obtain ⟨b, inner', bs, hb, hbs, rfl⟩ := lowerRules_cons.mp hrest
  obtain ⟨r, t, hr, ht, rfl, rfl⟩ := Expr.lower_ruleRef.mp hb
  obtain rfl : 0 = r := Option.some.inj hr
  refine ⟨as, bs, t, rfl, ?_, (findIndex?_eq g target).trans ht, ?_⟩
  · simpa using congrArg List.length (names_of_lowerRules has)
  · intro names' f ρ hρ
    simp only [findIndex?_eq] at hρ
    have hmap : ∀ rules : List Rule,
        rules.map (fun r => (r.rename f).assign) = (rules.map Rule.assign).map (Rule.rename f) := by
      intro rules
      simp only [Rule.assign_rename, List.map_map, Function.comp_def]
    rw [List.map_append, hmap, hmap, List.map_append]
    exact lowerRules_append.mpr
      ⟨_, _, _, lowerRules_rename hρ has, lowerRules_rename hρ hbs, rfl⟩

/-- The calls in the rules around a proxy are in range, so clamping keeps them. -/
theorem renumber_clamp {as bs : List RuleProgram}
    (hrange : ∀ name i, g.findIndex? name = some i → i < p.rules.size)
    (hlower : ∀ ρ : Nat → Nat,
      (∀ name i, g.findIndex? name = some i → g.ruleNames.findIdx? (· == name) = some (ρ i)) →
        lowerRules g.ruleNames ((before ++ after).map fun r => (r.rename id).assign) #[] =
          .ok ((as ++ bs).map (RuleProgram.renumber ρ), p.code)) :
    (as ++ bs).map (RuleProgram.renumber (clamp p.rules.size)) = as ++ bs := by
  have hid := hlower id fun name i hi => (findIndex?_eq g name).symm.trans hi
  have hsame := hlower (clamp p.rules.size) fun name i hi => by
    rw [clamp, if_pos (hrange name i hi)]
    exact (findIndex?_eq g name).symm.trans hi
  have heq := (Prod.mk.inj (Except.ok.inj (hsame.symm.trans hid))).1
  rw [heq, List.map_congr_left fun r _ => r.renumber_id, List.map_id']

/-- A removal bypasses the proxy, and the names that are left go where their rules do. -/
theorem exists_bypasses (h : g.HasProxy before proxy after target) (hg : g.Sound)
    (hp : g.assignSlots.lower = .ok p) :
    ∃ p' t σ ρ, (g.bypass (before ++ after) proxy.name target).assignSlots.lower = .ok p' ∧
      p.Bypasses p' before.length t σ ρ ∧
        ∀ name i, name ≠ proxy.name → g.findIndex? name = some i →
          p'.ruleIndex? name = some (ρ i) := by
  obtain ⟨as, bs, t, hrules, hlength, ht, hlower⟩ := h.lower_around hp
  obtain ⟨j, hj⟩ : ∃ j, (g.bypass (before ++ after) proxy.name target).findIndex? target =
      some j := by
    rw [← Option.isSome_iff_exists, isSome_findIndex?]
    exact h.defines_target hg
  have hrange : ∀ name i, g.findIndex? name = some i → i < p.rules.size := fun name i hi =>
    lt_of_findIndex? hp (by rwa [findIndex?_assignSlots])
  have hsettle : ∀ {name i}, g.findIndex? name = some i →
      (g.bypass (before ++ after) proxy.name target).findIndex?
        (Expr.redirection proxy.name target name) = some (settle before.length j i) :=
    h.findIndex?_bypass hg hj
  have hmeet : settle before.length j t = j := by
    have hredirected := hsettle ht
    rw [Expr.redirection, if_neg (h.target_ne hg), hj] at hredirected
    exact (Option.some.inj hredirected).symm
  have hleft := hlower (g.bypass (before ++ after) proxy.name target).ruleNames
    (Expr.redirection proxy.name target) (fun i => settle before.length j (clamp p.rules.size i))
    fun name i hi => by
      rw [clamp, if_pos (hrange name i hi), ← findIndex?_eq]
      exact hsettle hi
  have hstart : g.findIndex? g.start = some p.start := by
    rw [← findIndex?_assignSlots]
    exact start_of_lower hp
  have hbypass : (g.bypass (before ++ after) proxy.name target).assignSlots.rules =
      (before ++ after).map fun r => (r.redirect proxy.name target).assign := by
    rw [assignSlots, bypass, List.map_map]
    rfl
  have hp' : (g.bypass (before ++ after) proxy.name target).assignSlots.lower = .ok
      ⟨g.initializer.map (·.code), ((as ++ bs).map (RuleProgram.renumber fun i =>
        settle before.length j (clamp p.rules.size i))).toArray,
          settle before.length j p.start, p.code⟩ := by
    refine lower_eq_ok_iff.mpr ⟨_, _, _, ?_, ?_, rfl⟩
    · rw [ruleNames_assignSlots, hbypass]
      exact hleft
    · rw [findIndex?_assignSlots]
      exact hsettle hstart
  refine ⟨_, t, clamp p.rules.size, settle before.length j, hp', ?_, ?_⟩
  · rw [← hlength] at hmeet ⊢
    exact .of_rules hrules (renumber_clamp hrange (hlower g.ruleNames id))
      (hlength ▸ h.index_ne hg ht) (hrange target t ht) hmeet rfl rfl rfl
  · intro name i hne hi
    have hi' := hsettle hi
    rw [Expr.redirection, if_neg hne] at hi'
    rw [ruleIndex?_of_lower hp', findIndex?_assignSlots, hi']

end Grammar.HasProxy

/-! ### Runs around a removal -/

/-- The matcher without a memory. -/
def Matcher.forgetting (m : Matcher) : Matcher :=
  { m with options := { m.options with cache := false } }

theorem Matcher.gives_forgetting_iff (m : Matcher) (text : String) (start : Option String)
    (r : Except Failure Value) : m.forgetting.Gives text start r ↔ m.Gives text start r := by
  refine (Matcher.gives_iff_of_forgetful ?_ ?_ ?_ ?_ text start r).symm
  · rfl
  · rfl
  · rfl
  · rfl

/-- States without a memory that differ in their journals only. -/
structure Alike (s t : State) : Prop where
  forgetful : s.memory = none
  journal : ∃ journal, t = { s with journal }

theorem alike_start (tracked : Bool) (text : List Char) :
    Alike (State.start tracked false text) (State.start tracked false text) := ⟨rfl, _, rfl⟩

theorem Alike.finish_eq {s t : State} (h : Alike s t) (result : Option Value) :
    s.finish result = t.finish result := by
  obtain ⟨-, journal, rfl⟩ := h
  rfl

theorem Alike.failAt {s t : State} (h : Alike s t) (place : Cursor) (d : String) :
    Alike (s.failAt place d) (t.failAt place d) := by
  obtain ⟨hs, journal, rfl⟩ := h
  refine ⟨(State.memory_failAt ..).trans hs,
    (({ s with journal } : State).failAt place d).journal, ?_⟩
  have hreporting : ({ s with journal } : State).reporting = s.reporting := rfl
  unfold State.failAt State.note
  rw [hreporting]
  dsimp only
  split_ifs <;> rfl

theorem Alike.note {s t : State} (h : Alike s t) (e e' : Event) :
    Alike (s.note e) (t.note e') := by
  obtain ⟨hs, journal, rfl⟩ := h
  exact ⟨hs, _, rfl⟩

theorem steady_alike : Steady Alike where
  cursor h := by
    obtain ⟨-, journal, rfl⟩ := h
    rfl
  moveTo h _ := by
    obtain ⟨hs, journal, rfl⟩ := h
    exact ⟨hs, _, rfl⟩
  skip _ h := by
    obtain ⟨hs, journal, rfl⟩ := h
    exact ⟨hs, _, rfl⟩
  failAt _ d h := h.failAt _ d
  suspend h := by
    obtain ⟨hs, journal, rfl⟩ := h
    exact ⟨hs, _, rfl⟩
  resume _ h _ _ := by
    obtain ⟨hs, journal, rfl⟩ := h
    exact ⟨hs, _, rfl⟩
  called _ _ h := h.note _ _

theorem oblivious_alike : Oblivious Alike where
  left h := h.forgetful
  right h := by
    obtain ⟨hs, journal, rfl⟩ := h
    exact hs
  enteringLeft _ h := by
    obtain ⟨hs, journal, rfl⟩ := h
    exact ⟨hs, _, rfl⟩
  enteringRight _ h := by
    obtain ⟨hs, journal, rfl⟩ := h
    exact ⟨hs, _, rfl⟩

theorem Oblivious.flip {R : State → State → Prop} (hF : Oblivious R) : Oblivious (flip R) where
  left h := hF.right h
  right h := hF.left h
  enteringLeft rule h := hF.enteringRight rule h
  enteringRight rule h := hF.enteringLeft rule h

/-- The two sides may enter different rules. -/
theorem Oblivious.entering {R : State → State → Prop} (hF : Oblivious R) (rule rule' : Nat)
    (s t : State) (h : R s t) : R (s.entering rule) (t.entering rule') :=
  hF.enteringLeft rule (hF.enteringRight rule' h)

section

variable {R E : State → State → Prop} {m m' : Matcher} {k t : Nat} {name : String}

/-- Without a memory, a proxy does what its target does once the proxy has been entered. -/
theorem call_of_proxy (hr : m.program.rules[k]? = some ⟨name, 1, .call 0 t⟩) {s : State}
    (hs : s.memory = none) (fuel : Nat) :
    (∃ result u, (∀ registers, m.call fuel t ⟨s.entering k, registers⟩ =
        .ok result ⟨u, registers⟩) ∧ ∀ registers, m.call (fuel + 1) k ⟨s, registers⟩ =
          .ok result ⟨u.remember k s.cursor result, registers⟩) ∨
      ∃ e u, (∀ registers, ∃ last, m.call fuel t ⟨s.entering k, registers⟩ =
        .error e ⟨u, last⟩) ∧ ∀ registers, ∃ last, m.call (fuel + 1) k ⟨s, registers⟩ =
          .error e ⟨u, last⟩ := by
  have hmiss := Matcher.call_of_miss (State.lookUp_of_forgetful hs k) hr fuel
  have hbody : ∀ fr, m.ruleBody (m.call fuel) fuel ⟨name, 1, .call 0 t⟩ fr =
      ((m.call fuel t >>= Run.setOutcome 0) >>= fun _ => Run.take 0) fr := fun _ => rfl
  rcases m.call_registers fuel t (s.entering k) with ⟨result, u, hcall⟩ | ⟨e, u, hcall⟩
  · refine .inl ⟨result, u, hcall, ?_⟩
    intro registers
    rw [hmiss, hbody, bind_apply, bind_of_ok (hcall _)]
    rfl
  · refine .inr ⟨e, u, hcall, ?_⟩
    intro registers
    obtain ⟨last, hlast⟩ := hcall (.blank 1)
    rw [hmiss, hbody, bind_apply, bind_of_error hlast]
    exact ⟨last, rfl⟩

/-- What follows the target follows the proxy. -/
theorem Leads.proxy_left (hF : Oblivious R) (hr : m.program.rules[k]? = some ⟨name, 1, .call 0 t⟩)
    {fuel : Nat} {y : Nat → Run (Option Value)} (h : Leads R E (m.call fuel t) y) :
    Leads R E (m.call (fuel + 1) k) y := by
  rintro ⟨s, registers⟩ fr' hR
  have hfollows := h (hR.withState (hF.enteringLeft k hR.state))
  rcases call_of_proxy hr (hF.left hR.state) fuel with ⟨result, u, htarget, hproxy⟩ |
    ⟨e, u, htarget, hproxy⟩
  · rw [htarget] at hfollows
    obtain ⟨hR', hs, ht, hy⟩ | _ | _ := hfollows
    rw [hproxy, State.remember_of_forgetful (hF.left hR'.state)]
    exact .ok hR' hs ht hy
  · obtain ⟨last, htarget⟩ := htarget registers
    obtain ⟨last', hproxy⟩ := hproxy registers
    rw [htarget] at hfollows
    rw [hproxy]
    obtain _ | ⟨hne, hR', hy⟩ | _ := hfollows
    · exact .error hne hR' hy
    · exact .outOfFuel

/-- What leads to the target leads to the proxy. -/
theorem Leads.proxy_right (hF : Oblivious R) (hr : m.program.rules[k]? = some ⟨name, 1, .call 0 t⟩)
    {x : Run (Option Value)} (h : Leads R E x (fun n => m.call n t)) :
    Leads R E x (fun n => m.call n k) := by
  rintro fr ⟨s, registers⟩ hR
  refine Follows.succ ?_
  have hproxy := call_of_proxy hr (hF.right hR.state)
  have hfollows := h (hR.withState (hF.enteringRight k hR.state))
  cases hx : x fr with
  | ok a fr₁ =>
    rw [show x { fr with state := fr.state } = x fr from rfl, hx] at hfollows
    obtain @⟨_, _, fr₁', _, hR', hs, ht, hy⟩ | _ | _ := hfollows
    refine .ok hR' hs ht ?_
    filter_upwards [hy] with n hn
    rcases hproxy n with ⟨result, u, htarget, hn'⟩ | ⟨e, u, htarget, -⟩
    · obtain ⟨rfl, rfl⟩ := EStateM.Result.ok.inj (hn.symm.trans (htarget _))
      rw [hn', State.remember_of_forgetful (hF.right hR'.state)]
    · obtain ⟨last, htarget⟩ := htarget registers
      nomatch hn.symm.trans htarget
  | error e fr₁ =>
    rw [show x { fr with state := fr.state } = x fr from rfl, hx] at hfollows
    obtain _ | ⟨hne, hR', hy⟩ | _ := hfollows
    · refine .error hne hR' ?_
      filter_upwards [hy] with n hn
      obtain ⟨last, hn⟩ := hn
      rcases hproxy n with ⟨result, u, htarget, -⟩ | ⟨e', u, htarget, hn'⟩
      · nomatch hn.symm.trans (htarget _)
      · obtain ⟨last', htarget⟩ := htarget registers
        obtain ⟨rfl, heq⟩ := EStateM.Result.error.inj (hn.symm.trans htarget)
        obtain ⟨rfl, -⟩ := Frame.mk.inj heq
        exact hn' registers
    · exact .outOfFuel

variable {σ ρ : Nat → Nat} {i fuel : Nat}

/-- Without the proxy, rules do what they do with it. -/
theorem bypassed_leads (hb : m.program.Bypasses m'.program k t σ ρ)
    (hbindings : m.bindings = m'.bindings) (hi : i < m.program.rules.size) :
    Leads Alike Alike (m.call fuel i) (fun n => m'.call n (ρ i)) := by
  induction fuel generalizing i with
  | zero => exact .outOfFuel _
  | succ fuel ih =>
    by_cases hk : i = k
    · subst hk
      obtain ⟨name, hproxy⟩ := hb.proxy
      rw [← hb.meet]
      exact .proxy_left oblivious_alike hproxy (ih hb.inRange)
    · have hr := Array.getElem?_eq_getElem hi
      obtain ⟨hself, hr'⟩ := hb.rule i _ hk hr
      have hcall : ∀ i, Leads Alike Alike (m.call fuel (σ i)) (fun n => m'.call n (ρ (σ i))) :=
        fun i => ih (hb.valid i)
      exact call_leads_of_body oblivious_alike.toForgetful (oblivious_alike.entering _ _) hr hr' rfl
        (ruleBody_leads le_rfl hb.code hbindings steady_alike hcall fuel hself rfl)

/-- With the proxy, rules do what they do without it. -/
theorem leads_bypassed (hb : m.program.Bypasses m'.program k t σ ρ)
    (hbindings : m.bindings = m'.bindings) (hi : i < m.program.rules.size) :
    Leads (flip Alike) (flip Alike) (m'.call fuel (ρ i)) (fun n => m.call n i) := by
  induction fuel generalizing i with
  | zero => exact .outOfFuel _
  | succ fuel ih =>
    have hrest : ∀ {i}, i ≠ k → i < m.program.rules.size →
        Leads (flip Alike) (flip Alike) (m'.call (fuel + 1) (ρ i)) (fun n => m.call n i) := by
      intro i hk hi
      have hr := Array.getElem?_eq_getElem hi
      obtain ⟨hself, hr'⟩ := hb.rule i _ hk hr
      have hcall : ∀ i, Leads (flip Alike) (flip Alike) (m'.call fuel (ρ (σ i)))
          (fun n => m.call n (σ i)) := fun i => ih (hb.valid i)
      exact call_leads_of_body oblivious_alike.flip.toForgetful
        (oblivious_alike.flip.entering _ _) hr' hr rfl (ruleBody_leads le_rfl hb.code.symm
          hbindings.symm steady_alike.flip hcall fuel rfl hself)
    by_cases hk : i = k
    · subst hk
      obtain ⟨name, hproxy⟩ := hb.proxy
      rw [← hb.meet]
      exact .proxy_right oblivious_alike.flip hproxy (hrest hb.target hb.inRange)
    · exact hrest hk hi

/-- A removal changes no result. -/
theorem gives_iff_of_bypasses (hb : m.program.Bypasses m'.program k t σ ρ)
    (hbindings : m.bindings = m'.bindings) (hoptions : m.options = m'.options)
    {start start' : Option String} (hstart : m.startIndex start = .ok i)
    (hstart' : m'.startIndex start' = .ok (ρ i)) (hi : i < m.program.rules.size) (text : String)
    (r : Except Matcher.Failure Value) : m.Gives text start r ↔ m'.Gives text start' r := by
  have htracked : m.forgetting.options.trackLines = m'.forgetting.options.trackLines := by
    change m.options.trackLines = m'.options.trackLines
    rw [hoptions]
  have halike : Alike
      (State.start m.forgetting.options.trackLines m.forgetting.options.cache text.toList)
      (State.start m'.forgetting.options.trackLines m'.forgetting.options.cache text.toList) := by
    rw [htracked]
    exact alike_start ..
  have hforth : ∀ fuel, Leads Alike Alike (m.forgetting.call fuel i)
      (fun n => m'.forgetting.call n (ρ i)) := fun _ => bypassed_leads hb hbindings hi
  have hback : ∀ fuel, Leads (flip Alike) (flip Alike) (m'.forgetting.call fuel (ρ i))
      (fun n => m.forgetting.call n i) := fun _ => leads_bypassed hb hbindings hi
  rw [← m.gives_forgetting_iff, ← m'.gives_forgetting_iff]
  constructor
  · intro h
    exact h.of_leads hstart hstart' halike hforth fun s t hst => hst.finish_eq
  · intro h
    exact h.of_leads hstart' hstart halike hback fun s t hst result => (hst.finish_eq result).symm

end

/-! ### Results of grammars -/

namespace Grammar

variable {g g' : Grammar}

/-- One grammar stands for another: it keeps some of the rules, and its matchers, which need the
same functions of the host, give the same results from the start and from every rule that is kept.
-/
structure StandsFor (g' g : Grammar) : Prop where
  kept (name : String) : g'.defines name = true → g.defines name = true
  missing (h : Actions) (options : Options) (e : BuildFailure) :
    g.matcher h options = .error e ↔ g'.matcher h options = .error e
  gives {h : Actions} {options : Options} {m m' : Matcher} : g.matcher h options = .ok m →
    g'.matcher h options = .ok m' → ∀ (text : String) (r : Except Matcher.Failure Value),
      (m.Gives text none r ↔ m'.Gives text none r) ∧
        ∀ name, g'.defines name = true → (m.Gives text (some name) r ↔ m'.Gives text (some name) r)

theorem StandsFor.refl (g : Grammar) : g.StandsFor g where
  kept _ h := h
  missing _ _ _ := Iff.rfl
  gives hm hm' text r := by
    obtain rfl := Except.ok.inj (hm.symm.trans hm')
    exact ⟨Iff.rfl, fun _ _ => Iff.rfl⟩

theorem StandsFor.trans {g₁ g₂ g₃ : Grammar} (h : g₃.StandsFor g₂) (h' : g₂.StandsFor g₁) :
    g₃.StandsFor g₁ where
  kept name hname := h'.kept name (h.kept name hname)
  missing host options e := (h'.missing host options e).trans (h.missing host options e)
  gives {host options m₁ m₃} hm₁ hm₃ text r := by
    obtain ⟨m₂, hm₂⟩ : ∃ m₂, g₂.matcher host options = .ok m₂ := by
      cases hm₂ : g₂.matcher host options with
      | ok m₂ => exact ⟨m₂, rfl⟩
      | error e => nomatch hm₁.symm.trans ((h'.missing host options e).mpr hm₂)
    obtain ⟨hstart, hname⟩ := h.gives hm₂ hm₃ text r
    obtain ⟨hstart', hname'⟩ := h'.gives hm₁ hm₂ text r
    refine ⟨hstart'.trans hstart, ?_⟩
    intro name hdefines
    exact (hname' name (h.kept name hdefines)).trans (hname name hdefines)

/-- Without one proxy, a grammar stands for the grammar with it. -/
theorem HasProxy.standsFor {before after : List Rule} {proxy : Rule} {target : String}
    (h : g.HasProxy before proxy after target) (hg : g.Sound) :
    (g.bypass (before ++ after) proxy.name target).StandsFor g := by
  refine ⟨fun name hname => ((h.defines_bypass hg name).mp hname).1, ?_, ?_⟩
  · intro host options e
    obtain ⟨p, hp⟩ := exists_lower hg.references hg.start
    obtain ⟨p', _, _, _, hp', hb, -⟩ := h.exists_bypasses hg hp
    rw [matcher_of_lower hp, matcher_of_lower hp', hb.code]
    cases p'.code.toList.mapM (Matcher.bindSite host) with
    | error e' => exact Iff.rfl
    | ok bindings =>
      constructor
      · intro heq
        nomatch heq
      · intro heq
        nomatch heq
  · intro host options m m' hm hm' text r
    obtain ⟨hp, hbind, hoptions⟩ := parts_of_matcher hm
    obtain ⟨hp', hbind', hoptions'⟩ := parts_of_matcher hm'
    obtain ⟨p', t, σ, ρ, hlower, hb, hindex⟩ := h.exists_bypasses hg hp
    obtain rfl := Except.ok.inj (hlower.symm.trans hp')
    rw [← hb.code, hbind] at hbind'
    have hbindings : m.bindings = m'.bindings := Array.toList_inj.mp (Except.ok.inj hbind')
    have hsame := hoptions.trans hoptions'.symm
    have hlt : ∀ {name i}, g.findIndex? name = some i → i < m.program.rules.size := by
      intro name i hi
      exact lt_of_findIndex? hp (by rwa [findIndex?_assignSlots])
    constructor
    · have hstart := start_of_lower hp
      rw [findIndex?_assignSlots] at hstart
      exact gives_iff_of_bypasses hb hbindings hsame rfl (congrArg _ hb.start) (hlt hstart) text r
    · intro name hname
      obtain ⟨hdefines, hne⟩ := (h.defines_bypass hg name).mp hname
      obtain ⟨i, hi⟩ : ∃ i, g.findIndex? name = some i := by
        rw [← Option.isSome_iff_exists, isSome_findIndex?]
        exact hdefines
      have hi' : m.program.ruleIndex? name = some i := by
        rw [ruleIndex?_of_lower hp, findIndex?_assignSlots, hi]
      refine gives_iff_of_bypasses hb hbindings hsame ?_ ?_ (hlt hi) text r
      · rw [Matcher.startIndex, hi']
      · rw [Matcher.startIndex, hindex name i hne hi]

/-- Removing the proxies of a sound grammar leaves none of them, keeps the grammar sound, and
changes no result. -/
theorem Sound.removeProxies (hg : g.Sound) :
    (∀ rule ∈ g.removeProxies.1.rules, rule.body.proxyTarget? = none) ∧
      g.removeProxies.1.Sound ∧ g.removeProxies.1.StandsFor g := by
  have hend := removeProxies_invariant
    (I := fun kept pending start => (∀ rule ∈ kept, rule.body.proxyTarget? = none) ∧
      (⟨g.initializer, kept ++ pending, start⟩ : Grammar).Sound ∧
        (⟨g.initializer, kept ++ pending, start⟩ : Grammar).StandsFor g)
    ?_ ?_ ⟨nofun, hg, .refl g⟩
  · rwa [List.append_nil] at hend
  · rintro kept pending start rule hrule ⟨hkept, hsound, hstands⟩
    rw [List.append_cons] at hsound hstands
    refine ⟨fun other hother => ?_, hsound, hstands⟩
    rcases List.mem_append.mp hother with hother | hother
    · exact hkept other hother
    · rwa [List.mem_singleton.mp hother]
  · rintro kept pending start rule target hrule ⟨hkept, hsound, hstands⟩
    have hproxy : (⟨g.initializer, kept ++ rule :: pending, start⟩ : Grammar).HasProxy kept rule
        pending target := ⟨rfl, hrule⟩
    have hbypass := hproxy.sound_bypass hsound
    have hfurther := hproxy.standsFor hsound
    rw [bypass, List.map_append] at hbypass hfurther
    refine ⟨fun other hother => ?_, hbypass, hfurther.trans hstands⟩
    obtain ⟨old, hold, rfl⟩ := List.mem_map.mp hother
    change (old.body.rename _).proxyTarget? = none
    rw [Expr.proxyTarget?_rename, hkept old hold]
    rfl

/-- Removing the proxies of a checked grammar leaves none of them, keeps what the checks ensure, and
changes no result. -/
theorem removeProxies_standsFor (hnames : g.ruleNames.Nodup) (hstart : g.defines g.start = true)
    (hreferences : g.checkReferences = .ok ()) (hleft : g.checkLeftRecursion = .ok ()) :
    (∀ rule ∈ g.removeProxies.1.rules, rule.body.proxyTarget? = none) ∧
      (∀ ref ∈ g.removeProxies.1.references, g.removeProxies.1.defines ref.name = true) ∧
        g.removeProxies.1.defines g.removeProxies.1.start = true ∧
          g.removeProxies.1.checkReferences = .ok () ∧
            g.removeProxies.1.checkLeftRecursion = .ok () ∧
              (∀ h options, (∃ e, g.matcher h options = .error (.build e)) ∨
                ∃ m, g.matcher h options = .ok m) ∧ g.removeProxies.1.StandsFor g := by
  have hg : g.Sound := (sound_iff hnames hstart).mpr ⟨hreferences, hleft⟩
  obtain ⟨hproxies, hsound, hstands⟩ := hg.removeProxies
  have hchecks := (sound_iff hsound.names hsound.start).mp hsound
  refine ⟨hproxies, hsound.references, hsound.start, hchecks.1, hchecks.2, ?_, hstands⟩
  intro h options
  obtain ⟨p, hp⟩ := exists_lower hg.references hg.start
  rw [matcher_of_lower hp]
  cases p.code.toList.mapM (Matcher.bindSite h) with
  | error e => exact .inl ⟨e, rfl⟩
  | ok bindings => exact .inr ⟨_, rfl⟩

/-- Two proxies, one before and one behind the rule at the end of their chain. -/
def chain : Grammar where
  initializer := none
  rules := [
    ⟨default, "s", .ruleRef ⟨default, none, none⟩ "t", 0⟩,
    ⟨default, "u", .any ⟨default, none, none⟩, 0⟩,
    ⟨default, "t", .ruleRef ⟨default, none, none⟩ "u", 0⟩]
  start := "s"

theorem removeProxies_standsFor_chain :
    (chain.ruleNames.Nodup ∧ chain.defines chain.start = true ∧ chain.checkReferences = .ok () ∧
      chain.checkLeftRecursion = .ok ()) ∧ chain.removeProxies.1.ruleNames = ["u"] ∧
        chain.removeProxies.1.StandsFor chain := by
  have hnames : chain.ruleNames.Nodup := by decide
  have hstart : chain.defines chain.start = true := by decide
  have hreferences : chain.checkReferences = .ok () := by rfl
  have hleft : chain.checkLeftRecursion = .ok () := by cbv
  have hremoved : chain.removeProxies.1.ruleNames = ["u"] := by cbv
  have hspec := removeProxies_standsFor hnames hstart hreferences hleft
  exact ⟨⟨hnames, hstart, hreferences, hleft⟩, hremoved, hspec.2.2.2.2.2.2⟩

end Grammar

end Packrat
