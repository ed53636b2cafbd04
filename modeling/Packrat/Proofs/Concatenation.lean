import Packrat.Proofs.Relocation

/-!
# One grammar behind another

A rule needs nothing to end it. It ends where the next one begins, so the rules of two texts can be
read from both texts at once, one behind the other with a line end between them. The line end keeps
apart a name at the end of the first text and one at the beginning of the second, and it ends a
comment that runs to the end of its line.

The rules of the first text are those in front of a tail (`Juncture.between`), and the rules of the
second one stand at the end of a longer text (`Juncture.last`). Both are cases of the same loop:
behind the rules of a text, the rules of its tail are collected (`collect_rule_append`).

## Main results

* `Grammar.parse_append`: the grammar of two texts, one behind the other
-/

namespace Packrat

open Text (byteLength)

namespace Grammar

/-- Where the rules begin. -/
def rulesStart (g : Grammar) : Nat := (g.rules.head?.map (·.span.start)).getD 0

/-- Where an offset of a text of `size` bytes gets to with a line end behind the text, and then
another text with its rules from `start` on. Blanks and comments belong to the token in front of
them, so what reaches up to the end of the text reaches up to the rules of the other one. -/
def stretch (size start offset : Nat) : Nat := if offset = size then size + 1 + start else offset

/-- The grammar of a text of `size` bytes with the text of another grammar behind it, on a line of
its own. -/
def followedBy (g g' : Grammar) (size : Nat) : Grammar where
  initializer := g.initializer
  rules := g.rules.map (.moved (stretch size g'.rulesStart) 0) ++
    g'.rules.map (.moved (· + (size + 1)) (size + 1))
  start := g.start

end Grammar

namespace Notation

open Peg Reader

/-! ### Where rules stand -/

theorem passes_rule {text : List Char} : rule.Traverses text fun c r d =>
    r.span = .between c.offset d.offset := by
  refine .attempt (.still fun begun => passes_identifier.any.after fun name => ?_)
  refine passes_string.optional.after fun display => (passes_token "=").after fun _ => ?_
  refine settles_choice.any.after fun e => (passes_token ";").optional.after fun _ => ?_
  refine (passes_spanSince begun).bind fun span => .pure ?_
  rintro d _ k - ⟨rfl, rfl⟩ m - b - a - i - c - rfl
  rfl

theorem passes_initializer {text : List Char} : initializer.Traverses text fun c i d =>
    i.span = .between c.offset d.offset := by
  refine .still fun begun => passes_action.any.after fun code =>
    (passes_token ";").optional.after fun _ => (passes_spanSince begun).bind fun span => .pure ?_
  rintro d _ k - ⟨rfl, rfl⟩ m - c - rfl
  rfl

/-! ### The rules of both texts -/

/-- At the end of the text there is no rule. -/
theorem collect_rule_of_nil {s : ReaderState} (hend : s.ahead = []) (bound : Nat) :
    ∃ t, collect rule bound s = ([], t) ∧ t.ahead = [] ∧ t.noted = s.noted := by
  cases bound with
  | zero => exact ⟨s, rfl, hend, rfl⟩
  | succ bound =>
    rw [collect]
    cases hrun : rule s with
    | mk o t =>
      cases o with
      | some r =>
        obtain ⟨ts, hd, -⟩ := reads_rule.matched (Nat.lt_succ_self _) hrun
        exact absurd hend (begins_rule.ne_nil hd)
      | none =>
        obtain ⟨-, hnoted⟩ := reads_rule.failed (Nat.lt_succ_self _) hrun
        exact ⟨t, rfl, (failsInPlace_attempt _ _ _ hrun).trans hend, hnoted.unchanged id id⟩

/-- Behind the rules of the text, the rules of the tail are collected. -/
theorem collect_rule_append {J : Juncture} {bound bound' : Nat} {s s' : ReaderState}
    (hs : s.SideBySide J.text J.longer s') (hmeets : J.Meets bound bound' s.ahead s'.ahead)
    (hend : (collect rule bound s).2.ahead = []) (hnoted : (collect rule bound s).2.noted = false) :
    ∃ u more, u.state.cursor.Within false J.longer ∧ u.ahead = J.next ∧ u.noted = false ∧
      u.ahead.length < more ∧ collect rule bound' s' =
        ((collect rule bound s).1.map (.moved J.shift (byteLength J.before)) ++
          (collect rule more u).1, (collect rule more u).2) := by
  -- Both loops take one rule at a time, until the first one is at the end of its text.
  induction bound generalizing bound' s s' with
  | zero => exact absurd hmeets.shorter (Nat.not_lt_zero _)
  | succ bound ih =>
    obtain ⟨bound', rfl⟩ := Nat.exists_eq_succ_of_ne_zero (Nat.ne_zero_of_lt hmeets.shorter')
    cases hrun : rule s with
    | mk o t =>
      cases o with
      | none =>
        have hcollect : collect rule (bound + 1) s = ([], t) := by rw [collect, hrun]
        rw [hcollect] at hend hnoted ⊢
        have hnil : s.ahead = [] := (failsInPlace_attempt _ _ _ hrun).symm.trans hend
        obtain ⟨-, hstill⟩ := reads_rule.failed (Nat.lt_succ_self _) hrun
        have hnext : s'.ahead = J.next := by
          rw [hmeets.place, hnil]
          rfl
        refine ⟨s', bound' + 1, hs.target, hnext, ?_, hmeets.shorter', rfl⟩
        rw [hs.noted, ← hstill.unchanged id id]
        exact hnoted
      | some r =>
        have hcollect : collect rule (bound + 1) s =
            (r :: (collect rule bound t).1, (collect rule bound t).2) := by rw [collect, hrun]
        rw [hcollect] at hend hnoted ⊢
        obtain ⟨ts, hd, -⟩ := reads_rule.matched (Nat.lt_succ_self _) hrun
        have hne : s.ahead ≠ [] := begins_rule.ne_nil hd
        rcases repeats_rule.matched hs ⟨hmeets, hne⟩ hrun with
          hn | ⟨r', t', hrun', rfl, ht, hmeets'⟩
        · exact hn.elim
        obtain ⟨u, more, hu, hnext, hquiet, hmore, hrest⟩ := ih ht hmeets' hend hnoted
        refine ⟨u, more, hu, hnext, hquiet, hmore, ?_⟩
        simp only [collect, hrun', hrest, List.map_cons, List.cons_append]

/-! ### Reading a whole text -/

theorem exists_of_bind {α β : Type} {p : Reader α} {f : α → Reader β} {s u : ReaderState} {b : β}
    (h : (p >>= f) s = (some b, u)) : ∃ a t, p s = (some a, t) ∧ f a t = (some b, u) := by
  rw [bind_apply] at h
  split at h
  · next a t hp => exact ⟨a, t, hp, h⟩
  · cases h

/-- The text is read as the grammar in three steps: blanks up to `u`, the initializer up to `v`, if
there is one, and the rules up to `t`, which is at the end and without a note. -/
structure Steps (text : List Char) (g : Grammar) (u v t : ReaderState) : Prop where
  skipped : skip ⟨State.start false false text, none⟩ = (some (), u)
  front : option initializer u = (some g.initializer, v)
  rules : collect rule (v.ahead.length + 1) v = (g.rules, t)
  start : g.rules.head?.map (·.name) = some g.start
  noted : t.noted = false
  atEnd : t.ahead = []

theorem steps_of_parse {source : String} {g : Grammar} (h : Grammar.parse source = .ok g) :
    ∃ u v t, Steps source.toList g u v t := by
  obtain ⟨t, hrun, hnoted, hend⟩ := run_eq_ok_iff.mp h
  rw [grammar, attempt] at hrun
  split at hrun
  · next g' t' hbody =>
    obtain ⟨hg, rfl⟩ := Prod.mk.inj hrun
    obtain rfl := Option.some.inj hg
    obtain ⟨_, u, hskip, hbody⟩ := exists_of_bind hbody
    obtain ⟨front, v, hfront, hbody⟩ := exists_of_bind hbody
    obtain ⟨rules, t, hrules, hbody⟩ := exists_of_bind hbody
    obtain ⟨hvalue, hlast⟩ := Prod.mk.inj ((many_apply rule v).symm.trans hrules)
    cases rules with
    | nil => cases hbody
    | cons first rest =>
      obtain ⟨hg, rfl⟩ := Prod.mk.inj hbody
      obtain rfl := Option.some.inj hg
      exact ⟨u, v, t, hskip, hfront, Prod.ext (Option.some.inj hvalue) hlast, rfl, hnoted, hend⟩
  · cases hrun

namespace Steps

variable {text : List Char} {g : Grammar} {u v t : ReaderState}

theorem run (h : Steps text g u v t) :
    grammar ⟨State.start false false text, none⟩ = (some g, t) := by
  have hmany : many rule v = (some g.rules, t) := by rw [many_apply, h.rules]
  have hstart := h.start
  rw [grammar, attempt, bind_apply_of_some h.skipped, bind_apply_of_some h.front,
    bind_apply_of_some hmany]
  cases g with
  | mk front rules start =>
    cases rules with
    | nil => cases hstart
    | cons first rest =>
      obtain rfl := Option.some.inj hstart
      rfl

/-- Behind the first blanks there are tokens. -/
theorem tokenized (h : Steps text g u v t) : Tokenized u.ahead := by
  obtain ⟨ts, hd, -⟩ := reads_grammar.matched (Nat.lt_succ_self _) h.run
  obtain ⟨us, rest, hskip, htokens⟩ := exists_tokenized (h.atEnd ▸ hd)
  obtain ⟨vs, hskip', -⟩ := reads_skip.matched (Nat.lt_succ_self _) h.skipped
  obtain ⟨-, rfl⟩ := Prod.mk.inj (Option.some.inj (hskip.unique hskip'))
  exact htokens

/-- No note is left in front of the rules. -/
theorem unnoted (h : Steps text g u v t) : v.noted = false := by
  obtain ⟨_, -, -, hskip⟩ := reads_skip.matched (Nat.lt_succ_self _) h.skipped
  obtain ⟨_, -, -, hfront⟩ := (reads_initializer.option failsInPlace_initializer id).matched
    (Nat.lt_succ_self _) h.front
  exact hfront.trans hskip

theorem onward (h : Steps text g u v t) : u.state.cursor.Onward text v.state.cursor :=
  passes_initializer.optional.onward
    (passes_skip.onward (Cursor.within_start false text) h.skipped).target h.front

/-- The first rule is read where the rules begin. -/
theorem exists_rule (h : Steps text g u v t) :
    ∃ r w, g.rules.head? = some r ∧ rule v = (some r, w) := by
  have hrules := h.rules
  have hstart := h.start
  rw [collect] at hrules
  cases hrun : rule v with
  | mk o w =>
    rw [hrun] at hrules
    cases o with
    | none =>
      rw [← (Prod.mk.inj hrules).1] at hstart
      cases hstart
    | some r =>
      refine ⟨r, w, ?_, rfl⟩
      rw [← (Prod.mk.inj hrules).1]
      rfl

theorem ahead_ne_nil (h : Steps text g u v t) : v.ahead ≠ [] := by
  obtain ⟨r, w, -, hrun⟩ := h.exists_rule
  obtain ⟨ts, hd, -⟩ := reads_rule.matched (Nat.lt_succ_self _) hrun
  exact begins_rule.ne_nil hd

theorem rulesStart_eq (h : Steps text g u v t) :
    g.rulesStart = min v.state.cursor.offset Span.maxOffset := by
  obtain ⟨r, w, hhead, hrun⟩ := h.exists_rule
  rw [Grammar.rulesStart, hhead, Option.map_some, Option.getD_some,
    passes_rule.result h.onward.target hrun]
  rfl

/-- Without an initializer the rules begin behind the first blanks. -/
theorem ahead (h : Steps text g u v t) (hfront : g.initializer = none) : v.ahead = u.ahead := by
  have hstep := h.front
  rw [hfront] at hstep
  obtain ⟨hnone, rfl⟩ := Prod.mk.inj hstep
  exact failsInPlace_initializer _ _ (Prod.ext (Option.some.inj hnone) rfl)

/-- An initializer ends before the rules begin. -/
theorem initializer_span (h : Steps text g u v t) {i : Initializer}
    (hfront : g.initializer = some i) :
    i.span = .between u.state.cursor.offset v.state.cursor.offset := by
  have hstep := h.front
  rw [hfront] at hstep
  obtain ⟨hsome, rfl⟩ := Prod.mk.inj hstep
  exact passes_initializer.result h.onward.source (Prod.ext (Option.some.inj hsome) rfl)

/-- What tells a rule from a reference is there where the rules begin. -/
theorem derives_sign (h : Steps text g u v t) : ∃ ts rest, Derives production
    (inOrder [call .identifier, opt (call .string), fixed "="]) v.ahead (some (ts, rest)) := by
  obtain ⟨r, w, -, hrun⟩ := h.exists_rule
  obtain ⟨ts, hd, -⟩ := reads_rule.matched (Nat.lt_succ_self _) hrun
  cases hd with
  | call hd =>
    cases hd with
    | seq hname hd =>
      cases hd with
      | seq hdisplay hd =>
        cases hd with
        | seq hsign _ => exact ⟨_, _, .seq hname (.seq hdisplay hsign)⟩

theorem derives_skip (h : Steps text g u v t) (hfront : g.initializer = none) :
    ∃ ts, Derives production (call .skip) text (some (ts, v.ahead)) := by
  obtain ⟨ts, hd, -⟩ := reads_skip.matched (Nat.lt_succ_self _) h.skipped
  exact ⟨ts, h.ahead hfront ▸ hd⟩

theorem offset_eq (h : Steps text g u v t) :
    byteLength text - byteLength v.ahead = v.state.cursor.offset := by
  obtain ⟨before, htext, hoffset⟩ := h.onward.target.exists_before
  rw [htext, Text.byteLength_append, hoffset]
  exact Nat.add_sub_cancel _ _

theorem parse {source : String} (h : Steps source.toList g u v t) :
    Grammar.parse source = .ok g := run_eq_ok_iff.mpr ⟨t, h.run, h.noted, h.atEnd⟩

end Steps

/-! ### Two texts -/

/-- In front of a tail the blanks and the initializer are what they are. -/
theorem Steps.front_append {J : Juncture} {g : Grammar} {u v t : ReaderState}
    (h : Steps J.text g u v t) (hbefore : J.before = []) :
    ∃ u' v', skip ⟨State.start false false J.longer, none⟩ = (some (), u') ∧
      option initializer u' = (some g.initializer, v') ∧ v.SideBySide J.text J.longer v' ∧
        J.Meets (v.ahead.length + 1) (v'.ahead.length + 1) v.ahead v'.ahead := by
  have hstart : ReaderState.SideBySide J.text J.longer ⟨State.start false false J.text, none⟩
      ⟨State.start false false J.longer, none⟩ :=
    ⟨Cursor.within_start _ _, Cursor.within_start _ _, rfl⟩
  have hextends : J.Extends J.text J.longer := by
    rw [Juncture.Extends, Juncture.longer, hbefore, List.nil_append]
  rcases ends_skip.matched hstart hextends h.skipped with hopen | ⟨_, u', hskip, -, hu, hplace⟩
  · exact absurd hopen h.tokenized.noComment
  have hmeets : J.Meets (u.ahead.length + 1) (u'.ahead.length + 1) u.ahead u'.ahead :=
    ⟨hplace, h.tokenized, Nat.lt_succ_self _, Nat.lt_succ_self _⟩
  rcases (repeats_initializer.option (F := Nowhere) (N := Nowhere) failsInPlace_initializer
    failsInPlace_initializer id).matched hu hmeets h.front with
    hn | ⟨front', v', hfront, hrel, hv, hmeets'⟩
  · exact hn.elim
  refine ⟨u', v', hskip, ?_, hv, hmeets'.place, hmeets'.tokens, Nat.lt_succ_self _,
    Nat.lt_succ_self _⟩
  rw [hfront]
  cases hg : g.initializer with
  | none =>
    rw [hg] at hrel
    cases hrel
    rfl
  | some i =>
    rw [hg] at hrel
    cases hrel with
    | some hi =>
      -- The rules come behind the initializer, so it does not reach up to the end.
      have hlt := h.onward.target.offset_lt h.ahead_ne_nil
      have hle := h.onward.le
      rw [hi, h.initializer_span hg, J.moved_between, J.shift_of_lt hbefore hlt,
        J.shift_of_lt hbefore (Nat.lt_of_le_of_lt hle hlt), ← h.initializer_span hg]

section

variable {first second next : List Char}
  (hskip : ∃ ts, Derives production (call .skip) second (some (ts, next)))
  (hsign : ∃ ts rest, Derives production
    (inOrder [call .identifier, opt (call .string), fixed "="]) next (some (ts, rest)))

/-- A text, a line end, and another text, where `next` is left in front of its rules. -/
def Juncture.between (first : List Char) : Juncture where
  before := []
  text := first
  tail := '\n' :: second
  next := next
  newline c hc := (Option.some.inj hc).symm
  skipped := by
    obtain ⟨ts, hd⟩ := hskip
    obtain ⟨us, hd'⟩ := derives_between_lineEnd second
    cases hd with
    | call hd => exact ⟨_, .call (.manyMore hd' hd)⟩
  rule := .inr hsign

theorem Juncture.shift_between (first : List Char) : (between hskip hsign first).shift =
    Grammar.stretch (byteLength first) (byteLength second - byteLength next) := by
  funext offset
  obtain ⟨ts, hd⟩ := hskip
  have hle := congrArg byteLength hd.text
  rw [Text.byteLength_append] at hle
  have hlonger : byteLength (between ⟨ts, hd⟩ hsign first).longer =
      byteLength first + (1 + byteLength second) := by
    rw [longer, Text.byteLength_append, Text.byteLength_append]
    exact Nat.zero_add _
  rw [shift, Grammar.stretch, hlonger]
  show (if offset = byteLength first then _ - byteLength next else byteLength [] + offset) = _
  rw [Text.byteLength_nil, Nat.zero_add]
  split
  · omega
  · rfl

end

/-- A text behind another one, up to the end. -/
def Juncture.last (before text : List Char) : Juncture where
  before := before
  text := text
  tail := []
  next := []
  newline := nofun
  skipped := derives_skip atToken_nil
  rule := .inl rfl

theorem Juncture.beyond_last (before text cs : List Char) : (last before text).beyond cs = cs := by
  cases cs with
  | nil => rfl
  | cons c cs => exact congrArg (c :: ·) (List.append_nil cs)

theorem Juncture.shift_last (before text : List Char) :
    (last before text).shift = (· + byteLength before) := by
  funext offset
  have hlonger : byteLength (last before text).longer = byteLength before + byteLength text := by
    rw [longer, Text.byteLength_append, Text.byteLength_append]
    rfl
  have hnext : byteLength (last before text).next = 0 := rfl
  rw [shift, hlonger, hnext]
  split
  · next hend => rw [hend, Nat.sub_zero, Nat.add_comm]; rfl
  · exact Nat.add_comm _ _

namespace Steps

variable {before first second text : List Char} {g g' : Grammar} {u v t u' v' t' : ReaderState}

/-- At the end of a longer text, the rules of a text are read as they are. -/
theorem collect_last (h : Steps text g u v t) (hfront : g.initializer = none) {w : ReaderState}
    (hw : w.state.cursor.Within false (before ++ text)) (hahead : w.ahead = v.ahead)
    (hnoted : w.noted = false) {bound : Nat} (hbound : w.ahead.length < bound) :
    ∃ y, collect rule bound w =
        (g.rules.map (.moved (· + byteLength before) (byteLength before)), y) ∧
      y.noted = false ∧ y.ahead = [] := by
  let J := Juncture.last before text
  have hlonger : J.longer = before ++ text := congrArg (before ++ ·) (List.append_nil text)
  have hside : v.SideBySide J.text J.longer w :=
    ⟨h.onward.target, hlonger.symm ▸ hw, hnoted.trans h.unnoted.symm⟩
  have hmeets : J.Meets (v.ahead.length + 1) bound v.ahead w.ahead :=
    ⟨hahead.trans (Juncture.beyond_last before text _).symm, h.ahead hfront ▸ h.tokenized,
      Nat.lt_succ_self _, hbound⟩
  obtain ⟨x, more, -, hnil, hquiet, -, hrules⟩ := collect_rule_append hside hmeets
    (by rw [h.rules]; exact h.atEnd) (by rw [h.rules]; exact h.noted)
  obtain ⟨y, hlast, hend, hstill⟩ := collect_rule_of_nil hnil more
  refine ⟨y, ?_, hstill.trans hquiet, hend⟩
  rw [hrules, hlast, h.rules, List.append_nil, Juncture.shift_last]
  rfl

/-- Behind a text and a line end, another text without an initializer goes on with its rules. -/
theorem append (h : Steps first g u v t) (h' : Steps second g' u' v' t')
    (hfront : g'.initializer = none) :
    ∃ x y z, Steps (first ++ '\n' :: second) (g.followedBy g' (byteLength first)) x y z := by
  let J := Juncture.between (h'.derives_skip hfront) h'.derives_sign first
  obtain ⟨x, y, hskip, hinitializer, hside, hmeets⟩ := front_append (J := J) h rfl
  obtain ⟨w, more, hw, hahead, hquiet, hmore, hrules⟩ := collect_rule_append hside hmeets
    (by rw [h.rules]; exact h.atEnd) (by rw [h.rules]; exact h.noted)
  have hlonger : J.longer = (first ++ ['\n']) ++ second :=
    (List.append_assoc first ['\n'] second).symm
  obtain ⟨z, hlast, hnoted, hend⟩ := h'.collect_last hfront (hlonger ▸ hw) hahead hquiet hmore
  refine ⟨x, y, z, hskip, hinitializer, ?_, ?_, hnoted, hend⟩
  · have hfirst : g.rules.map (Rule.moved J.shift 0) =
        g.rules.map (Rule.moved (Grammar.stretch (byteLength first) g'.rulesStart) 0) := by
      refine List.map_congr_left fun r _ => Rule.moved_congr (fun o => ?_) 0 r
      rw [Juncture.shift_between, h'.offset_eq, h'.rulesStart_eq, Grammar.stretch, Grammar.stretch]
      split <;> omega
    have hdistance : byteLength (first ++ ['\n']) = byteLength first + 1 := by
      rw [Text.byteLength_append]
      rfl
    rw [hrules, hlast, h.rules, hdistance]
    exact congrArg (fun rules => (rules ++ _, z)) hfirst
  · have hstart := h.start
    rw [Grammar.followedBy]
    cases hrules : g.rules with
    | nil =>
      rw [hrules] at hstart
      cases hstart
    | cons r rs =>
      rw [hrules] at hstart
      exact hstart

end Steps

end Notation

namespace Grammar

open Notation

/-- Nothing but the spans of the rules depends on where they stand. -/
theorem withoutSpans_followedBy (g g' : Grammar) (size : Nat) :
    (g.followedBy g' size).rules.map Rule.withoutSpans =
      (g.rules ++ g'.rules).map Rule.withoutSpans := by
  simp only [followedBy, List.map_append, List.map_map, Function.comp_def, Rule.withoutSpans_moved]

/-- Behind an accepted text and a line end, the rules of another accepted text without an
initializer are read as they are, and the rules of the first text end where those begin. Spans
apart, these are the rules of both texts. -/
theorem parse_append {first second : String} {g g' : Grammar} (h : Grammar.parse first = .ok g)
    (h' : Grammar.parse second = .ok g') (hfront : g'.initializer = none) :
    Grammar.parse (first ++ "\n" ++ second) = .ok (g.followedBy g' first.utf8ByteSize) ∧
      (g.followedBy g' first.utf8ByteSize).rules.map Rule.withoutSpans =
        (g.rules ++ g'.rules).map Rule.withoutSpans := by
  obtain ⟨u, v, t, hsteps⟩ := steps_of_parse h
  obtain ⟨u', v', t', hsteps'⟩ := steps_of_parse h'
  obtain ⟨x, y, z, happend⟩ := hsteps.append hsteps' hfront
  have htext : (first ++ "\n" ++ second).toList = first.toList ++ '\n' :: second.toList := by
    rw [String.toList_append, String.toList_append]
    exact List.append_assoc _ _ _
  refine ⟨?_, withoutSpans_followedBy g g' _⟩
  rw [← Text.byteLength_toList]
  exact (htext ▸ happend).parse

/-- A text that ends with an empty alternative and a comment. -/
def upperText : String := "{i}\na 'A' = n:b / // c"

/-- Its grammar. -/
def upperGrammar : Grammar where
  initializer := some ⟨⟨0, 4⟩, "i"⟩
  rules := [⟨⟨4, 22⟩, "a", .named ⟨⟨12, 22⟩, none, none⟩ "A" (.choice ⟨⟨12, 22⟩, none, none⟩
    [.labeled ⟨⟨12, 16⟩, none, none⟩ "n" (.ruleRef ⟨⟨14, 15⟩, none, none⟩ "b"),
      .sequence ⟨⟨22, 22⟩, none, none⟩ []]), 0⟩]
  start := "a"

/-- A text of one rule. -/
def lowerText : String := " b = \"x\""

/-- Its grammar. -/
def lowerGrammar : Grammar where
  initializer := none
  rules := [⟨⟨1, 8⟩, "b", .literal ⟨⟨5, 8⟩, none, none⟩ "x" false, 0⟩]
  start := "b"

/-- The grammar of the two texts. -/
def joinedGrammar : Grammar where
  initializer := some ⟨⟨0, 4⟩, "i"⟩
  rules := [
    ⟨⟨4, 24⟩, "a", .named ⟨⟨12, 24⟩, none, none⟩ "A" (.choice ⟨⟨12, 24⟩, none, none⟩
      [.labeled ⟨⟨12, 16⟩, none, none⟩ "n" (.ruleRef ⟨⟨14, 15⟩, none, none⟩ "b"),
        .sequence ⟨⟨24, 24⟩, none, none⟩ []]), 0⟩,
    ⟨⟨24, 31⟩, "b", .literal ⟨⟨28, 31⟩, none, none⟩ "x" false, 0⟩]
  start := "a"

theorem parse_append_joined : Grammar.parse upperText = .ok upperGrammar ∧
    Grammar.parse lowerText = .ok lowerGrammar ∧ lowerGrammar.initializer = none ∧
      Grammar.parse (upperText ++ "\n" ++ lowerText) = .ok joinedGrammar ∧
        joinedGrammar.rules.map Rule.withoutSpans =
          (upperGrammar.rules ++ lowerGrammar.rules).map Rule.withoutSpans := by
  have hupper : Grammar.parse upperText = .ok upperGrammar := by decide +kernel
  have hlower : Grammar.parse lowerText = .ok lowerGrammar := by decide +kernel
  have hjoined : upperGrammar.followedBy lowerGrammar upperText.utf8ByteSize = joinedGrammar := by
    rfl
  exact ⟨hupper, hlower, rfl, hjoined ▸ parse_append hupper hlower rfl⟩

end Grammar

end Packrat
