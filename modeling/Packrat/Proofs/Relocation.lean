import Packrat.Proofs.Extents
import Packrat.Proofs.Locality

/-!
# Expressions in front of another text

What is read from token to token is read in a longer text as it is in the text (`Juncture.Repeats`),
and nothing but spans tells the results apart. A span begins and ends between tokens, so its offsets
move as the places do (`Juncture.shift`): by what stands in front of the text, and from its end to
the next token behind it. A reference is the exception. Its span ends with the name, and moves with
it.

No expression goes on over the end of the text, where the longer text may have a rule ahead. A rule
begins with a name, and only a reference or a label could take it. A reference is not read in front
of what a rule has behind its name, which is a string or the sign `=`, and a label has a colon there
(`not_derives_next`).

## Main results

* `Expr.withoutSpans_moved`: an expression that is moved is the same up to spans
* `repeats_choice`: expressions between slashes, by induction on the depth of parentheses
* `repeats_rule`, `repeats_initializer`: rules and the code block in front of them
-/

namespace Packrat

open Text (byteLength)
open Notation (Nowhere)

/-! ### Moving spans -/

/-- The span with its ends at other offsets. -/
def Span.moved (f : Nat → Nat) (s : Span) : Span := .between (f s.start) (f s.stop)

/-- What is known about an expression that stands elsewhere. -/
def Info.moved (f : Nat → Nat) (i : Info) : Info := { i with span := i.span.moved f }

namespace Expr

mutual
/-- The expression with its offsets taken elsewhere by `f`. The span of a reference is that of a
name, which moves as a whole, by `distance`; the span of a named expression is that of its body. -/
def moved (f : Nat → Nat) (distance : Nat) : Expr → Expr
  | named i n b => named { i with span := (b.moved f distance).span } n (b.moved f distance)
  | choice i items => choice (i.moved f) (movedAll f distance items)
  | action i c p b => action (i.moved f) c p (b.moved f distance)
  | sequence i items => sequence (i.moved f) (movedAll f distance items)
  | labeled i l b => labeled (i.moved f) l (b.moved f distance)
  | lookahead i n b => lookahead (i.moved f) n (b.moved f distance)
  | predicate i n c p => predicate (i.moved f) n c p
  | optional i b => optional (i.moved f) (b.moved f distance)
  | repeated i n b => repeated (i.moved f) n (b.moved f distance)
  | ruleRef i n => ruleRef (i.moved (· + distance)) n
  | literal i v c => literal (i.moved f) v c
  | charClass i k r => charClass (i.moved f) k r
  | any i => any (i.moved f)

/-- Moves several expressions. -/
def movedAll (f : Nat → Nat) (distance : Nat) : List Expr → List Expr
  | [] => []
  | e :: es => e.moved f distance :: movedAll f distance es
end

end Expr

/-- The rule with its offsets taken elsewhere. -/
def Rule.moved (f : Nat → Nat) (distance : Nat) (r : Rule) : Rule :=
  { r with span := r.span.moved f, body := r.body.moved f distance }

/-- Spans do not show where they are taken beyond their limit. -/
theorem Span.moved_congr {f f' : Nat → Nat} (h : ∀ o, min (f o) maxOffset = min (f' o) maxOffset)
    (s : Span) : s.moved f = s.moved f' := by
  rw [moved, moved, between, between, h, h]

namespace Expr

variable {f f' : Nat → Nat}

theorem movedAll_eq_map (distance : Nat) (es : List Expr) :
    movedAll f distance es = es.map (moved f distance) := by
  induction es with
  | nil => rfl
  | cons e es ih => rw [movedAll, ih, List.map_cons]

theorem moved_congr (h : ∀ o, min (f o) Span.maxOffset = min (f' o) Span.maxOffset) (distance : Nat)
    (e : Expr) : e.moved f distance = e.moved f' distance := by
  have hinfo : ∀ i : Info, i.moved f = i.moved f' := fun i => by
    rw [Info.moved, Info.moved, Span.moved_congr h]
  induction e using Expr.inductionOn with
  | choice i items ih | sequence i items ih =>
    rw [moved, moved, movedAll_eq_map, movedAll_eq_map, hinfo, List.map_congr_left ih]
  | named _ _ body ih => rw [moved, moved, ih]
  | action _ _ _ body ih | labeled _ _ body ih | lookahead _ _ body ih | optional _ body ih
  | repeated _ _ body ih => rw [moved, moved, hinfo, ih]
  | ruleRef => rfl
  | predicate | literal | charClass | any => rw [moved, moved, hinfo]

theorem allWithoutSpans_movedAll {distance : Nat} {es : List Expr}
    (h : ∀ e ∈ es, (e.moved f distance).withoutSpans = e.withoutSpans) :
    allWithoutSpans (movedAll f distance es) = allWithoutSpans es := by
  induction es with
  | nil => rfl
  | cons e es ih =>
    obtain ⟨he, hes⟩ := List.forall_mem_cons.mp h
    rw [movedAll, allWithoutSpans, he, ih hes, allWithoutSpans]

/-- Nothing but spans is moved. -/
theorem withoutSpans_moved (distance : Nat) (e : Expr) :
    (e.moved f distance).withoutSpans = e.withoutSpans := by
  induction e using Expr.inductionOn with
  | choice i items ih | sequence i items ih =>
    rw [moved, withoutSpans, allWithoutSpans_movedAll ih, withoutSpans]
    rfl
  | named _ _ body ih | action _ _ _ body ih | labeled _ _ body ih | lookahead _ _ body ih
  | optional _ body ih | repeated _ _ body ih =>
    rw [moved, withoutSpans, ih, withoutSpans]
    rfl
  | ruleRef | predicate | literal | charClass | any => rfl

end Expr

theorem Rule.withoutSpans_moved (f : Nat → Nat) (distance : Nat) (r : Rule) :
    (r.moved f distance).withoutSpans = r.withoutSpans := by
  rw [moved, withoutSpans, Expr.withoutSpans_moved]
  rfl

theorem Rule.moved_congr {f f' : Nat → Nat}
    (h : ∀ o, min (f o) Span.maxOffset = min (f' o) Span.maxOffset) (distance : Nat) (r : Rule) :
    r.moved f distance = r.moved f' distance := by
  rw [moved, moved, Span.moved_congr h, Expr.moved_congr h]

theorem Span.moved_add (a b distance : Nat) :
    (between a b).moved (· + distance) = between (a + distance) (b + distance) := by
  simp only [moved, between, Span.mk.injEq]
  omega

namespace Notation

open Peg Reader

variable {α : Type} {J : Juncture}

namespace Juncture

/-- The offset in the longer text. The end of the text is where the rest of the tail begins. -/
def shift (J : Juncture) (offset : Nat) : Nat :=
  if offset = byteLength J.text then byteLength J.longer - byteLength J.next
  else byteLength J.before + offset

/-- What is left of the tail is not more than the tail. -/
theorem add_le_shift_end : byteLength J.before + byteLength J.text ≤
    byteLength J.longer - byteLength J.next := by
  obtain ⟨ts, hd⟩ := J.skipped
  have htail := congrArg byteLength hd.text
  rw [Text.byteLength_append] at htail
  rw [longer, Text.byteLength_append, Text.byteLength_append, htail]
  omega

/-- Between two tokens, a place of the text and its place in the longer one. -/
theorem Meets.offset {n n' : Nat} {c c' : Cursor} (h : J.Meets n n' c.ahead c'.ahead)
    (hc : c.Within false J.text) (hc' : c'.Within false J.longer) :
    c'.offset = J.shift c.offset := by
  obtain ⟨passed, htext, hoffset⟩ := hc.exists_before
  obtain ⟨passed', htext', hoffset'⟩ := hc'.exists_before
  have hlength := congrArg byteLength htext
  have hlength' := congrArg byteLength htext'
  rw [Text.byteLength_append] at hlength hlength'
  rw [hoffset, hoffset', shift]
  cases hahead : c.ahead with
  | nil =>
    rw [h.place, hahead, beyond] at hlength'
    rw [hahead, Text.byteLength_nil, Nat.add_zero] at hlength
    rw [if_pos hlength.symm, hlength', Nat.add_sub_cancel]
  | cons d cs =>
    have hpos := d.utf8Size_pos
    rw [h.place, hahead, beyond, longer] at hlength'
    rw [hahead] at hlength
    simp only [Text.byteLength_append, Text.byteLength_cons] at hlength hlength'
    rw [if_neg (by omega)]
    omega

/-- In front of something, the text is further on by what stands in front of it. -/
theorem Meets.offset_of_ne_nil {n n' : Nat} {c c' : Cursor} (h : J.Meets n n' c.ahead c'.ahead)
    (hc : c.Within false J.text) (hc' : c'.Within false J.longer) (hne : c.ahead ≠ []) :
    c'.offset = c.offset + byteLength J.before := by
  rw [h.offset hc hc', shift, if_neg (Nat.ne_of_lt (hc.offset_lt hne)), Nat.add_comm]

/-- Before the end, nothing moves if nothing stands in front. -/
theorem shift_of_lt (hbefore : J.before = []) {offset : Nat} (h : offset < byteLength J.text) :
    J.shift offset = offset := by
  rw [shift, if_neg (Nat.ne_of_lt h), hbefore, Text.byteLength_nil, Nat.zero_add]

/-- An offset that is clamped stays so. -/
theorem clamp_shift (offset : Nat) :
    min (J.shift (min offset Span.maxOffset)) Span.maxOffset =
      min (J.shift offset) Span.maxOffset := by
  rcases Nat.le_total offset Span.maxOffset with hle | hle
  · rw [Nat.min_eq_left hle]
  · have hend := J.add_le_shift_end
    have hclamped : Span.maxOffset ≤ J.shift Span.maxOffset := by
      rw [shift]
      split <;> omega
    have hplain : Span.maxOffset ≤ J.shift offset := by
      rw [shift]
      split <;> omega
    rw [Nat.min_eq_right hle, Nat.min_eq_right hclamped, Nat.min_eq_right hplain]

theorem moved_between (a b : Nat) :
    (Span.between a b).moved J.shift = .between (J.shift a) (J.shift b) := by
  simp only [Span.moved, Span.between, clamp_shift]

/-- The expression of the longer text is that of the text, at the offsets there. -/
def Moves (J : Juncture) (e e' : Expr) : Prop := e' = e.moved J.shift (byteLength J.before)

/-- The second operator makes the expression of the longer text where the first one makes that of
the text. -/
def MovesOperand (J : Juncture) (build build' : Expr → Info → Expr) : Prop :=
  ∀ e e', J.Moves e e' → ∀ i, J.Moves (build e i) (build' e' (i.moved J.shift))

/-- An expression of the text is read in the longer one, at the offsets there. -/
abbrev Repeats (J : Juncture) (n n' : Nat) (p p' : Reader Expr) : Prop :=
  J.Agrees n n' J.Moves p p'

end Juncture

/-! ### Operands -/

section

variable {n n' : Nat}

theorem moves_spanSince {c c' : Cursor} (hc : c.Within false J.text)
    (hc' : c'.Within false J.longer) {m m' : Nat} (hmeets : J.Meets m m' c.ahead c'.ahead) :
    J.Agrees n n' (fun span span' => span' = span.moved J.shift) (spanSince c) (spanSince c') where
  matched {s s' t span} hs ha hrun := by
    obtain ⟨hspan, rfl⟩ := Prod.mk.inj hrun
    obtain rfl := Option.some.inj hspan
    refine .inr ⟨_, s', rfl, ?_, hs, ha⟩
    rw [J.moved_between, ← hmeets.offset hc hc', ← ha.offset hs.source hs.target]
  failed _ _ hrun := nomatch hrun

theorem moves_spanned {c c' : Cursor} (hc : c.Within false J.text)
    (hc' : c'.Within false J.longer) {m m' : Nat} (hmeets : J.Meets m m' c.ahead c'.ahead)
    {build build' : Info → Expr}
    (hbuild : ∀ i, J.Moves (build i) (build' (i.moved J.shift))) :
    J.Repeats n n' (spanned c build) (spanned c' build') := by
  refine (moves_spanSince hc hc' hmeets).map ?_
  rintro span _ rfl
  exact hbuild ⟨span, none, none⟩

/-- Where the expression does not match, its reader fails, and leaves no note if it never does. -/
theorem declines_of_reads {p : Reader α} {e : Peg Symbol} {V : α → List (ParseTree Symbol) → Prop}
    {s : ReaderState} (hreads : ∀ {n}, Reads n p e V silent)
    (hno : ∀ {ts rest}, ¬ Derives production e s.ahead (some (ts, rest))) : p.Declines s := by
  cases hrun : p s with
  | mk o t =>
    cases o with
    | some a =>
      obtain ⟨ts, hd, -⟩ := hreads.matched (Nat.lt_succ_self _) hrun
      exact absurd hd hno
    | none => exact ⟨t, hrun, (hreads.failed (Nat.lt_succ_self _) hrun).2⟩

/-- What tells the name of a rule from a reference. -/
theorem begins_sign : Begins production (inOrder [opt (call .string), fixed "="])
    fun c => (c = '"' ∨ c = '\'') ∨ c = '=' :=
  (begins_quotedString.seq.call.mono fun _ => .inl).opt_seq ((begins_fixed rfl).mono fun _ => .inr)

/-- At the end of the text or where a rule begins there is neither a reference nor a label. -/
theorem not_derives_next {e : Peg Symbol} {cs rest : List Char} {ts : List (ParseTree Symbol)}
    (hplace : cs = [] ∨ cs = J.next)
    (he : ∀ {cs us more}, Derives production (inOrder [opt (call .string), fixed "="]) cs
      (some (us, more)) → ∀ {vs rest}, ¬ Derives production e cs (some (vs, rest))) :
    ¬ Derives production (.seq (call .identifier) e) cs (some (ts, rest)) := by
  intro hd
  cases hd with
  | seq hname hbehind =>
    have hne := begins_identifier.ne_nil hname
    obtain rfl := hplace.resolve_left hne
    obtain ⟨us, more, hd⟩ := J.rule.resolve_left hne
    cases hd with
    | seq hname' hsign =>
      obtain ⟨-, rfl⟩ := Prod.mk.inj (Option.some.inj (hname.unique hname'))
      exact he hsign hbehind

/-- There is no reference at the end of the text or where a rule begins. -/
theorem declines_ruleReference {s : ReaderState} (hplace : s.ahead = [] ∨ s.ahead = J.next) :
    ruleReference.Declines s := by
  refine declines_of_reads reads_ruleReference fun {ts rest} => ?_
  refine not_derives_next hplace fun hsign _ _ habsent => ?_
  cases habsent with
  | absent hno => nomatch hsign.unique hno

theorem repeats_ruleReference : J.Repeats (n + 1) (n' + 1) ruleReference ruleReference := by
  have hsign : J.Agrees (n + 1) (n' + 1) Eq (do let _ ← option string; token "=")
      (do let _ ← option string; token "=") :=
    (meets_string.agrees.option failsInPlace_string failsInPlace_string id).next fun _ =>
      (meets_token ⟨rfl, rfl, by decide⟩).agrees
  -- At the end of the text the longer one may have a name ahead, but it is that of a rule.
  refine .attemptBeforeEnd (.begun fun {c c'} hc hc' hmeets => ?_)
    (fun hnil => declines_ruleReference (J := J) (.inl hnil))
    fun hmeets => declines_ruleReference (.inr hmeets.place)
  refine (meets_identifier.mono id Juncture.Meets.succ).next ?_
  rintro name _ rfl
  refine hsign.peek.next ?_
  rintro beginsRule _ rfl
  cases beginsRule with
  | true => exact .fail
  | false =>
    refine .pure ?_ id
    have hoffset := hmeets.1.offset_of_ne_nil hc hc' hmeets.2
    rw [Juncture.Moves, Expr.moved, Info.moved, Span.moved_add, hoffset, Nat.add_right_comm]

/-- Expressions between slashes are read in the longer text if they are not nested too deep. -/
abbrev Juncture.RepeatsWithin (J : Juncture) (n n' : Nat) : Prop :=
  J.Repeats n n' (choiceWithin n) (choiceWithin n')

variable (hinner : J.RepeatsWithin n n')

include hinner

theorem repeats_parenthesized : J.Repeats (n + 1) (n' + 1) (parenthesized (choiceWithin n))
    (parenthesized (choiceWithin n')) := by
  refine .attempt ((meets_token ⟨rfl, rfl, by decide⟩).next fun _ => hinner.next fun he => ?_)
  exact (meets_token ⟨rfl, rfl, by decide⟩).agrees.next fun _ => .pure he Juncture.Meets.succ

theorem repeats_primary : J.Repeats (n + 1) (n' + 1) (primary (choiceWithin n))
    (primary (choiceWithin n')) := by
  refine .begun fun {c c'} hc hc' hmeets => ?_
  refine repeats_ruleReference.or (failsInPlace_attempt _) (failsInPlace_attempt _) ?_
  refine .or (meets_literal.agrees.next ?_) ?_ ?_ ?_
  · rintro ⟨value, ignoreCase⟩ _ rfl
    exact moves_spanned hc hc' hmeets fun _ => rfl
  · exact failsInPlace_literal.thenStill fun _ => still_spanned _ _
  · exact failsInPlace_literal.thenStill fun _ => still_spanned _ _
  refine .or (meets_charClass.agrees.next ?_) ?_ ?_ ?_
  · rintro members _ rfl
    exact moves_spanned hc hc' hmeets fun _ => rfl
  · exact failsInPlace_charClass.thenStill fun _ => still_spanned _ _
  · exact failsInPlace_charClass.thenStill fun _ => still_spanned _ _
  refine .or ((meets_token ⟨rfl, rfl, by decide⟩).agrees.next fun _ => ?_) ?_ ?_
    (repeats_parenthesized hinner)
  · exact moves_spanned hc hc' hmeets fun _ => rfl
  · exact (failsInPlace_token ".").thenStill fun _ => still_spanned _ _
  · exact (failsInPlace_token ".").thenStill fun _ => still_spanned _ _

omit hinner in
theorem repeats_suffixOperator : J.Agrees n n' J.MovesOperand suffixOperator suffixOperator := by
  have hoperator : ∀ {value : String} {c : Char} {build : Expr → Info → Expr}, IsMark value c →
      J.MovesOperand build build → J.Agrees n n' J.MovesOperand (do token value; return build)
        (do token value; return build) := fun hmark hbuild =>
    (meets_token hmark).agrees.next fun _ => .pure hbuild id
  refine (hoperator ⟨rfl, rfl, by decide⟩ ?_).or (failsInPlace_operator _ _)
    (failsInPlace_operator _ _) ((hoperator ⟨rfl, rfl, by decide⟩ ?_).or (failsInPlace_operator _ _)
      (failsInPlace_operator _ _) (hoperator ⟨rfl, rfl, by decide⟩ ?_))
  all_goals
    rintro e _ rfl i
    rfl

theorem repeats_suffixed : J.Repeats (n + 1) (n' + 1) (suffixed (choiceWithin n))
    (suffixed (choiceWithin n')) := by
  refine .begun fun {c c'} hc hc' hmeets => (repeats_primary hinner).next fun he => ?_
  refine (repeats_suffixOperator.option failsInPlace_suffixOperator failsInPlace_suffixOperator
    id).next fun hoperator => ?_
  cases hoperator with
  | none => exact .pure he id
  | some hbuild => exact moves_spanned hc hc' hmeets (hbuild _ _ he)

/-! ### Prefix operators and labels -/

theorem repeats_predicateOf {operator : String} {c : Char} (hmark : IsMark operator c)
    (negated : Bool) : J.Repeats (n + 1) (n' + 1) (predicateOf (choiceWithin n) operator negated)
      (predicateOf (choiceWithin n') operator negated) := by
  have htoken : J.Agrees (n + 1) (n' + 1) Eq (token operator) (token operator) :=
    (meets_token hmark).agrees
  refine .begun fun {c c'} hc hc' hmeets => ?_
  refine .or (.next (.attempt (htoken.next fun _ => meets_action.agrees)) ?_) ?_ ?_
    (.next (.attempt (htoken.next fun _ => repeats_suffixed hinner)) ?_)
  · rintro code _ rfl
    exact moves_spanned hc hc' hmeets fun _ => rfl
  · exact (failsInPlace_attempt _).thenStill fun _ => still_spanned _ _
  · exact (failsInPlace_attempt _).thenStill fun _ => still_spanned _ _
  · rintro e _ rfl
    exact moves_spanned hc hc' hmeets fun _ => rfl

theorem repeats_prefixed : J.Repeats (n + 1) (n' + 1) (prefixed (choiceWithin n))
    (prefixed (choiceWithin n')) := by
  refine (repeats_predicateOf hinner ⟨rfl, rfl, by decide⟩ false).or
    (failsInPlace_predicateOf _ _ _) (failsInPlace_predicateOf _ _ _) ?_
  exact (repeats_predicateOf hinner ⟨rfl, rfl, by decide⟩ true).or (failsInPlace_predicateOf _ _ _)
    (failsInPlace_predicateOf _ _ _) (repeats_suffixed hinner)

omit hinner in
/-- At the end of the text or where a rule begins there is no label. -/
theorem declines_label {s : ReaderState} (hplace : s.ahead = [] ∨ s.ahead = J.next)
    (f : Cursor → String → Reader Expr) : Declines (attempt do
      let begun ← cursor
      let label ← identifier
      token ":"
      f begun label) s := by
  have hreads : ∀ {m}, Reads m (do let label ← identifier; token ":"; return label)
      (inOrder [call .identifier, fixed ":"]) anyValue silent :=
    reads_identifier.next fun label => (reads_token ":").thenStill fun _ => still_pure label
  have hno : ∀ {ts rest}, ¬ Derives production (inOrder [call .identifier, fixed ":"]) s.ahead
      (some (ts, rest)) := by
    refine not_derives_next hplace fun hsign _ _ hcolon => ?_
    have hahead : Ahead [':'] _ := .of_begins (begins_fixed rfl) hcolon
    exact hahead.not_derives begins_sign rfl hsign
  have hdeclines := (declines_of_reads hreads hno).bind (f s.state.cursor)
  simp only [bind_assoc, pure_bind] at hdeclines
  exact Declines.attempt hdeclines

theorem repeats_labeled : J.Repeats (n + 1) (n' + 1) (labeled (choiceWithin n))
    (labeled (choiceWithin n')) := by
  refine .or (.attemptBeforeEnd (.begun fun {c c'} hc hc' hmeets => ?_) ?_ ?_)
    (failsInPlace_attempt _) (failsInPlace_attempt _) (repeats_prefixed hinner)
  · refine (meets_identifier.mono id Juncture.Meets.succ).next ?_
    rintro label _ rfl
    refine (meets_token ⟨rfl, rfl, by decide⟩).agrees.next fun _ => ?_
    refine (repeats_prefixed hinner).next ?_
    rintro e _ rfl
    exact moves_spanned hc hc' hmeets.1 fun _ => rfl
  · intro s hnil
    exact declines_label (J := J) (.inl hnil) _
  · intro s hmeets
    exact declines_label (.inr hmeets.place) _

/-! ### Sequences and alternatives -/

omit hinner in
theorem movedAll_of_moves {es es' : List Expr} (h : List.Forall₂ J.Moves es es') :
    es' = Expr.movedAll J.shift (byteLength J.before) es := by
  induction h with
  | nil => rfl
  | cons he _ ih => rw [Expr.movedAll, ← ih, he]

omit hinner in
theorem repeats_closing {c c' : Cursor} (hc : c.Within false J.text)
    (hc' : c'.Within false J.longer) {m m' : Nat} (hmeets : J.Meets m m' c.ahead c'.ahead)
    {e e' : Expr} (he : J.Moves e e') :
    J.Repeats n n' (closing c e) (closing c' e') := by
  refine (meets_action.agrees.option failsInPlace_action failsInPlace_action
    id).next fun hcode => ?_
  cases hcode with
  | none => exact .pure he id
  | some hcode =>
    obtain rfl := hcode
    obtain rfl := he
    exact moves_spanned hc hc' hmeets fun _ => rfl

theorem repeats_sequence : J.Repeats (n + 1) (n' + 1) (sequence (choiceWithin n))
    (sequence (choiceWithin n')) := by
  have helements : J.Agrees (n + 1) (n' + 1) (List.Forall₂ J.Moves)
      (Reader.many (labeled (choiceWithin n))) (Reader.many (labeled (choiceWithin n'))) :=
    (repeats_labeled hinner).repeated (failsInPlace_labeled _) (failsInPlace_labeled _)
      (fun hmeets => (reads_labeled (reads_choiceWithin n)).shorter begins_labeled hmeets.shorter)
      fun hmeets => (reads_labeled (reads_choiceWithin n')).shorter begins_labeled hmeets.shorter'
  refine .begun fun {c c'} hc hc' hmeets => helements.next fun hes => ?_
  -- Unless there is just one element, the elements are wrapped as a sequence.
  have hrest : ∀ {es es'}, List.Forall₂ J.Moves es es' → J.Repeats (n + 1) (n' + 1)
      (do let e ← spanned c (.sequence · es); closing c e)
      (do let e ← spanned c' (.sequence · es'); closing c' e) := fun hes => by
    obtain rfl := movedAll_of_moves hes
    exact .next (V := J.Moves) (moves_spanned hc hc' hmeets fun _ => rfl) fun he =>
      repeats_closing hc hc' hmeets he
  cases hes with
  | nil => exact hrest .nil
  | cons he hes =>
    cases hes with
    | nil => exact repeats_closing hc hc' hmeets he
    | cons he' hes => exact hrest (.cons he (.cons he' hes))

theorem repeats_choiceWith : J.Repeats (n + 1) (n' + 1) (choiceWith (choiceWithin n))
    (choiceWith (choiceWithin n')) := by
  have hnext : J.Repeats (n + 1) (n' + 1) (attempt do token "/"; sequence (choiceWithin n))
      (attempt do token "/"; sequence (choiceWithin n')) :=
    .attempt ((meets_token ⟨rfl, rfl, by decide⟩).agrees.next fun _ => repeats_sequence hinner)
  have hbegins : Begins production (inOrder [fixed "/", call .sequence]) (· = '/') :=
    (begins_fixed rfl).seq
  have hreads : ∀ m, Reads (m + 1) (attempt do token "/"; sequence (choiceWithin m))
      (inOrder [fixed "/", call .sequence]) anyValue (noting Nowhere (Ahead stuck)) := fun m =>
    .attempt ((reads_token "/").lead rfl (fun _ => reads_sequence (reads_choiceWithin m))
      fun _ h => h)
  have hmore : J.Agrees (n + 1) (n' + 1) (List.Forall₂ J.Moves)
      (Reader.many (attempt do token "/"; sequence (choiceWithin n)))
      (Reader.many (attempt do token "/"; sequence (choiceWithin n'))) :=
    hnext.repeated (failsInPlace_attempt _) (failsInPlace_attempt _)
      (fun hmeets => (hreads n).shorter hbegins hmeets.shorter)
      fun hmeets => (hreads n').shorter hbegins hmeets.shorter'
  refine .begun fun {c c'} hc hc' hmeets => (repeats_sequence hinner).next fun he => hmore.next
    fun hes => ?_
  cases hes with
  | nil => exact .pure he id
  | cons he' hes =>
    refine moves_spanned hc hc' hmeets fun i => ?_
    rw [movedAll_of_moves (.cons he (.cons he' hes))]
    rfl

end

/-- Parentheses are read as deep in both texts as there are characters. -/
theorem repeats_choiceWithin (n n' : Nat) : J.RepeatsWithin n n' := by
  -- Each depth takes a parenthesis in both texts, so the bounds go down side by side.
  induction n generalizing n' with
  | zero => exact ⟨fun _ hmeets => absurd hmeets.shorter (Nat.not_lt_zero _),
      fun _ hmeets => absurd hmeets.shorter (Nat.not_lt_zero _)⟩
  | succ n ih =>
    cases n' with
    | zero => exact ⟨fun _ hmeets => absurd hmeets.shorter' (Nat.not_lt_zero _),
        fun _ hmeets => absurd hmeets.shorter' (Nat.not_lt_zero _)⟩
    | succ n' => exact repeats_choiceWith (ih n')

theorem repeats_choice {n n' : Nat} : J.Repeats n n' choice choice := by
  refine .still fun {c c'} _ _ hmeets => (repeats_choiceWithin _ _).mono ?_ ?_
  · rintro cs cs' ⟨rfl, rfl⟩
    exact ⟨hmeets.place, hmeets.tokens, Nat.lt_succ_self _, Nat.lt_succ_self _⟩
  · exact fun h => h.mono hmeets.shorter hmeets.shorter'

/-! ### Rules -/

theorem repeats_semicolon {n n' : Nat} : J.Agrees n n' (Option.Rel Eq) (option (token ";"))
    (option (token ";")) :=
  (meets_token ⟨rfl, rfl, by decide⟩).agrees.option (failsInPlace_token ";")
    (failsInPlace_token ";") id

/-- The rule of the longer text is that of the text, at the offsets there. -/
def Juncture.MovesRule (J : Juncture) (r r' : Rule) : Prop :=
  r' = r.moved J.shift (byteLength J.before)

theorem repeats_rule {n n' : Nat} : Echoes J.text J.longer
    (fun cs cs' => J.Meets (n + 1) (n' + 1) cs cs' ∧ cs ≠ []) (J.Meets n n') Nowhere Nowhere
    J.MovesRule rule rule := by
  refine .attempt (.begun fun {c c'} hc hc' hmeets => meets_identifier.next ?_)
  rintro name _ rfl
  refine (meets_string.agrees.option failsInPlace_string failsInPlace_string
    id).next fun {display display'} hdisplay => ?_
  refine (meets_token ⟨rfl, rfl, by decide⟩).agrees.next fun _ => ?_
  refine repeats_choice.next fun {e e'} he => repeats_semicolon.next fun _ => ?_
  refine (moves_spanSince hc hc' hmeets.1).map fun {span span'} hspan => ?_
  obtain rfl := he
  obtain rfl := hspan
  cases hdisplay with
  | none => rfl
  | some hdisplay =>
    obtain rfl := hdisplay
    rfl

/-- The code block in front of the rules, at the offsets there. -/
theorem repeats_initializer {n n' : Nat} : J.Agrees n n'
    (fun i i' => i' = { i with span := i.span.moved J.shift }) initializer initializer := by
  refine .begun fun {c c'} hc hc' hmeets => ?_
  refine meets_action.agrees.next ?_
  rintro code _ rfl
  refine repeats_semicolon.next fun _ => (moves_spanSince hc hc' hmeets).map ?_
  rintro span _ rfl
  rfl

end Notation

end Packrat
