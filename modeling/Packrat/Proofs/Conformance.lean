import Packrat.Notation.Production
import Packrat.Proofs.Notes

/-!
# Grammar text is what its grammar matches

The readers of the productions recognise them, and no stray note refuses a text. The productions
list their alternatives in full where the readers take what they have in common first, and
parentheses are read to a bounded depth; neither changes what is matched.

## Stray notes

Of the productions with a class in them, one can be given up only in front of a bracket, a
parenthesis or a prefix operator, and a label with the expression behind it also in front of the
colon (`stuck`). The loop that gave it up then ends there, and so does every loop around it, since
no element, code block, `/`, `;`, `)` or rule begins with such a character. The text is refused in
any case.

## Main results

* `reads_grammar`: the reader of grammars recognises the production
* `parse_isOk_iff`: a text is read as a grammar if and only if the productions match the whole of it
  and its ranges are in order
-/

namespace Packrat.Notation

open Peg ParseTree Reader

variable {n : Nat}

/-! ### First characters -/

/-- Characters that an expression without operators may begin with. -/
abbrev IsOperandHead (c : Char) : Prop := isIdentifierHead c = true ∨ c ∈ ['"', '\'', '[', '.', '(']

/-- Characters that an expression may begin with. -/
abbrev IsHead (c : Char) : Prop := IsOperandHead c ∨ c ∈ ['&', '!']

/-- An expression that is given up with a class in it begins with one of these. -/
def abandoned : List Char := ['(', '[', '&', '!']

/-- A loop that gave up a class ends in front of one of these. -/
def stuck : List Char := ['(', '[', '&', '!', ':']

theorem begins_fixed {value : String} {c : Char} {cs : List Char} (h : value.toList = c :: cs) :
    Begins production (fixed value) (· = c) := by
  refine Begins.seq ?_
  rw [Peg.text, h]
  exact .chars c cs

theorem begins_primary : Begins production (call .primary) IsOperandHead := by
  have hidentifier := begins_identifier.seq (f := absent (inOrder [opt (call .string), fixed "="]))
  refine Begins.call ((hidentifier.mono fun _ => .inl).choice
    ((begins_literal.mono ?_).choice ((begins_charClass.mono ?_).choice
      (((begins_fixed rfl).mono ?_).choice ((begins_fixed rfl).seq.mono ?_)))))
  · rintro _ (rfl | rfl) <;> exact .inr (by decide)
  all_goals
    rintro _ rfl
    exact .inr (by decide)

theorem begins_suffixed : Begins production (call .suffixed) IsOperandHead :=
  Begins.call (begins_primary.seq.choice (begins_primary.seq.choice
    (begins_primary.seq.choice begins_primary)))

theorem begins_prefixed : Begins production (call .prefixed) IsHead := by
  have hoperator : ∀ {value : String} {c : Char} {cs : List Char} (f : Peg Symbol),
      value.toList = c :: cs → c ∈ ['&', '!'] →
        Begins production (.seq (fixed value) f) IsHead := fun f h hc =>
    (begins_fixed h).seq.mono fun d hd => hd ▸ .inr hc
  exact Begins.call ((hoperator _ rfl (by decide)).choice ((hoperator _ rfl (by decide)).choice
    ((hoperator _ rfl (by decide)).choice ((hoperator _ rfl (by decide)).choice
      (begins_suffixed.mono fun _ => .inl)))))

theorem begins_labeled : Begins production (call .labeled) IsHead :=
  Begins.call ((begins_identifier.seq.mono fun _ hc => .inl (.inl hc)).choice begins_prefixed)

theorem begins_rule : Begins production (call .rule) (isIdentifierHead · = true) :=
  begins_identifier.seq.call

/-! ### Operands -/

theorem still_spanned (begun : Cursor) (build : Info → Expr) : Still (spanned begun build) :=
  (still_spanSince begun).bind fun _ => still_pure _

theorem reads_ruleReference : Reads n ruleReference
    (inOrder [call .identifier, absent (inOrder [opt (call .string), fixed "="])]) anyValue
    silent := by
  have hbeginsRule : Reads n (do let _ ← Reader.option string; token "=")
      (inOrder [opt (call .string), fixed "="]) anyValue silent :=
    (reads_string.option failsInPlace_string id).next fun _ => reads_token "="
  refine (Reads.still still_cursor fun begun => reads_identifier.next fun name => ?_).attempt
  exact hbeginsRule.absent trivial

section

variable {inner : Reader Expr}
  (hinner : Reads n inner (.call .choice) anyValue (noting Nowhere (Ahead stuck)))

include hinner in
/-- The opening parenthesis takes a character, so what is inside may have the smaller bound. -/
theorem reads_parenthesized : Reads (n + 1) (parenthesized inner)
    (inOrder [fixed "(", call .choice, fixed ")"]) anyValue (noting (Ahead ['(']) Nowhere) := by
  have hbegins : Begins production (fixed "(") (· = '(') := begins_fixed rfl
  have hinside : ∀ _ : Unit, Reads n (do let e ← inner; token ")"; return e)
      (inOrder [call .choice, fixed ")"]) anyValue (noting Anywhere Nowhere) := fun _ => by
    refine hinner.close rfl (fun e => (reads_token ")").thenStill fun _ => still_pure _) False.elim
      (fun _ _ => trivial) fun hstuck hd => ?_
    exact absurd hd (hstuck.not_derives (begins_fixed rfl) rfl)
  refine ((reads_token "(").bind hinside (fun hn hd => ?_)
    (.lexical rfl fun hd _ => ?_)).any.attempt
  · exact Nat.lt_of_lt_of_le (hbegins.length_lt hd) (Nat.le_of_lt_succ hn)
  · exact .of_begins hbegins hd

theorem failsInPlace_primary (inner : Reader Expr) : FailsInPlace (primary inner) := by
  refine .still still_cursor fun begun => (failsInPlace_attempt _).orElse ?_
  refine (failsInPlace_literal.thenStill fun _ => still_spanned _ _).orElse ?_
  refine (failsInPlace_charClass.thenStill fun _ => still_spanned _ _).orElse ?_
  exact ((failsInPlace_token ".").thenStill fun _ => still_spanned _ _).orElse
    (failsInPlace_attempt _)

include hinner in
theorem reads_primary : Reads (n + 1) (primary inner) (.call .primary) anyValue
    (noting (Ahead ['(', '[']) Nowhere) := by
  have hclass : ∀ begun, Reads (n + 1) (do
      let members ← charClass
      spanned begun (.charClass · members (rawClass members))) (.call .charClass) anyValue
      (noting (Ahead ['[']) Nowhere) := fun begun =>
    reads_charClass.thenStill fun _ => still_spanned _ _
  have hbegins : Begins production
      (firstOf [fixed ".", inOrder [fixed "(", call .choice, fixed ")"]]) (· ∈ ['.', '(']) :=
    ((begins_fixed rfl).mono fun c hc => hc ▸ by decide).choice
      ((begins_fixed rfl).seq.mono fun c hc => hc ▸ by decide)
  refine .nonterminal (.still still_cursor fun begun => ?_) nofun
  refine reads_ruleReference.besides rfl (failsInPlace_attempt _) ?_
  refine (reads_literal.thenStill fun _ => still_spanned _ _).besides rfl
    (failsInPlace_literal.thenStill fun _ => still_spanned _ _) ?_
  refine (hclass begun).orElse (failsInPlace_charClass.thenStill fun _ => still_spanned _ _)
    (((reads_token ".").thenStill fun _ => still_spanned _ _).besides rfl
      ((failsInPlace_token ".").thenStill fun _ => still_spanned _ _)
      (reads_parenthesized hinner)) (.notes False.elim False.elim ?_ ?_ ?_)
  · exact fun hclass hd => hclass.not_derives hbegins rfl hd
  · exact fun hclass _ => hclass.mono (by decide)
  · exact fun hopening => hopening.mono (by decide)

theorem failsInPlace_operator (value : String) (build : Expr → Info → Expr) :
    FailsInPlace (do token value; return build) :=
  (failsInPlace_token value).thenStill fun _ => still_pure _

theorem reads_suffixOperator :
    Reads n suffixOperator (firstOf [fixed "?", fixed "*", fixed "+"]) anyValue silent := by
  have hoperator : ∀ (value : String) (build : Expr → Info → Expr),
      Reads n (do token value; return build) (fixed value) anyValue silent := fun value _ =>
    (reads_token value).thenStill fun _ => still_pure _
  exact (hoperator _ _).or (failsInPlace_operator _ _)
    ((hoperator _ _).or (failsInPlace_operator _ _) (hoperator _ _))

theorem failsInPlace_suffixOperator : FailsInPlace suffixOperator :=
  (failsInPlace_operator _ _).orElse
    ((failsInPlace_operator _ _).orElse (failsInPlace_operator _ _))

theorem failsInPlace_suffixed (inner : Reader Expr) : FailsInPlace (suffixed inner) := by
  refine .still still_cursor fun begun => (failsInPlace_primary inner).bind fun e => ?_
  refine bind_ne_none (option_ne_none _) fun
    | some _ => still_spanned _ _
    | none => still_pure _

theorem reads_suffix (begun : Cursor) (e : Expr) : Reads n (do
    match ← Reader.option suffixOperator with
    | some build => spanned begun (build e)
    | none => return e) (opt (firstOf [fixed "?", fixed "*", fixed "+"])) anyValue silent := by
  refine (reads_suffixOperator.option failsInPlace_suffixOperator id).thenStill ?_
  rintro (_ | _)
  · exact still_pure _
  · exact still_spanned _ _

include hinner in
theorem reads_suffixed : Reads (n + 1) (suffixed inner) (.call .suffixed) anyValue
    (noting (Ahead ['(', '[']) Nowhere) := by
  refine .nonterminal (.still still_cursor fun begun => ?_) (by decide)
  refine ((reads_primary hinner).close rfl (reads_suffix begun) id
    (fun _ hd => absurd hd Derives.opt_ne_none) fun h _ => h).derive fun h => ?_
  -- The reader takes the operand once, the production once for each operator.
  have h := h.seq_mono fun h => h.choice_assoc.choice_mono id fun h => h.choice_assoc
  exact h.factor.choice_mono id fun h => h.factor.choice_mono id fun h =>
    h.factor.choice_mono id fun h => h.seq_empty

/-! ### Prefix operators and labels -/

theorem failsInPlace_predicateOf (inner : Reader Expr) (operator : String) (negated : Bool) :
    FailsInPlace (predicateOf inner operator negated) :=
  .still still_cursor fun _ =>
    ((failsInPlace_attempt _).thenStill fun _ => still_spanned _ _).orElse
      ((failsInPlace_attempt _).thenStill fun _ => still_spanned _ _)

include hinner in
theorem reads_predicateOf {operator : String} {c : Char} {cs : List Char}
    (hoperator : operator.toList = c :: cs) (negated : Bool) :
    Reads (n + 1) (predicateOf inner operator negated)
      (firstOf [inOrder [fixed operator, call .action], inOrder [fixed operator, call .suffixed]])
      anyValue (noting (Ahead [c]) Nowhere) := by
  have hcode : Reads (n + 1) (attempt do token operator; action)
      (inOrder [fixed operator, call .action]) anyValue silent :=
    ((reads_token operator).next fun _ => reads_action).attempt
  have hoperand : Reads (n + 1) (attempt do token operator; suffixed inner)
      (inOrder [fixed operator, call .suffixed]) anyValue (noting (Ahead [c]) Nowhere) := by
    exact ((reads_token operator).lead (lexical_fixed _) (fun _ => reads_suffixed hinner)
      fun hd _ => .of_begins (begins_fixed hoperator) hd).attempt
  have hlexical : Lexical (inOrder [fixed operator, call .action]) :=
    Bool.and_eq_true_iff.mpr ⟨lexical_fixed operator, rfl⟩
  refine .still still_cursor fun begun => ?_
  exact (hcode.thenStill fun _ => still_spanned _ _).besides hlexical
    ((failsInPlace_attempt _).thenStill fun _ => still_spanned _ _)
    (hoperand.thenStill fun _ => still_spanned _ _)

theorem failsInPlace_prefixed (inner : Reader Expr) : FailsInPlace (prefixed inner) :=
  (failsInPlace_predicateOf _ _ _).orElse
    ((failsInPlace_predicateOf _ _ _).orElse (failsInPlace_suffixed inner))

include hinner in
theorem reads_prefixed : Reads (n + 1) (prefixed inner) (.call .prefixed) anyValue
    (noting (Ahead abandoned) Nowhere) := by
  have hand : Reads (n + 1) (predicateOf inner "&" false)
      (firstOf [inOrder [fixed "&", call .action], inOrder [fixed "&", call .suffixed]]) anyValue
      (noting (Ahead ['&']) Nowhere) := reads_predicateOf hinner rfl false
  have hnot : Reads (n + 1) (predicateOf inner "!" true)
      (firstOf [inOrder [fixed "!", call .action], inOrder [fixed "!", call .suffixed]]) anyValue
      (noting (Ahead ['!']) Nowhere) := reads_predicateOf hinner rfl true
  have hbegins : Begins production (firstOf [
      firstOf [inOrder [fixed "!", call .action], inOrder [fixed "!", call .suffixed]],
      call .suffixed]) fun c => c = '!' ∨ IsOperandHead c :=
    (((begins_fixed rfl).seq.choice (begins_fixed rfl).seq).mono fun _ => .inl).choice
      (begins_suffixed.mono fun _ => .inr)
  have hrest : Reads (n + 1) (predicateOf inner "!" true <|> suffixed inner) (firstOf [
      firstOf [inOrder [fixed "!", call .action], inOrder [fixed "!", call .suffixed]],
      call .suffixed]) anyValue (noting (Ahead ['(', '[', '!']) Nowhere) := by
    refine hnot.orElse (failsInPlace_predicateOf _ _ _) (reads_suffixed hinner)
      (.notes False.elim False.elim ?_ ?_ ?_)
    · exact fun hmark hd => hmark.not_derives begins_suffixed rfl hd
    · exact fun hmark _ => hmark.mono (by decide)
    · exact fun hoperand => hoperand.mono (by decide)
  refine .nonterminal (.derive (hand.orElse (failsInPlace_predicateOf _ _ _) hrest
    (.notes False.elim False.elim ?_ ?_ ?_)) fun h => ?_) nofun
  · exact fun hmark hd => hmark.not_derives hbegins rfl hd
  · exact fun hmark _ => hmark.mono (by decide)
  · exact fun hrest => hrest.mono (by decide)
  · exact h.choice_assoc.choice_mono id fun h => h.choice_mono id fun h => h.choice_assoc

/-- A name with a colon behind it. -/
def AtLabel (cs : List Char) : Prop :=
  ∃ ts mid us rest, Derives production (call .identifier) cs (some (ts, mid)) ∧
    Derives production (fixed ":") mid (some (us, rest))

theorem fixed_other {value : String} {c d : Char} {cs ds : List Char}
    (hvalue : value.toList = c :: cs) (h : d ≠ c) :
    Derives production (fixed value) (d :: ds) none := by
  rw [fixed, Peg.text, hvalue]
  exact .seqFirst (.chars_other h)

/-- Without what a label is for, its name alone is read as a reference, up to the colon. -/
theorem derives_prefixed_of_atLabel {cs : List Char} (h : AtLabel cs) :
    ∃ ts rest, Derives production (call .prefixed) cs (some (ts, rest)) ∧ Ahead [':'] rest := by
  obtain ⟨ts, mid, us, rest, hname, hcolon⟩ := h
  obtain ⟨c, cs, rfl, hhead, -⟩ := begins_identifier _ _ _ hname
  obtain ⟨_, mid, rfl, rfl, -⟩ := begins_fixed rfl _ _ _ hcolon
  have hstring : Derives production (call .string) (':' :: mid) none :=
    .callFails (.seqFirst (.callFails
      (.choiceSecond (.seqFirst (.chars_other (by decide)))
        (.seqFirst (.chars_other (by decide))))))
  have hprimary : Derives production (call .primary) (c :: cs) (some (_, ':' :: mid)) :=
    .call (.choiceFirst (.seq hname (.absent (.seqSecond (.choiceSecond hstring .empty)
      (fixed_other rfl (by decide))))))
  have hsuffixed : Derives production (call .suffixed) (c :: cs) (some (_, ':' :: mid)) :=
    .call (.choiceSecond (.seqSecond hprimary (fixed_other rfl (by decide)))
      (.choiceSecond (.seqSecond hprimary (fixed_other rfl (by decide)))
        (.choiceSecond (.seqSecond hprimary (fixed_other rfl (by decide))) hprimary)))
  have hand : Derives production (fixed "&") (c :: cs) none :=
    fixed_other rfl fun hc => by nomatch hc ▸ hhead
  have hnot : Derives production (fixed "!") (c :: cs) none :=
    fixed_other rfl fun hc => by nomatch hc ▸ hhead
  refine ⟨_, _, .call (.choiceSecond (.seqFirst hand) (.choiceSecond (.seqFirst hand)
    (.choiceSecond (.seqFirst hnot) (.choiceSecond (.seqFirst hnot) hsuffixed)))), ?_⟩
  exact ⟨':', List.mem_singleton.mpr rfl, mid, rfl⟩

theorem failsInPlace_labeled (inner : Reader Expr) : FailsInPlace (labeled inner) :=
  (failsInPlace_attempt _).orElse (failsInPlace_prefixed inner)

include hinner in
theorem reads_labeled : Reads (n + 1) (labeled inner) (.call .labeled) anyValue
    (noting (Ahead abandoned) (Ahead [':'])) := by
  have hlabel : Reads (n + 1) (attempt do
      let begun ← cursor
      let label ← identifier
      token ":"
      let e ← prefixed inner
      spanned begun (.labeled · label e)) (inOrder [call .identifier, fixed ":", call .prefixed])
      anyValue (noting AtLabel Nowhere) := by
    refine Reads.attempt (.still still_cursor fun begun => ?_)
    refine reads_identifier.lead (F := fun mid =>
      ∃ us rest, Derives production (fixed ":") mid (some (us, rest))) rfl (fun label => ?_)
      fun hname hcolon => ?_
    · exact (reads_token ":").lead rfl
        (fun _ => (reads_prefixed hinner).thenStill fun _ => still_spanned _ _)
        fun hcolon _ => ⟨_, _, hcolon⟩
    · obtain ⟨us, rest, hcolon⟩ := hcolon
      exact ⟨_, _, us, rest, hname, hcolon⟩
  refine .nonterminal (hlabel.orElse (failsInPlace_attempt _) (reads_prefixed hinner)
    (.notes False.elim False.elim ?_ ?_ id)) nofun
  · intro cs ts rest hlabel hd
    obtain ⟨_, _, hd', hcolon⟩ := derives_prefixed_of_atLabel hlabel
    obtain ⟨rfl, rfl⟩ := Prod.mk.inj (Option.some.inj (hd.unique hd'))
    exact hcolon
  · intro cs hlabel hd
    obtain ⟨_, _, hd', -⟩ := derives_prefixed_of_atLabel hlabel
    nomatch hd.unique hd'

/-! ### Sequences and alternatives -/

/-- The code block behind the elements of a sequence. -/
theorem reads_closing (begun : Cursor) (e : Expr) : Reads n (do
    match ← Reader.option action with
    | some code => spanned begun (.action · code [] e)
    | none => return e) (opt (call .action)) anyValue silent := by
  refine (reads_action.option failsInPlace_action id).thenStill ?_
  rintro (_ | _)
  · exact still_pure _
  · exact still_spanned _ _

include hinner in
theorem reads_sequence : Reads (n + 1) (sequence inner) (.call .sequence) anyValue
    (noting Nowhere (Ahead stuck)) := by
  have hlabeled : Reads (n + 1) (Reader.many (labeled inner)) (many (call .labeled)) anyValue
      (noting Nowhere (Ahead stuck)) := by
    refine (reads_labeled hinner).many (failsInPlace_labeled inner) begins_labeled.length_lt
      (.notes (fun hplace => hplace.mono (by decide)) fun hcolon hd => ?_)
    exact (hcolon.many begins_labeled rfl hd).mono (by decide)
  refine .nonterminal (.still still_cursor fun begun => .derive (hlabeled.close
    (f := opt (call .action)) rfl (fun es => ?_)
    False.elim (fun _ hd => absurd hd Derives.opt_ne_none) fun hstuck hd => ?_) fun h => ?_)
    (by decide)
  · split
    · exact .still (still_pure _) (reads_closing begun)
    · exact .still (still_spanned _ _) (reads_closing begun)
  · exact hstuck.opt begins_action rfl hd
  -- The reader takes the elements once, the production once more for their code block.
  · exact h.factor.choice_mono id fun h => h.seq_empty

include hinner in
theorem reads_choiceWith : Reads (n + 1) (choiceWith inner) (.call .choice) anyValue
    (noting Nowhere (Ahead stuck)) := by
  have hbegins : Begins production (inOrder [fixed "/", call .sequence]) (· = '/') :=
    (begins_fixed rfl).seq
  have hnext : Reads (n + 1) (attempt do token "/"; sequence inner)
      (inOrder [fixed "/", call .sequence]) anyValue (noting Nowhere (Ahead stuck)) :=
    ((reads_token "/").lead rfl (fun _ => reads_sequence hinner) fun _ h => h).attempt
  have hmore : Reads (n + 1) (Reader.many (attempt do token "/"; sequence inner))
      (many (inOrder [fixed "/", call .sequence])) anyValue (noting Nowhere (Ahead stuck)) :=
    hnext.many (failsInPlace_attempt _) hbegins.length_lt
      (.notes False.elim fun hstuck hd => hstuck.many hbegins rfl hd)
  refine .nonterminal (.still still_cursor fun begun => Reads.any
    ((reads_sequence hinner).behind (fun first => hmore.thenStill ?_) ?_)) nofun
  · exact fun
      | [] => still_pure _
      | _ :: _ => still_spanned _ _
  · exact .notes id (fun _ hd => absurd hd Derives.many_ne_none)
      (fun hstuck hd => hstuck.many hbegins rfl hd) id

end

/-- Every pair of parentheses takes a character, as every step of the depth does. -/
theorem reads_choiceWithin (depth : Nat) : Reads depth (choiceWithin depth) (.call .choice) anyValue
    (noting Nowhere (Ahead stuck)) := by
  induction depth with
  | zero => exact .zero
  | succ depth ih => exact reads_choiceWith ih

theorem reads_choice : Reads n choice (.call .choice) anyValue (noting Nowhere (Ahead stuck)) :=
  .of_bound fun n => reads_choiceWithin n

/-! ### Rules and grammars -/

theorem reads_rule : Reads n rule (.call .rule) anyValue (noting Nowhere (Ahead stuck)) := by
  refine .nonterminal (.attempt (.still still_cursor fun begun => ?_)) nofun
  refine reads_identifier.lead rfl (fun name => ?_) fun _ h => h
  refine (reads_string.option failsInPlace_string id).lead rfl (fun displayName => ?_) fun _ h => h
  refine (reads_token "=").lead rfl (fun _ => ?_) fun _ h => h
  refine reads_choice.close rfl (fun e => ?_) id (fun _ hd => absurd hd Derives.opt_ne_none)
    fun hstuck hd => hstuck.opt (begins_fixed rfl) rfl hd
  refine ((reads_token ";").option (failsInPlace_token ";") id).thenStill fun _ => ?_
  exact (still_spanSince begun).bind fun _ => still_pure _

theorem reads_initializer : Reads n initializer (.call .initializer) anyValue silent := by
  refine Reads.lexeme (.still still_cursor fun begun => reads_action.next fun code => ?_)
  refine ((reads_token ";").option (failsInPlace_token ";") id).thenStill fun _ => ?_
  exact (still_spanSince begun).bind fun _ => still_pure _

theorem failsInPlace_initializer : FailsInPlace initializer := by
  refine .still still_cursor fun begun => failsInPlace_action.bind fun code => ?_
  exact bind_ne_none (option_ne_none _) fun _ => (still_spanSince begun).bind fun _ => still_pure _

theorem reads_grammar : Reads n grammar (.call .grammar) anyValue
    (noting Nowhere (Ahead stuck)) := by
  refine .nonterminal (.attempt (reads_skip.lead rfl (fun _ => ?_) fun _ h => h)) nofun
  refine (reads_initializer.option failsInPlace_initializer id).lead rfl (fun front => ?_)
    fun _ h => h
  exact reads_rule.atLeastOne (failsInPlace_attempt _) begins_rule.length_lt
    (.notes False.elim fun hstuck hd => hstuck.many begins_rule rfl hd) id rfl
    fun _ _ => still_pure _

end Packrat.Notation

namespace Packrat

open Notation

theorem State.finish_eq_ok_iff {α : Type} {s : State} {result : Option α} {a : α} :
    s.finish result = .ok a ↔ result = some a ∧ s.cursor.ahead = [] := by
  cases result with
  | none => simp [State.finish]
  | some b => by_cases hend : s.cursor.ahead = [] <;> simp [State.finish, State.atEnd, hend]

/-- A text is read if the reader gets to its end without a note. -/
theorem Reader.run_eq_ok_iff {α : Type} {p : Reader α} {source : String} {a : α} :
    p.run source = .ok a ↔ ∃ s, p ⟨State.start false false source.toList, none⟩ = (some a, s) ∧
      s.noted = false ∧ s.ahead = [] := by
  unfold Reader.run ReaderState.noted ReaderState.ahead
  cases hresult : p ⟨State.start false false source.toList, none⟩ with
  | mk result s =>
    dsimp only
    cases hnoted : s.inverted with
    | some note =>
      refine ⟨nofun, ?_⟩
      rintro ⟨_, heq, hnone, -⟩
      obtain ⟨-, rfl⟩ := Prod.mk.inj heq
      nomatch hnoted ▸ hnone
    | none =>
      have hfinish : (s.state.finish result).mapError GrammarError.malformed = .ok a ↔
          result = some a ∧ s.state.cursor.ahead = [] := by
        rw [← State.finish_eq_ok_iff]
        cases s.state.finish result <;> simp [Except.mapError]
      refine hfinish.trans ⟨?_, ?_⟩
      · rintro ⟨rfl, hend⟩
        exact ⟨s, rfl, congrArg _ hnoted, hend⟩
      · rintro ⟨_, heq, -, hend⟩
        obtain ⟨rfl, rfl⟩ := Prod.mk.inj heq
        exact ⟨rfl, hend⟩

/-- A text is read as a grammar just when the grammar of grammars matches the whole of it and no
range in the match has its end before its beginning. Every text has an outcome, which readers come
to as the grammar does: a derivation is finite, so no loop goes on forever, and none is cut off by
its bound. -/
theorem Grammar.parse_isOk_iff (source : String) :
    (∃ outcome, Derives production (.call .grammar) source.toList outcome) ∧
      ((∃ g, Grammar.parse source = .ok g) ↔
        ∃ tree, Derives production (.call .grammar) source.toList (some ([tree], [])) ∧
          RangesOrdered tree) := by
  have hreads := reads_grammar (n := source.toList.length + 1)
  have hbound : (⟨State.start false false source.toList, none⟩ : ReaderState).ahead.length <
      source.toList.length + 1 := Nat.lt_succ_self _
  have hparse : ∀ g, Grammar.parse source = .ok g ↔ _ := fun g => Reader.run_eq_ok_iff
  simp only [hparse]
  cases hresult : grammar ⟨State.start false false source.toList, none⟩ with
  | mk a s =>
    cases a with
    | none =>
      obtain ⟨hd, -⟩ := hreads.failed hbound hresult
      refine ⟨⟨_, hd⟩, ?_, ?_⟩
      · rintro ⟨g, s', hsome, -⟩
        nomatch hsome
      · rintro ⟨tree, hd', -⟩
        nomatch hd.unique hd'
    | some g =>
      obtain ⟨ts, hd, -, hnoted⟩ := hreads.matched hbound hresult
      obtain ⟨tree, rfl⟩ : ∃ tree, ts = [tree] := by
        cases hd
        exact ⟨_, rfl⟩
      refine ⟨⟨_, hd⟩, ?_, ?_⟩
      · rintro ⟨_, _, heq, hnone, hend⟩
        obtain ⟨-, rfl⟩ := Prod.mk.inj heq
        refine ⟨tree, hend ▸ hd, rangesOrdered_iff.mpr fun hinverted => ?_⟩
        nomatch hnone.symm.trans (hnoted.left hinverted)
      · rintro ⟨tree', hd', hordered⟩
        obtain ⟨htree, hend⟩ := Prod.mk.inj (Option.some.inj (hd.unique hd'))
        obtain rfl := List.cons.inj htree |>.1
        refine ⟨g, s, rfl, Bool.eq_false_iff.mpr fun htrue => ?_, hend⟩
        rcases hnoted.origin htrue with hbefore | hinverted | ⟨c, -, rest, hstuck⟩
        · nomatch hbefore
        · exact rangesOrdered_iff.mp hordered hinverted
        · nomatch hend.symm.trans hstuck

end Packrat
