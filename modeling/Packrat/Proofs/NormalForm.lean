import Packrat.Proofs.Acceptance
import Packrat.Proofs.Conformance
import Packrat.Proofs.Reading
import Packrat.Proofs.Rendering

/-!
# Grammars that are read are in normal form

Every production builds an expression in normal form from parts in normal form: forms with one part
are what they contain, a display name goes on the outside of the body of a rule, and slots are left
open. What remains are the lexemes. A vocabulary `Covers` what the readers of lexemes give, and over
such a vocabulary every grammar that is read is in normal form.

Ranges need a word. The reader of a range does not refuse one that is inverted; it leaves a note,
and the note refuses the whole text in the end. So nothing can be said about every class that is
read, only about those behind which nothing is noted. `Reader.Unnoted` is about such runs. No reader
takes a note back, which it says too: that is how a run without a note behind it has none in
between.

## Main results

* `Grammar.isNormal_of_parse`: grammars that are read are in normal form
* `Vocabulary.covers_ordered`: what is read has its ranges in order
-/

namespace Packrat

/-! ### Without a note -/

namespace Reader

open Notation (Reads Symbol silent)

variable {α β : Type} {p q : Reader α} {P : α → Prop} {Q : β → Prop}

/-- The reader takes no note back, and its results behind which nothing is noted satisfy `P`. -/
structure Unnoted (p : Reader α) (P : α → Prop) : Prop where
  kept {s : ReaderState} {o : Option α} {t : ReaderState} : p s = (o, t) → t.noted = false →
    s.noted = false
  result {s : ReaderState} {a : α} {t : ReaderState} : p s = (some a, t) → t.noted = false → P a

theorem Unnoted.mono {P' : α → Prop} (h : p.Unnoted P) (hP : ∀ a, P a → P' a) : p.Unnoted P' :=
  ⟨h.kept, fun hp hnone => hP _ (h.result hp hnone)⟩

/-- A reader that leaves the note alone. -/
theorem Yields.unnoted {e : Peg Symbol} {V : α → List (ParseTree Symbol) → Prop}
    (hP : p.Yields P) (h : ∀ n, Reads n p e V silent) : p.Unnoted P where
  kept {s o t} hp hnone := by
    cases o with
    | none => exact ((h _).failed (Nat.lt_succ_self _) hp).2 ▸ hnone
    | some a =>
      obtain ⟨_, -, -, hnoted⟩ := (h _).matched (Nat.lt_succ_self _) hp
      exact hnoted ▸ hnone
  result hp _ := hP _ _ _ hp

/-- A reader that leaves the note alone, and of which nothing else matters. -/
theorem unnoted_of_reads {e : Peg Symbol} {V : α → List (ParseTree Symbol) → Prop}
    (h : ∀ n, Reads n p e V silent) : p.Unnoted anything :=
  Yields.unnoted (.of_all fun _ => trivial) h

theorem Unnoted.pure {a : α} (h : P a) : (pure a : Reader α).Unnoted P where
  kept hp hnone := (Prod.mk.inj hp).2 ▸ hnone
  result hp _ := Option.some.inj (Prod.mk.inj hp).1 ▸ h

theorem Unnoted.fail : (Reader.fail : Reader α).Unnoted P where
  kept hp hnone := (Prod.mk.inj hp).2 ▸ hnone
  result hp _ := nomatch hp

/-- What is known about the first result is known only once the whole has left no note. -/
theorem Unnoted.bind {f : α → Reader β} (h : p.Unnoted P)
    (hf : ∀ a, (f a).Unnoted fun b => P a → Q b) : (p >>= f).Unnoted Q where
  kept {s o t} hp hnone := by
    rw [bind_apply] at hp
    split at hp
    · next a s' hps => exact h.kept hps ((hf a).kept hp hnone)
    · next s' hps =>
      obtain ⟨-, rfl⟩ := Prod.mk.inj hp
      exact h.kept hps hnone
  result {s b t} hp hnone := by
    rw [bind_apply] at hp
    split at hp
    · next a s' hps => exact (hf a).result hp hnone (h.result hps ((hf a).kept hp hnone))
    · cases hp

/-- The results of the first reader do not matter. -/
theorem Unnoted.after {f : α → Reader β} (h : p.Unnoted anything) (hf : ∀ a, (f a).Unnoted Q) :
    (p >>= f).Unnoted Q := h.bind fun a => (hf a).mono fun _ hb _ => hb

theorem Unnoted.orElse (hp : p.Unnoted P) (hq : q.Unnoted P) : (p <|> q).Unnoted P where
  kept {s o t} h hnone := by
    change Reader.orElse p (fun _ => q) s = _ at h
    rw [Reader.orElse] at h
    split at h
    · next a s' hps =>
      obtain ⟨-, rfl⟩ := Prod.mk.inj h
      exact hp.kept hps hnone
    · next s' hps => exact hp.kept hps (hq.kept h hnone)
  result {s a t} h hnone := by
    change Reader.orElse p (fun _ => q) s = _ at h
    rw [Reader.orElse] at h
    split at h
    · next b s' hps =>
      obtain ⟨hab, rfl⟩ := Prod.mk.inj h
      exact Option.some.inj hab ▸ hp.result hps hnone
    · exact hq.result h hnone

theorem Unnoted.attempt (h : p.Unnoted P) : (Reader.attempt p).Unnoted P where
  kept {s o t} hp hnone := by
    rw [Reader.attempt] at hp
    split at hp
    · next a s' hps =>
      obtain ⟨-, rfl⟩ := Prod.mk.inj hp
      exact h.kept hps hnone
    · next s' hps =>
      obtain ⟨-, rfl⟩ := Prod.mk.inj hp
      exact h.kept hps hnone
  result {s a t} hp hnone := by
    rw [Reader.attempt] at hp
    split at hp
    · next b s' hps =>
      obtain ⟨hab, rfl⟩ := Prod.mk.inj hp
      exact Option.some.inj hab ▸ h.result hps hnone
    · nomatch hp

theorem Unnoted.quietly (h : p.Unnoted P) : (Reader.quietly p).Unnoted P where
  kept {s o t} hp hnone := by
    obtain ⟨-, rfl⟩ := Prod.mk.inj hp
    exact h.kept (s := { s with state := s.state.suspend }) rfl hnone
  result hp hnone := by
    obtain ⟨ha, rfl⟩ := Prod.mk.inj hp
    exact h.result (Prod.ext ha rfl) hnone

/-- A name for failures changes nothing about the results, nor about the notes. -/
theorem Unnoted.named (h : p.Unnoted P) (name : String) : (Reader.named name p).Unnoted P where
  kept {s o t} hp hnone := by
    rw [Reader.named] at hp
    split at hp
    · next a s' hps =>
      obtain ⟨-, rfl⟩ := Prod.mk.inj hp
      exact h.attempt.quietly.kept hps hnone
    · next s' hps =>
      obtain ⟨-, rfl⟩ := Prod.mk.inj hp
      exact h.attempt.quietly.kept hps hnone
  result {s a t} hp hnone := by
    rw [Reader.named] at hp
    split at hp
    · next b s' hps =>
      obtain ⟨hab, rfl⟩ := Prod.mk.inj hp
      exact Option.some.inj hab ▸ h.attempt.quietly.result hps hnone
    · nomatch hp

theorem Unnoted.peek (h : p.Unnoted P) : (Reader.peek p).Unnoted anything where
  kept hp hnone := by
    obtain ⟨-, rfl⟩ := Prod.mk.inj hp
    exact h.quietly.kept rfl hnone
  result _ _ := trivial

theorem Unnoted.option (h : p.Unnoted P) :
    (Reader.option p).Unnoted fun a => ∀ b, a = some b → P b where
  kept hp hnone := by
    obtain ⟨-, rfl⟩ := Prod.mk.inj hp
    exact h.kept rfl hnone
  result hp hnone := by
    obtain ⟨ha, rfl⟩ := Prod.mk.inj hp
    rintro b rfl
    exact h.result (Prod.ext (Option.some.inj ha) rfl) hnone

theorem unnoted_collect (h : p.Unnoted P) (bound : Nat) (s : ReaderState)
    (hnone : (collect p bound s).2.noted = false) :
    s.noted = false ∧ ∀ a ∈ (collect p bound s).1, P a := by
  induction bound generalizing s with
  | zero => exact ⟨hnone, fun _ ha => by cases ha⟩
  | succ bound ih =>
    rw [collect] at hnone ⊢
    cases hps : p s with
    | mk result s' =>
      rw [hps] at hnone
      cases result with
      | none => exact ⟨h.kept hps hnone, fun _ ha => by cases ha⟩
      | some a =>
        -- Notes stay, so none at the end means none behind the first item either.
        obtain ⟨hmid, has⟩ := ih s' hnone
        exact ⟨h.kept hps hmid, List.forall_mem_cons.mpr ⟨h.result hps hmid, has⟩⟩

theorem Unnoted.many (h : p.Unnoted P) : (Reader.many p).Unnoted fun as => ∀ a ∈ as, P a where
  kept {s as t} hp hnone := by
    obtain ⟨-, rfl⟩ := Prod.mk.inj ((many_apply p s).symm.trans hp)
    exact (unnoted_collect h _ s hnone).1
  result {s as t} hp hnone := by
    obtain ⟨has, rfl⟩ := Prod.mk.inj ((many_apply p s).symm.trans hp)
    exact Option.some.inj has ▸ (unnoted_collect h _ s hnone).2

theorem unnoted_cursor : cursor.Unnoted anything :=
  ⟨fun hp hnone => (Prod.mk.inj hp).2 ▸ hnone, fun _ _ => trivial⟩

theorem unnoted_spanSince (begun : Cursor) : (spanSince begun).Unnoted anything :=
  unnoted_cursor.after fun _ => .pure trivial

theorem Unnoted.of_run {source : String} {a : α} (h : p.Unnoted P) (hrun : p.run source = .ok a) :
    P a := by
  obtain ⟨s, hp, hnone, -⟩ := run_eq_ok_iff.mp hrun
  exact h.result hp hnone

end Reader

/-! ### Lexemes -/

/-- The readers of lexemes give words of the vocabulary. -/
structure Vocabulary.Covers (v : Vocabulary) : Prop where
  name : Notation.identifier.Yields (v.name · = true)
  code : Notation.action.Yields (v.code · = true)
  text : Notation.quotedString.Yields (v.text · = true)
  part : Notation.classPart.Unnoted (v.part · = true)

namespace Notation

open Reader

variable {v : Vocabulary}

theorem unnoted_text (value : String) : (Reader.text value).Unnoted anything :=
  unnoted_of_reads fun _ => reads_text value

theorem unnoted_token (value : String) : (token value).Unnoted anything :=
  unnoted_of_reads fun _ => reads_token value

section

variable (hv : v.Covers)

include hv

theorem unnoted_identifier : identifier.Unnoted (v.name · = true) :=
  hv.name.unnoted fun _ => reads_identifier

theorem unnoted_action : action.Unnoted (v.code · = true) :=
  hv.code.unnoted fun _ => reads_action

theorem unnoted_string : string.Unnoted (v.text · = true) := by
  have hquoted := hv.text.unnoted fun _ => reads_quotedString
  exact .named (hquoted.bind fun value =>
    (unnoted_of_reads fun _ => reads_skip).after fun _ => .pure id) _

theorem unnoted_literal : literal.Unnoted (v.text ·.1 = true) := by
  have hquoted := hv.text.unnoted fun _ => reads_quotedString
  have hflag : (succeeds (Reader.text "i")).Unnoted anything :=
    unnoted_of_reads fun _ => (reads_text "i").succeeds (failsInPlace_text "i") id
  exact .named (hquoted.bind fun value => hflag.after fun _ =>
    (unnoted_of_reads fun _ => reads_skip).after fun _ => .pure id) _

theorem unnoted_charClass : charClass.Unnoted (·.parts.all v.part = true) := by
  have hflag : ∀ value, (succeeds (Reader.text value)).Unnoted anything := fun value =>
    unnoted_of_reads fun _ => (reads_text value).succeeds (failsInPlace_text value) id
  refine .named ((unnoted_text "[").after fun _ => (hflag "^").after fun inverted => ?_) _
  refine hv.part.many.bind fun parts => (unnoted_text "]").after fun _ =>
    (hflag "i").after fun flag => ?_
  exact (unnoted_of_reads fun _ => reads_skip).after fun _ => .pure List.all_eq_true.mpr

end

/-! ### Productions -/

/-- Every expression behind which nothing is noted is in normal form. -/
abbrev Normalizes (v : Vocabulary) (p : Reader Expr) : Prop := p.Unnoted (·.isNormal v = true)

theorem unnoted_spanned {begun : Cursor} {build : Info → Expr} {P : Expr → Prop}
    (h : ∀ span, P (build ⟨span, none, none⟩)) : (spanned begun build).Unnoted P :=
  (unnoted_spanSince begun).after fun span => .pure (h span)

section

variable {inner : Reader Expr} (hv : v.Covers) (h : Normalizes v inner)

include hv in
theorem normalizes_ruleReference : Normalizes v ruleReference := by
  have hbeginsRule : (do let _ ← Reader.option string; token "=").Unnoted anything :=
    unnoted_of_reads fun _ =>
      (reads_string.option failsInPlace_string id).next fun _ => reads_token "="
  refine .attempt (unnoted_cursor.after fun begun => (unnoted_identifier hv).bind fun name => ?_)
  refine hbeginsRule.peek.after fun beginsRule => ?_
  split
  · exact .fail
  · exact .pure id

include h in
theorem normalizes_parenthesized : Normalizes v (parenthesized inner) := by
  refine .attempt ((unnoted_token "(").after fun _ => h.bind fun e => ?_)
  exact (unnoted_token ")").after fun _ => .pure id

/-- A suffix operator keeps the normal form. -/
theorem unnoted_suffixOperator : suffixOperator.Unnoted fun build =>
    ∀ e span, e.isNormal v = true → (build e ⟨span, none, none⟩).isNormal v = true := by
  refine .orElse ?_ (.orElse ?_ ?_)
  · exact (unnoted_token "?").after fun _ => .pure fun _ _ => id
  · exact (unnoted_token "*").after fun _ => .pure fun _ _ => id
  · exact (unnoted_token "+").after fun _ => .pure fun _ _ => id

include hv h

theorem normalizes_primary : Normalizes v (primary inner) := by
  refine unnoted_cursor.after fun begun => (normalizes_ruleReference hv).orElse (.orElse ?_
    (.orElse ?_ (.orElse ?_ (normalizes_parenthesized h))))
  · exact (unnoted_literal hv).bind fun value => unnoted_spanned fun span => id
  · refine (unnoted_charClass hv).bind fun members => unnoted_spanned fun span hparts => ?_
    simp only [Expr.isNormal, Info.isUnassigned, hparts, beq_self_eq_true]
    rfl
  · exact (unnoted_token ".").after fun _ => unnoted_spanned fun span => rfl

theorem normalizes_suffixed : Normalizes v (suffixed inner) := by
  refine unnoted_cursor.after fun begun => (normalizes_primary hv h).bind fun e => ?_
  refine (unnoted_suffixOperator (v := v)).option.bind fun operator => ?_
  cases operator with
  | none => exact .pure fun _ he => he
  | some build => exact unnoted_spanned fun span hbuild he => hbuild build rfl e span he

theorem normalizes_predicateOf (operator : String) (negated : Bool) :
    Normalizes v (predicateOf inner operator negated) := by
  refine unnoted_cursor.after fun begun => .orElse ?_ ?_
  · have hcode : (attempt do token operator; action).Unnoted (v.code · = true) :=
      .attempt ((unnoted_token operator).after fun _ => unnoted_action hv)
    refine hcode.bind fun code => unnoted_spanned fun span hcode => ?_
    simp only [Expr.isNormal, Info.isUnassigned, hcode]
    rfl
  · have hbody : Normalizes v (attempt do token operator; suffixed inner) :=
      .attempt ((unnoted_token operator).after fun _ => normalizes_suffixed hv h)
    exact hbody.bind fun e => unnoted_spanned fun span => id

theorem normalizes_prefixed : Normalizes v (prefixed inner) :=
  (normalizes_predicateOf hv h "&" false).orElse
    ((normalizes_predicateOf hv h "!" true).orElse (normalizes_suffixed hv h))

theorem normalizes_labeled : Normalizes v (labeled inner) := by
  refine .orElse (.attempt (unnoted_cursor.after fun begun => ?_)) (normalizes_prefixed hv h)
  refine (unnoted_identifier hv).bind fun label => (unnoted_token ":").after fun _ => ?_
  refine (normalizes_prefixed hv h).bind fun e => unnoted_spanned fun span he hlabel => ?_
  simp only [Expr.isNormal, Info.isUnassigned, he, hlabel]
  rfl

omit h in
/-- With the code block behind them, the elements of a sequence stay in normal form. -/
theorem unnoted_closing (begun : Cursor) (e : Expr) : (do
    match ← option action with
    | some code => spanned begun (.action · code [] e)
    | none => return e).Unnoted fun closed => e.isNormal v = true → closed.isNormal v = true := by
  refine (unnoted_action hv).option.bind fun code => ?_
  cases code with
  | none => exact .pure fun _ he => he
  | some code =>
    refine unnoted_spanned fun span hcode he => ?_
    simp only [Expr.isNormal, Info.isUnassigned, he, hcode code rfl]
    rfl

/-- A single element stands for itself. -/
theorem normalizes_sequence : Normalizes v (sequence inner) := by
  refine unnoted_cursor.after fun begun => (normalizes_labeled hv h).many.bind fun es => ?_
  split
  · next e =>
    exact (unnoted_closing hv begun e).mono fun _ hclosed hes =>
      hclosed (hes e List.mem_cons_self)
  · next hseveral =>
    have hlength : es.length ≠ 1 := fun hone => by
      obtain ⟨e, rfl⟩ := List.length_eq_one_iff.mp hone
      exact hseveral e rfl
    have hnormal : (spanned begun (.sequence · es)).Unnoted fun e =>
        (∀ e ∈ es, e.isNormal v = true) → e.isNormal v = true := by
      refine unnoted_spanned fun span hes => ?_
      simp only [Expr.isNormal, Info.isUnassigned, (Expr.areNormal_iff v).mpr hes,
        bne_iff_ne.mpr hlength]
      rfl
    exact hnormal.bind fun e =>
      (unnoted_closing hv begun e).mono fun _ hclosed he hes => hclosed (he hes)

theorem normalizes_choiceWith : Normalizes v (choiceWith inner) := by
  refine unnoted_cursor.after fun begun => (normalizes_sequence hv h).bind fun first => ?_
  have hmore : Normalizes v (attempt do token "/"; sequence inner) :=
    .attempt ((unnoted_token "/").after fun _ => normalizes_sequence hv h)
  refine hmore.many.bind fun rest => ?_
  cases rest with
  | nil => exact .pure fun _ hfirst => hfirst
  | cons e es =>
    refine unnoted_spanned fun span hrest hfirst => ?_
    have hitems := (Expr.areNormal_iff v).mpr (List.forall_mem_cons.mpr ⟨hfirst, hrest⟩)
    have htwo : 2 ≤ (first :: e :: es).length := Nat.le_add_left 2 es.length
    simp only [Expr.isNormal, Info.isUnassigned, hitems, decide_eq_true htwo]
    rfl

end

theorem unnoted_semicolon : (option (token ";")).Unnoted anything :=
  (unnoted_token ";").option.mono fun _ _ => trivial

section

variable (hv : v.Covers)

include hv

theorem normalizes_choiceWithin (depth : Nat) : Normalizes v (choiceWithin depth) := by
  induction depth with
  | zero => exact .fail
  | succ depth ih => exact normalizes_choiceWith hv ih

theorem normalizes_choice : Normalizes v choice :=
  unnoted_cursor.after fun _ => normalizes_choiceWithin hv _

theorem unnoted_rule : rule.Unnoted (·.isNormal v = true) := by
  refine .attempt (unnoted_cursor.after fun begun => (unnoted_identifier hv).bind fun name => ?_)
  refine (unnoted_string hv).option.bind fun display => (unnoted_token "=").after fun _ => ?_
  refine (normalizes_choice hv).bind fun e => unnoted_semicolon.after fun _ => ?_
  refine (unnoted_spanSince begun).after fun span => .pure fun he hdisplay hname => ?_
  cases display with
  | none =>
    simp only [Rule.isNormal, hname, Expr.isNormalBody_of_isNormal v he]
    rfl
  | some d =>
    simp only [Rule.isNormal, Expr.isNormalBody, Info.isUnassigned, hname, hdisplay d rfl, he]
    rfl

theorem unnoted_initializer : initializer.Unnoted (v.code ·.code = true) := by
  refine unnoted_cursor.after fun begun => (unnoted_action hv).bind fun code => ?_
  exact unnoted_semicolon.after fun _ => (unnoted_spanSince begun).after fun span => .pure id

theorem unnoted_grammar : grammar.Unnoted (·.isNormal v = true) := by
  refine .attempt ((unnoted_of_reads fun _ => reads_skip).after fun _ => ?_)
  refine (unnoted_initializer hv).option.bind fun front =>
    (unnoted_rule hv).many.bind fun rules => ?_
  cases rules with
  | nil => exact .fail
  | cons first rest =>
    refine .pure fun hrules hfront => ?_
    have hcode : front.all (fun i => v.code i.code) = true :=
      Option.all_eq_true _ _ |>.mpr hfront
    simp only [Grammar.isNormal, List.all_eq_true.mpr hrules, hcode]
    rfl

end

end Notation

/-! ### Grammars -/

/-- A grammar that is read is in normal form. -/
theorem Grammar.isNormal_of_parse {v : Vocabulary} (hv : v.Covers) {text : String} {g : Grammar}
    (h : Grammar.parse text = .ok g) : g.isNormal v = true :=
  (Notation.unnoted_grammar hv).of_run h

/-- Lexemes of which only the ranges matter. -/
def Vocabulary.ordered : Vocabulary where
  name _ := true
  code _ := true
  text _ := true
  part := ClassPart.isOrdered

/-- A range that is not in order is noted. -/
theorem Vocabulary.covers_ordered : ordered.Covers where
  name := .of_all fun _ => rfl
  code := .of_all fun _ => rfl
  text := .of_all fun _ => rfl
  part := by
    rw [Notation.classPart_eq]
    have hrange : ∀ begun ends,
        (Notation.rangePart begun ends).Unnoted (ClassPart.isOrdered · = true) := by
      refine fun begun ends => ⟨fun {s o t} hp hnone => ?_, fun {s part t} hp hnone => ?_⟩
      · obtain ⟨t', ht, -, hnoted⟩ := Notation.rangePart_spec begun ends s
        obtain ⟨-, rfl⟩ := Prod.mk.inj (ht.symm.trans hp)
        exact (Bool.or_eq_false_iff.mp (hnoted.symm.trans hnone)).1
      · obtain ⟨t', ht, -, hnoted⟩ := Notation.rangePart_spec begun ends s
        obtain ⟨hpart, rfl⟩ := Prod.mk.inj (ht.symm.trans hp)
        have hlt := (Bool.or_eq_false_iff.mp (hnoted.symm.trans hnone)).2
        exact Option.some.inj hpart ▸ decide_eq_true (Char.not_lt.mp (of_decide_eq_false hlt))
    refine Reader.unnoted_cursor.after fun begun => .orElse ?_ ?_
    · exact (Reader.unnoted_of_reads fun _ => Notation.reads_rangeEnds).after (hrange begun)
    · exact (Reader.unnoted_of_reads fun _ => Notation.reads_classCharacter).after
        fun _ => .pure rfl

end Packrat
