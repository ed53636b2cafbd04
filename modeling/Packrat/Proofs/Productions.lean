import Packrat.Proofs.Conformance
import Packrat.Proofs.Spelling

/-!
# Productions in front of written text

The readers of the productions in front of text that was written for them. Each level of an
expression takes what the one below it has taken and adds the tokens of its own; where it has none
to add, the text behind has to be such that nothing of the level seems to begin there. Two kinds of
text cover that: behind an operand neither a label nor a definition begins (`EndsOperand`), and
behind a whole expression there is the end of the text, a parenthesis or a semicolon (`EndsExpr`).

What is read is described by a predicate that each level hands on to the next one, so nothing here
depends on how an expression came to be written.

## Main results

* `accepts_suffixed` to `accepts_choice_several`: one rule for each form at each level
* `accepts_rule_of`, `accepts_grammar_of`: rules and grammars, put together from their parts
* `Grammar.exists_parse`: a text that the reader of grammars accepts is parsed
-/

namespace Packrat

namespace Notation

open Reader

variable {α : Type} {inner : Reader Expr} {cs ds rest : List Char} {V W : Expr → Prop}

/-! ### What gives way -/

theorem rejects_primary (h : ∀ c ∈ cs.head?, ¬ IsOperandHead c) : (primary inner).Rejects cs := by
  have hname : ∀ c ∈ cs.head?, isIdentifierHead c = false := fun c hc =>
    Bool.eq_false_iff.mpr fun hhead => h c hc (.inl hhead)
  have hmark : ∀ c ∈ cs.head?, c ∉ ['"', '\'', '[', '.', '('] := fun c hc hmem =>
    h c hc (.inr hmem)
  have hquote : ∀ c ∈ cs.head?, c ≠ '"' ∧ c ≠ '\'' := fun c hc =>
    ⟨ne_of_head_notMem hmark (by decide) c hc, ne_of_head_notMem hmark (by decide) c hc⟩
  refine .still fun begun => .or ?_ (.or ?_ (.or ?_ (.or ?_ ?_)))
  · exact Fails.attempt (.still fun _ => (rejects_identifier hname).bind.fails)
  · exact (rejects_literal hquote).bind
  · exact (rejects_charClass (ne_of_head_notMem hmark (by decide))).bind
  · exact (rejects_token (c := '.') rfl (ne_of_head_notMem hmark (by decide))).bind
  · exact (rejects_token (c := '(') rfl (ne_of_head_notMem hmark (by decide))).bind.fails.attempt

theorem rejects_suffixed (h : ∀ c ∈ cs.head?, ¬ IsOperandHead c) : (suffixed inner).Rejects cs :=
  .still fun _ => (rejects_primary h).bind

theorem rejects_suffixOperator (h : ∀ c ∈ cs.head?, c ∉ ['?', '*', '+']) :
    suffixOperator.Rejects cs := by
  refine .or ?_ (.or ?_ ?_)
  · exact (rejects_token (c := '?') rfl (ne_of_head_notMem h (by decide))).bind
  · exact (rejects_token (c := '*') rfl (ne_of_head_notMem h (by decide))).bind
  · exact (rejects_token (c := '+') rfl (ne_of_head_notMem h (by decide))).bind

theorem rejects_predicateOf {operator : String} {c : Char} {negated : Bool}
    (hoperator : operator.toList = [c]) (h : ∀ d ∈ cs.head?, d ≠ c) :
    (predicateOf inner operator negated).Rejects cs :=
  .still fun _ => ((rejects_token hoperator h).bind.fails.attempt.bind).or
    (rejects_token hoperator h).bind.fails.attempt.bind

theorem rejects_prefixed (h : ∀ c ∈ cs.head?, ¬ IsHead c) : (prefixed inner).Rejects cs := by
  have hmark : ∀ c ∈ cs.head?, c ∉ ['&', '!'] := fun c hc hmem => h c hc (.inr hmem)
  refine .or ?_ (.or ?_ (rejects_suffixed fun c hc hhead => h c hc (.inl hhead)))
  · exact rejects_predicateOf (c := '&') rfl (ne_of_head_notMem hmark (by decide))
  · exact rejects_predicateOf (c := '!') rfl (ne_of_head_notMem hmark (by decide))

theorem rejects_labeled (h : ∀ c ∈ cs.head?, ¬ IsHead c) : (labeled inner).Rejects cs := by
  refine .or (Fails.attempt (.still fun _ => Rejects.fails (Rejects.bind ?_))) (rejects_prefixed h)
  exact rejects_identifier fun c hc => Bool.eq_false_iff.mpr fun hhead => h c hc (.inl (.inl hhead))

/-! ### What may come behind -/

/-- Behind an operand: a token that neither makes a label of a name nor the name of a rule. -/
structure EndsOperand (cs : List Char) : Prop where
  atToken : AtToken cs
  unlabeled (c : Char) : c ∈ cs.head? → c ∉ [':', '=']
  undefined : (do
    let _ ← option string
    token "=").Fails cs

/-- Behind an expression: the end, or a token that closes it. -/
def EndsExpr (cs : List Char) : Prop := ∀ c ∈ cs.head?, c ∈ [')', ';']

theorem endsOperand_of_atToken (h : AtToken cs)
    (hhead : ∀ c ∈ cs.head?, c ∉ [':', '=', '"', '\'']) : EndsOperand cs where
  atToken := h
  unlabeled c hc hmem := hhead c hc (List.mem_append_left ['"', '\''] hmem)
  undefined := by
    have hstring : string.Rejects cs := rejects_string fun c hc =>
      ⟨ne_of_head_notMem hhead (by decide) c hc, ne_of_head_notMem hhead (by decide) c hc⟩
    exact hstring.option.fails fun _ _ =>
      (rejects_token (c := '=') rfl (ne_of_head_notMem hhead (by decide))).fails

theorem endsOperand_cons {c : Char} (hspace : isSpace c = false ∧ isLineEnd c = false)
    (hc : c ∉ ['/', ':', '=', '"', '\'']) : EndsOperand (c :: cs) := by
  refine endsOperand_of_atToken (atToken_cons hspace.1 hspace.2 ?_) (forall_head ?_)
  · exact fun h => hc (h ▸ List.mem_cons_self)
  · exact fun h => hc (List.mem_cons_of_mem _ h)

theorem endsOperand_slash : EndsOperand ('/' :: ' ' :: cs) :=
  endsOperand_of_atToken atToken_slash (forall_head (by decide))

theorem endsOperand_name {name : String} (h : isIdentifier name = true) :
    EndsOperand (spaced name.toList ++ cs) := by
  obtain ⟨c, _, hname, hc, -⟩ := exists_of_isIdentifier h
  obtain ⟨hmark, hspace⟩ := notMem_marks_of_isIdentifierTail (isIdentifierTail_of_head hc)
  rw [spaced, hname]
  refine endsOperand_cons hspace fun hmem => hmark ?_
  have hsubset : ['/', ':', '=', '"', '\''] ⊆ marks := by decide
  exact hsubset hmem

/-- A literal is no display name in front of what ends an operand. -/
theorem endsOperand_literal {value : String} {ignoreCase : Bool}
    (h : value.toList.all isBasic = true) (hrest : EndsOperand rest) :
    EndsOperand (spaced (quotedUnits value ++ caseFlag ignoreCase) ++ rest) where
  atToken := atToken_cons rfl rfl (by decide)
  unlabeled := forall_head (by decide)
  undefined := by
    have hequals : ∀ c ∈ rest.head?, c ≠ '=' := ne_of_head_notMem hrest.unlabeled (by decide)
    rw [spaced, List.append_assoc, List.append_assoc]
    cases ignoreCase with
    | false =>
      have hstring := accepts_string h (accepts_blank hrest.atToken)
      rw [caseFlag, if_neg Bool.false_ne_true, List.nil_append, ← List.append_assoc]
      exact hstring.option.fails fun _ _ => (rejects_token (c := '=') rfl hequals).fails
    | true =>
      have hgap : skip.Accepts [] ('i' :: ' ' :: rest) anything :=
        accepts_skip rfl (atToken_cons rfl rfl (by decide))
      have hstring := accepts_string h hgap
      rw [List.append_nil] at hstring
      exact hstring.option.fails fun _ _ =>
        (rejects_token (c := '=') rfl (forall_head (by decide))).fails

theorem EndsExpr.endsOperand (h : EndsExpr cs) : EndsOperand cs := by
  cases cs with
  | nil => exact endsOperand_of_atToken atToken_nil nofun
  | cons c cs =>
    have hboth : ∀ c ∈ [')', ';'], (isSpace c = false ∧ isLineEnd c = false) ∧
        c ∉ ['/', ':', '=', '"', '\''] := by decide
    obtain ⟨hspace, hc⟩ := hboth c (h c rfl)
    exact endsOperand_cons hspace hc

/-! ### Operands -/

/-- An expression is made of what was read, with any span. -/
theorem accepts_spanned {begun : Cursor} {build : Info → Expr}
    (h : ∀ span, V (build ⟨span, none, none⟩)) : (spanned begun build).Accepts [] rest V :=
  (accepts_spanSince begun).map fun span _ => h span

theorem accepts_reference {name : String} (hname : isIdentifier name = true)
    (hrest : EndsOperand rest) (hV : ∀ span, V (.ruleRef ⟨span, none, none⟩ name)) :
    (primary inner).Accepts (spaced name.toList) rest V := by
  refine .still fun begun => .orElse (.attempt (.still fun begun => ?_))
  refine (accepts_identifier hname hrest.atToken).finish ?_
  rintro _ rfl
  refine hrest.undefined.peek.finish ?_
  rintro _ rfl
  exact .pure (hV _)

/-- What begins with a mark is no reference. -/
theorem rejects_reference {c : Char} (hc : isIdentifierHead c = false) :
    ruleReference.Rejects (c :: cs) :=
  Fails.attempt (.still fun _ => (rejects_identifier (forall_head hc)).bind.fails)

theorem accepts_primary_literal {value : String} {ignoreCase : Bool}
    (h : literal.Accepts ('"' :: cs) rest (· = (value, ignoreCase)))
    (hV : ∀ span, V (.literal ⟨span, none, none⟩ value ignoreCase)) :
    (primary inner).Accepts ('"' :: cs) rest V := by
  refine .still fun begun => (rejects_reference rfl).orElse (.orElse (h.finish ?_))
  rintro _ rfl
  exact accepts_spanned hV

theorem accepts_primary_class {members : CharClass}
    (h : charClass.Accepts ('[' :: cs) rest (· = members))
    (hV : ∀ span, V (.charClass ⟨span, none, none⟩ members (rawClass members))) :
    (primary inner).Accepts ('[' :: cs) rest V := by
  refine .still fun begun => (rejects_reference rfl).orElse
    ((rejects_literal (forall_head (by decide))).bind.orElse (.orElse (h.finish ?_)))
  rintro _ rfl
  exact accepts_spanned hV

theorem accepts_primary_any (hrest : AtToken rest) (hV : ∀ span, V (.any ⟨span, none, none⟩)) :
    (primary inner).Accepts (spaced ['.']) rest V := by
  refine .still fun begun => (rejects_reference rfl).orElse
    ((rejects_literal (forall_head (by decide))).bind.orElse
      ((rejects_charClass (forall_head (by decide))).bind.orElse (.orElse ?_)))
  exact (accepts_token rfl hrest).finish fun _ _ => accepts_spanned hV

theorem accepts_enclosed (h : inner.Accepts cs (spaced [')'] ++ rest) V)
    (hcs : AtToken (cs ++ (spaced [')'] ++ rest))) (hrest : AtToken rest) :
    (primary inner).Accepts (Expr.enclosed cs) rest V := by
  refine .still fun begun => (rejects_reference rfl).orElse
    ((rejects_literal (forall_head (by decide))).bind.orElse
      ((rejects_charClass (forall_head (by decide))).bind.orElse
        ((rejects_token rfl (forall_head (by decide))).bind.orElse (.attempt ?_))))
  rw [← List.append_assoc] at hcs
  refine (accepts_token rfl hcs).bind fun _ _ => h.bind fun e he => ?_
  exact (accepts_token rfl hrest).map fun _ _ => he

/-! ### Operators and labels -/

theorem accepts_suffixed (h : (primary inner).Accepts cs rest V)
    (hrest : ∀ c ∈ rest.head?, c ∉ ['?', '*', '+']) : (suffixed inner).Accepts cs rest V := by
  refine .still fun begun => h.finish fun e he => ?_
  refine (rejects_suffixOperator hrest).option.finish ?_
  rintro _ rfl
  exact .pure he

/-- An operand with its suffix operator. -/
theorem accepts_operator {mark : Char} {build : Expr → Info → Expr}
    (h : (primary inner).Accepts cs (spaced [mark] ++ rest) V)
    (hmark : suffixOperator.Accepts (spaced [mark]) rest (· = build))
    (hW : ∀ e span, V e → W (build e ⟨span, none, none⟩)) :
    (suffixed inner).Accepts (cs ++ spaced [mark]) rest W := by
  refine .still fun begun => h.bind fun e he => hmark.option.finish ?_
  rintro _ ⟨_, rfl, rfl⟩
  exact accepts_spanned fun span => hW e span he

theorem accepts_suffixOperator (h : AtToken rest) :
    suffixOperator.Accepts (spaced ['?']) rest (· = fun e i => .optional i e) ∧
      ∀ nonempty, suffixOperator.Accepts (spaced [Expr.repetitionMark nonempty]) rest
        (· = fun e i => .repeated i nonempty e) := by
  have hother : ∀ {value : String} {c d : Char} {build : Expr → Info → Expr} {more : List Char},
      value.toList = [c] → d ≠ c → (do token value; return build).Rejects (d :: more) :=
    fun hvalue hne => (rejects_token hvalue (forall_head hne)).bind
  refine ⟨.orElse ((accepts_token rfl h).map fun _ _ => rfl), fun nonempty => ?_⟩
  cases nonempty with
  | false =>
    exact (hother rfl (by decide)).orElse (.orElse ((accepts_token rfl h).map fun _ _ => rfl))
  | true =>
    exact (hother rfl (by decide)).orElse ((hother rfl (by decide)).orElse
      ((accepts_token rfl h).map fun _ _ => rfl))

theorem accepts_prefixed (h : (suffixed inner).Accepts cs rest V)
    (hcs : ∀ c ∈ (cs ++ rest).head?, c ∉ ['&', '!']) : (prefixed inner).Accepts cs rest V := by
  exact (rejects_predicateOf rfl (ne_of_head_notMem hcs (by decide))).orElse
    ((rejects_predicateOf rfl (ne_of_head_notMem hcs (by decide))).orElse h)

/-- What the prefix operators read, either of them. -/
theorem accepts_predicateOf {negated : Bool}
    (h : ∀ operator : String, operator.toList = [Expr.prefixMark negated] →
      (predicateOf inner operator negated).Accepts (spaced [Expr.prefixMark negated] ++ cs) rest
        V) :
    (prefixed inner).Accepts (spaced [Expr.prefixMark negated] ++ cs) rest V := by
  cases negated with
  | false => exact (h "&" rfl).orElse
  | true =>
    exact (rejects_predicateOf rfl (forall_head (by decide))).orElse (h "!" rfl).orElse

theorem accepts_predicate {negated : Bool} {code : String} (hcode : isBalanced code = true)
    (hrest : AtToken rest) (hV : ∀ span, V (.predicate ⟨span, none, none⟩ negated code [])) :
    (prefixed inner).Accepts (spaced [Expr.prefixMark negated] ++ spaced (block code)) rest V := by
  refine accepts_predicateOf fun operator hoperator => .still fun begun => .orElse ?_
  have hread : (do token operator; action).Accepts
      (spaced [Expr.prefixMark negated] ++ spaced (block code)) rest (· = code) :=
    (accepts_token hoperator (atToken_cons rfl rfl (by decide))).bind fun _ _ =>
      accepts_action hcode (accepts_blank hrest)
  refine hread.attempt.finish ?_
  rintro _ rfl
  exact accepts_spanned hV

theorem accepts_lookahead {negated : Bool} (h : (suffixed inner).Accepts cs rest V)
    (htoken : AtToken (cs ++ rest)) (hcs : ∀ c ∈ (cs ++ rest).head?, c ≠ '{')
    (hW : ∀ e span, V e → W (.lookahead ⟨span, none, none⟩ negated e)) :
    (prefixed inner).Accepts (spaced [Expr.prefixMark negated] ++ cs) rest W := by
  refine accepts_predicateOf fun operator hoperator => .still fun begun => Rejects.orElse ?_ ?_
  · have hcode : (do token operator; action).Fails
        (spaced [Expr.prefixMark negated] ++ (cs ++ rest)) :=
      (accepts_token hoperator htoken).fails fun _ _ => (rejects_action hcs).fails
    rw [List.append_assoc]
    exact hcode.attempt.bind
  · refine Accepts.finish (V := V) (.attempt ?_) fun e he =>
      accepts_spanned fun span => hW e span he
    exact (accepts_token hoperator htoken).bind fun _ _ => h

/-- No label is ahead: what is ahead is no name, or a name without a colon behind it. -/
def Unlabeled (cs : List Char) : Prop :=
  (∀ c ∈ cs.head?, isIdentifierHead c = false) ∨
    ∃ name more, isIdentifier name = true ∧ cs = spaced name.toList ++ more ∧ AtToken more ∧
      ∀ c ∈ more.head?, c ≠ ':'

theorem Unlabeled.fails {q : String → Reader α} (h : Unlabeled cs) :
    (identifier >>= fun label => token ":" >>= fun _ => q label).Fails cs := by
  obtain hhead | ⟨name, more, hname, rfl, htoken, hcolon⟩ := h
  · exact (rejects_identifier hhead).fails.bind
  · exact (accepts_identifier hname htoken).fails fun _ _ => (rejects_token rfl hcolon).fails.bind

theorem accepts_unlabeled (h : (prefixed inner).Accepts cs rest V) (hcs : Unlabeled (cs ++ rest)) :
    (labeled inner).Accepts cs rest V :=
  Rejects.orElse (Fails.attempt (.still fun _ => hcs.fails)) h

theorem accepts_labeled {label : String} (hlabel : isIdentifier label = true)
    (h : (prefixed inner).Accepts cs rest V) (htoken : AtToken (cs ++ rest))
    (hW : ∀ e span, V e → W (.labeled ⟨span, none, none⟩ label e)) :
    (labeled inner).Accepts (spaced label.toList ++ (spaced [':'] ++ cs)) rest W := by
  refine .orElse (.attempt (.still fun begun => ?_))
  refine (accepts_identifier hlabel (atToken_cons rfl rfl (by decide))).bind ?_
  rintro _ rfl
  refine (accepts_token rfl htoken).bind fun _ _ => h.finish fun e he => ?_
  exact accepts_spanned fun span => hW e span he

/-! ### Sequences and alternatives -/

/-- The code block of a sequence, if there is one. -/
def closing (begun : Cursor) (e : Expr) : Reader Expr := do
  match ← option action with
  | some code => spanned begun (.action · code [] e)
  | none => return e

theorem accepts_unclosed (hrest : ∀ c ∈ rest.head?, c ≠ '{') {begun : Cursor} {e : Expr}
    (he : V e) : (closing begun e).Accepts [] rest V := by
  refine (rejects_action hrest).option.finish ?_
  rintro _ rfl
  exact .pure he

theorem accepts_closing {code : String} (hcode : isBalanced code = true) (hrest : AtToken rest)
    {begun : Cursor} {e : Expr} (hV : ∀ span, V (.action ⟨span, none, none⟩ code [] e)) :
    (closing begun e).Accepts (spaced (block code)) rest V := by
  refine (accepts_action hcode (accepts_blank hrest)).option.finish ?_
  rintro _ ⟨_, rfl, rfl⟩
  exact accepts_spanned hV

/-- A single element stands for itself. -/
theorem accepts_sequence_one (h : (labeled inner).Accepts cs (ds ++ rest) V) (hcs : cs ≠ [])
    (hend : ∀ c ∈ (ds ++ rest).head?, ¬ IsHead c)
    (hclosing : ∀ begun e, V e → (closing begun e).Accepts ds rest W) :
    (sequence inner).Accepts (cs ++ ds) rest W := by
  refine .still fun begun => (Repeats.one h hcs (rejects_labeled hend)).many.bind ?_
  rintro _ ⟨e, rfl, he⟩
  exact hclosing begun e he

theorem accepts_sequence_several {P : List Expr → Prop} (h : Repeats (labeled inner) cs rest P)
    (hP : ∀ es, P es → es.length ≠ 1 ∧ ∀ span, V (.sequence ⟨span, none, none⟩ es))
    (hrest : ∀ c ∈ rest.head?, c ≠ '{') : (sequence inner).Accepts cs rest V := by
  refine .still fun begun => h.many.finish fun es hes => ?_
  obtain ⟨hlength, hV⟩ := hP es hes
  have hsequence : (spanned begun (.sequence · es) >>= closing begun).Accepts [] rest V :=
    (accepts_spanned hV).finish fun e he => accepts_unclosed hrest he
  split
  · exact absurd rfl hlength
  · exact hsequence

theorem accepts_choice_one (h : (sequence inner).Accepts cs rest V)
    (hrest : ∀ c ∈ rest.head?, c ≠ '/') : (choiceWith inner).Accepts cs rest V := by
  have hend : (attempt do token "/"; sequence inner).Rejects rest :=
    (rejects_token rfl hrest).bind.fails.attempt
  refine .still fun begun => h.finish fun e he => (Repeats.nil hend rfl).many.finish ?_
  rintro _ rfl
  exact .pure he

theorem accepts_choice_several {P : List Expr → Prop}
    (hfirst : (sequence inner).Accepts cs (ds ++ rest) V)
    (hmore : Repeats (attempt do token "/"; sequence inner) ds rest P)
    (hP : ∀ e es, V e → P es → es ≠ [] ∧ ∀ span, W (.choice ⟨span, none, none⟩ (e :: es))) :
    (choiceWith inner).Accepts (cs ++ ds) rest W := by
  refine .still fun begun => hfirst.bind fun e he => hmore.many.finish fun es hes => ?_
  obtain ⟨hne, hW⟩ := hP e es he hes
  cases es with
  | nil => exact absurd rfl hne
  | cons e' es => exact accepts_spanned hW

/-- Behind an expression nothing goes on at any level. -/
theorem accepts_choice_labeled (h : (labeled inner).Accepts cs rest V) (hcs : cs ≠ [])
    (hrest : EndsExpr rest) : (choiceWith inner).Accepts cs rest V := by
  have hhead : ∀ c ∈ [')', ';'], ¬ IsHead c := by decide
  refine accepts_choice_one ?_ (ne_of_head_mem hrest (by decide))
  rw [← List.append_nil cs]
  exact accepts_sequence_one h hcs (fun c hc => hhead c (hrest c hc))
    fun begun e he => accepts_unclosed (ne_of_head_mem hrest (by decide)) he

/-- An operand that begins with a mark and goes on to the end of the text. -/
theorem accepts_choice_primary {c : Char} (h : ∀ inner, (primary inner).Accepts (c :: cs) [] V)
    (hname : isIdentifierHead c = false) (hmark : c ∉ ['&', '!']) :
    choice.Accepts (c :: cs) [] V := by
  refine .of_bound fun depth hdepth => ?_
  obtain ⟨depth, rfl⟩ := Nat.exists_eq_succ_of_ne_zero (Nat.ne_zero_of_lt hdepth)
  exact accepts_choice_labeled (accepts_unlabeled (accepts_prefixed (accepts_suffixed (h _) nofun)
    (forall_head hmark)) (.inl (forall_head hname))) (List.cons_ne_nil _ _) nofun

/-! ### Rules and grammars -/

theorem accepts_displayed {display : Option String}
    (h : ∀ name ∈ display, name.toList.all isBasic = true) :
    (option string).Accepts (displayed display) ('=' :: rest) (· = display) := by
  cases display with
  | none => exact (rejects_string (forall_head (by decide))).option
  | some name =>
    have hequals : AtToken ('=' :: rest) := atToken_cons rfl rfl (by decide)
    refine (accepts_string (h name rfl) (accepts_blank hequals)).option.mono ?_
    rintro _ ⟨_, rfl, rfl⟩
    rfl

/-- The body of a rule with its display name, if there is one. -/
def withDisplayName (display : Option String) (e : Expr) : Expr :=
  match display with
  | some name => .named ⟨e.span, none, none⟩ name e
  | none => e

/-- A rule is put together from its name, its display name, its body and what closes it. -/
theorem accepts_rule_of (display : Option String) {name : String} {P : Rule → Prop}
    (hname : isIdentifier name = true) (hdisplay : ∀ d ∈ display, d.toList.all isBasic = true)
    (htoken : AtToken (cs ++ ds ++ rest)) (hbody : choice.Accepts cs (ds ++ rest) V)
    (hend : (option (token ";")).Accepts ds rest anything)
    (hP : ∀ e span, V e → P ⟨span, name, withDisplayName display e, 0⟩) :
    rule.Accepts (spaced name.toList ++ (displayed display ++ (spaced ['='] ++ (cs ++ ds)))) rest
      P := by
  refine .attempt (.still fun begun => (accepts_identifier hname ?_).bind ?_)
  · cases display with
    | none => exact atToken_cons rfl rfl (by decide)
    | some d => exact atToken_cons rfl rfl (by decide)
  rintro _ rfl
  refine (accepts_displayed hdisplay).bind ?_
  rintro _ rfl
  refine (accepts_token rfl htoken).bind fun _ _ => hbody.bind fun e he => hend.finish fun _ _ => ?_
  exact (accepts_spanSince begun).finish fun span _ => .pure (hP e span he)

/-- A grammar is put together from its front and its rules. -/
theorem accepts_grammar_of {Q : Option Initializer → Prop} {P : List Rule → Prop}
    {R : Grammar → Prop} (htoken : AtToken (cs ++ ds ++ rest))
    (hfront : (option initializer).Accepts cs (ds ++ rest) Q) (hrules : Repeats rule ds rest P)
    (hR : ∀ front rules, Q front → P rules →
      ∃ first more, rules = first :: more ∧ R ⟨front, rules, first.name⟩) :
    grammar.Accepts (cs ++ ds) rest R := by
  refine .attempt ((accepts_skip rfl htoken).lead fun _ _ => hfront.bind fun front hQ => ?_)
  refine hrules.many.finish fun rules hP => ?_
  obtain ⟨first, more, rfl, hgrammar⟩ := hR front rules hQ hP
  exact .pure hgrammar

theorem rejects_rule : rule.Rejects [] := by
  have hhead : ∀ c ∈ ([] : List Char).head?, isIdentifierHead c = false := nofun
  exact Fails.attempt (.still fun _ => (rejects_identifier hhead).bind.fails)

/-- In front of a name there is no initializer. -/
theorem rejects_initializer (h : ∀ c ∈ cs.head?, isIdentifierHead c = true) :
    initializer.Rejects cs := by
  refine .still fun begun => (rejects_action fun c hc hbrace => ?_).bind
  nomatch (hbrace ▸ h c hc : isIdentifierHead '{' = true)

/-- The text of a rule `a`. -/
def ruleText (body : List Char) : List Char := spaced "a".toList ++ (spaced ['='] ++ body)

/-- A rule that goes on to the end of the text makes a grammar. -/
theorem accepts_grammar_single (h : choice.Accepts cs [] V) (hcs : AtToken cs) :
    grammar.Accepts (ruleText cs) [] fun g => ∃ r, g.rules = [r] ∧ V r.body := by
  have hend : ∀ c ∈ ([] : List Char).head?, c ≠ ';' := nofun
  have hclosed : (option (token ";")).Accepts [] [] anything :=
    (rejects_token rfl hend).option.mono fun _ _ => trivial
  have hrule : rule.Accepts (ruleText (cs ++ [])) [] fun r => V r.body := by
    refine accepts_rule_of none rfl nofun ?_ h hclosed fun e span he => he
    rwa [List.append_nil, List.append_nil]
  rw [List.append_nil] at hrule
  have hfront : (option initializer).Accepts [] (ruleText cs ++ []) (· = none) :=
    (rejects_initializer (forall_head rfl)).option
  have hgrammar :
      grammar.Accepts ([] ++ ruleText cs) [] fun g => ∃ r, g.rules = [r] ∧ V r.body := by
    refine accepts_grammar_of (atToken_cons rfl rfl (by decide)) hfront
      (.one hrule (List.cons_ne_nil _ _) rejects_rule) ?_
    rintro _ _ - ⟨r, rfl, hr⟩
    exact ⟨r, [], rfl, r, rfl, hr⟩
  exact hgrammar

end Notation

/-- What is accepted to its end is parsed. -/
theorem Grammar.exists_parse {text : String} {P : Grammar → Prop}
    (h : Notation.grammar.Accepts text.toList [] P) : ∃ g, Grammar.parse text = .ok g ∧ P g := by
  obtain ⟨g, s, hrun, hg, hfar⟩ := h ⟨State.start false false text.toList, none⟩
    (List.append_nil _).symm
  refine ⟨g, Reader.run_eq_ok_iff.mpr ⟨s, hrun, ?_, ?_⟩, hg⟩
  · rw [ReaderState.noted, hfar.inverted]
    rfl
  · exact hfar.ahead (List.append_nil _).symm

end Packrat
