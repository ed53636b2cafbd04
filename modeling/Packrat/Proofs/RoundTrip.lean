import Packrat.Proofs.Productions

/-!
# Grammars that were written

A grammar in normal form is read back from the text that is written for it.

An expression is read at the level of `choice`, but its text is that of an operand with a few tokens
around it. So operands are read first (`accepts_operand`): an atom as it is, anything else from its
parentheses, where the hypothesis of the induction applies with a smaller bound on the depth. From
there each form has one lemma, which adds the tokens of the form at its own level.

## Main results

* `accepts_choiceWithin`: an expression in normal form is read back from its text
* `Grammar.parse_render`: so is a grammar
-/

namespace Packrat

/-! ### The same up to spans -/

/-- The expressions differ in nothing but spans. -/
def Expr.Alike (e e' : Expr) : Prop := e'.withoutSpans = e.withoutSpans

/-- The rules differ in nothing but spans. -/
def Rule.Alike (r r' : Rule) : Prop := r'.withoutSpans = r.withoutSpans

/-- The grammars differ in nothing but spans and the start, which is the first rule in the second.
-/
def Grammar.Alike (g g' : Grammar) : Prop :=
  g'.withoutSpans = { g.withoutSpans with start := g'.start } ∧ g.ruleNames.head? = some g'.start

theorem Info.withoutSpan_of_isUnassigned {i : Info} (h : i.isUnassigned = true) (span : Span) :
    Info.withoutSpan ⟨span, none, none⟩ = i.withoutSpan := by
  obtain ⟨_, _ | _, _ | _⟩ := i
  · rfl
  all_goals nomatch h

theorem Expr.allWithoutSpans_eq {items items' : List Expr}
    (h : List.Forall₂ Expr.Alike items items') :
    allWithoutSpans items' = allWithoutSpans items := by
  induction h with
  | nil => rfl
  | cons he _ ih => rw [allWithoutSpans, allWithoutSpans, he, ih]

theorem map_withoutSpans_eq {rules rules' : List Rule} (h : List.Forall₂ Rule.Alike rules rules') :
    rules'.map Rule.withoutSpans = rules.map Rule.withoutSpans := by
  induction h with
  | nil => rfl
  | cons hr _ ih => rw [List.map_cons, List.map_cons, hr, ih]

namespace Notation

open Reader

variable {α : Type} {inner : Reader Expr} {cs ds rest : List Char} {V W : Expr → Prop}
/-! ### Operands -/

theorem isUnassigned_of_isNormal {v : Vocabulary} {e : Expr} (h : e.isNormal v = true) :
    e.info.isUnassigned = true := by
  cases e with
  | named => nomatch h
  | any => exact h
  | _ =>
    simp only [Expr.isNormal, Bool.and_eq_true] at h
    tauto

/-- An operand begins with a name, a literal or a token that begins nothing else. -/
theorem operand_cases {e : Expr} (h : e.isNormal .basic = true) :
    (∃ name, isIdentifier name = true ∧ e.operand = spaced name.toList) ∨
      (∃ value ignoreCase, value.toList.all isBasic = true ∧
        e.operand = spaced (quotedUnits value ++ caseFlag ignoreCase)) ∨
      ∃ c cs, c ∈ ['[', '.', '('] ∧ e.operand = c :: cs := by
  cases e with
  | ruleRef i name => exact .inl ⟨name, (Bool.and_eq_true_iff.mp h).2, rfl⟩
  | literal i value ignoreCase =>
    exact .inr (.inl ⟨value, ignoreCase, (Bool.and_eq_true_iff.mp h).2, rfl⟩)
  | charClass => exact .inr (.inr ⟨'[', _, by decide, rfl⟩)
  | any => exact .inr (.inr ⟨'.', _, by decide, rfl⟩)
  | _ => exact .inr (.inr ⟨'(', _, by decide, rfl⟩)

section

variable {e : Expr} (h : e.isNormal .basic = true)

include h

theorem endsOperand_operand (hrest : EndsOperand rest) : EndsOperand (e.operand ++ rest) := by
  obtain ⟨name, hname, hoperand⟩ | ⟨value, ignoreCase, hvalue, hoperand⟩ | ⟨c, cs, hc, hoperand⟩ :=
    operand_cases h
  · exact hoperand ▸ endsOperand_name hname
  · exact hoperand ▸ endsOperand_literal hvalue hrest
  · rw [hoperand]
    obtain rfl | rfl | rfl : c = '[' ∨ c = '.' ∨ c = '(' := by simpa using hc
    all_goals exact endsOperand_cons (by decide) (by decide)

theorem unlabeled_operand (hrest : EndsOperand rest) : Unlabeled (e.operand ++ rest) := by
  obtain ⟨name, hname, hoperand⟩ | ⟨value, ignoreCase, hvalue, hoperand⟩ | ⟨c, cs, hc, hoperand⟩ :=
    operand_cases h
  · exact .inr ⟨name, rest, hname, hoperand ▸ rfl, hrest.atToken,
      ne_of_head_notMem hrest.unlabeled (by decide)⟩
  · exact .inl (hoperand ▸ forall_head rfl)
  · rw [hoperand]
    obtain rfl | rfl | rfl : c = '[' ∨ c = '.' ∨ c = '(' := by simpa using hc
    all_goals exact .inl (forall_head rfl)

theorem head_operand : ∃ c cs, e.operand = c :: cs ∧ IsOperandHead c := by
  obtain ⟨name, hname, hoperand⟩ | ⟨value, ignoreCase, hvalue, hoperand⟩ | ⟨c, cs, hc, hoperand⟩ :=
    operand_cases h
  · obtain ⟨c, cs, hcs, hc, -⟩ := exists_of_isIdentifier hname
    refine ⟨c, cs ++ [' '], ?_, .inl hc⟩
    rw [hoperand, hcs]
    rfl
  · exact ⟨'"', _, hoperand, .inr (by decide)⟩
  · have hsubset : ['[', '.', '('] ⊆ ['"', '\'', '[', '.', '('] := by decide
    exact ⟨c, cs, hoperand, .inr (hsubset hc)⟩

omit h in
theorem notMem_of_isOperandHead {c : Char} (hc : IsOperandHead c) :
    c ∉ ['&', '!', '{', '?', '*', '+'] := by
  rcases hc with hc | hc
  · intro hmem
    have hmark := (notMem_marks_of_isIdentifierTail (isIdentifierTail_of_head hc)).1
    have hsubset : ['&', '!', '{', '?', '*', '+'] ⊆ marks := by decide
    exact hmark (hsubset hmem)
  · have hdisjoint : ∀ c ∈ ['"', '\'', '[', '.', '('], c ∉ ['&', '!', '{', '?', '*', '+'] := by
      decide
    exact hdisjoint c hc

/-- What an operand does not begin with. -/
theorem notMem_head_operand :
    ∀ c ∈ (e.operand ++ rest).head?, c ∉ ['&', '!', '{', '?', '*', '+'] := by
  obtain ⟨c, cs, hoperand, hc⟩ := head_operand h
  rw [hoperand]
  exact forall_head (notMem_of_isOperandHead hc)

theorem operand_ne_nil : e.operand ≠ [] := by
  obtain ⟨c, cs, hoperand, -⟩ := head_operand h
  exact hoperand ▸ List.cons_ne_nil c cs

end

/-- An atom is read back as it is. -/
theorem accepts_atom {e : Expr} (h : e.isNormal .basic = true) (hatom : e.isAtom = true)
    (hrest : EndsOperand rest) : (primary inner).Accepts e.render rest e.Alike := by
  have hinfo := Info.withoutSpan_of_isUnassigned (isUnassigned_of_isNormal h)
  cases e with
  | ruleRef i name =>
    exact accepts_reference (Bool.and_eq_true_iff.mp h).2 hrest fun span =>
      congrArg (Expr.ruleRef · _) (hinfo span)
  | literal i value ignoreCase =>
    exact accepts_primary_literal
      (accepts_literal (Bool.and_eq_true_iff.mp h).2 hrest.atToken) fun span =>
        congrArg (Expr.literal · _ _) (hinfo span)
  | charClass i members raw =>
    obtain ⟨hparts, hraw⟩ := Bool.and_eq_true_iff.mp h
    obtain rfl := beq_iff_eq.mp hraw
    exact accepts_primary_class
      (accepts_unitClass (Bool.and_eq_true_iff.mp hparts).2 hrest.atToken) fun span =>
        congrArg (Expr.charClass · _ _) (hinfo span)
  | any i =>
    exact accepts_primary_any hrest.atToken fun span => congrArg Expr.any (hinfo span)
  | _ => nomatch hatom

/-! ### Expressions -/

theorem endsOperand_operands {items : List Expr}
    (h : ∀ e ∈ items, e.isNormal .basic = true) (hrest : EndsOperand rest) :
    EndsOperand (items.flatMap Expr.operand ++ rest) := by
  induction items with
  | nil => exact hrest
  | cons e es ih =>
    rw [List.flatMap_cons, List.append_assoc]
    exact endsOperand_operand (h e List.mem_cons_self)
      (ih fun e he => h e (List.mem_cons_of_mem _ he))

/-- The text of an expression begins with a token, like what comes behind it. -/
theorem endsOperand_render {e : Expr} (h : e.isNormal .basic = true) (hrest : EndsOperand rest) :
    EndsOperand (e.render ++ rest) := by
  have hbody : ∀ {body : Expr} {more : List Char}, body.isNormal .basic = true →
      EndsOperand (more ++ rest) → EndsOperand (body.operand ++ more ++ rest) := by
    intro body more hnormal hmore
    rw [List.append_assoc]
    exact endsOperand_operand hnormal hmore
  cases e with
  | named => nomatch h
  | choice i items =>
    cases items with
    | nil => simp [Expr.isNormal] at h
    | cons e es =>
      have he := (Expr.areNormal_iff _).mp (Bool.and_eq_true_iff.mp h).2 e List.mem_cons_self
      rw [Expr.render_choice]
      refine hbody he ?_
      cases es with
      | nil => exact hrest
      | cons e' es => exact endsOperand_slash
  | sequence i items =>
    rw [Expr.render_sequence]
    exact endsOperand_operands ((Expr.areNormal_iff _).mp (Bool.and_eq_true_iff.mp h).2) hrest
  | action i code params body =>
    exact hbody (Bool.and_eq_true_iff.mp h).2 (endsOperand_cons (by decide) (by decide))
  | labeled i label body =>
    obtain ⟨hfront, -⟩ := Bool.and_eq_true_iff.mp h
    rw [Expr.render, List.append_assoc]
    exact endsOperand_name (Bool.and_eq_true_iff.mp hfront).2
  | lookahead i negated body =>
    cases negated with
    | false => exact endsOperand_cons (by decide) (by decide)
    | true => exact endsOperand_cons (by decide) (by decide)
  | predicate i negated code params =>
    cases negated with
    | false => exact endsOperand_cons (by decide) (by decide)
    | true => exact endsOperand_cons (by decide) (by decide)
  | optional i body =>
    exact hbody (Bool.and_eq_true_iff.mp h).2 (endsOperand_cons (by decide) (by decide))
  | repeated i nonempty body =>
    refine hbody (Bool.and_eq_true_iff.mp h).2 ?_
    cases nonempty with
    | false => exact endsOperand_cons (by decide) (by decide)
    | true => exact endsOperand_cons (by decide) (by decide)
  | ruleRef | literal | charClass | any => exact endsOperand_operand h hrest

/-- An expression is read back from its text, where parentheses may be nested `depth` times. -/
def ReadsBack (e : Expr) : Prop :=
  ∀ (depth : Nat) (rest : List Char), e.render.length < depth → EndsExpr rest →
    (choiceWithin depth).Accepts e.render rest e.Alike

/-- An operand in parentheses is shorter than the text around it. -/
theorem accepts_operand {e : Expr} (h : e.isNormal .basic = true) (hread : ReadsBack e)
    {depth : Nat} (hdepth : e.operand.length ≤ depth) (hrest : EndsOperand rest) :
    (primary (choiceWithin depth)).Accepts e.operand rest e.Alike := by
  have hclosed : EndsExpr (spaced [')'] ++ rest) := forall_head (by decide)
  by_cases hatom : e.isAtom = true
  · rw [Expr.operand, if_pos hatom]
    exact accepts_atom h hatom hrest
  · rw [Expr.operand, if_neg hatom] at hdepth ⊢
    have hlength : e.render.length < depth := by
      simp only [Expr.enclosed, spaced, List.length_append, List.length_cons] at hdepth
      omega
    exact accepts_enclosed (hread depth _ hlength hclosed)
      (endsOperand_render h hclosed.endsOperand).atToken hrest.atToken

/-- An operand as an element of a sequence. -/
theorem accepts_element {e : Expr} (h : e.isNormal .basic = true) (hread : ReadsBack e)
    {depth : Nat} (hdepth : e.operand.length ≤ depth) (hrest : EndsOperand rest)
    (hsuffix : ∀ c ∈ rest.head?, c ∉ ['?', '*', '+']) :
    (labeled (choiceWithin depth)).Accepts e.operand rest e.Alike := by
  refine accepts_unlabeled (accepts_prefixed (accepts_suffixed
    (accepts_operand h hread hdepth hrest) hsuffix) fun c hc hmem => ?_) (unlabeled_operand h hrest)
  exact notMem_head_operand h c hc (List.mem_append_left ['{', '?', '*', '+'] hmem)

/-- An operand with or without a suffix operator as a whole expression. -/
theorem accepts_choice_suffixed {e : Expr} (he : e.isNormal .basic = true)
    (h : (suffixed inner).Accepts (e.operand ++ cs) rest V) (hcs : EndsOperand (cs ++ rest))
    (hrest : EndsExpr rest) : (choiceWith inner).Accepts (e.operand ++ cs) rest V := by
  refine accepts_choice_labeled (accepts_unlabeled (accepts_prefixed h fun c hc hmem => ?_) ?_)
    ?_ hrest
  · rw [List.append_assoc] at hc
    exact notMem_head_operand he c hc (List.mem_append_left ['{', '?', '*', '+'] hmem)
  · rw [List.append_assoc]
    exact unlabeled_operand he hcs
  · exact List.append_ne_nil_of_left_ne_nil (operand_ne_nil he) cs

/-- The bound on the depth counts one level for the text itself. -/
theorem readsBack_of_length_le {e : Expr}
    (h : ∀ depth rest, e.render.length ≤ depth → EndsExpr rest →
      (choiceWith (choiceWithin depth)).Accepts e.render rest e.Alike) : ReadsBack e := by
  rintro (_ | depth) rest hdepth hrest
  · nomatch hdepth
  · exact h depth rest (Nat.le_of_lt_succ hdepth) hrest

theorem readsBack_atom {e : Expr} (h : e.isNormal .basic = true) (hatom : e.isAtom = true) :
    ReadsBack e := by
  refine readsBack_of_length_le fun depth rest _ hrest => ?_
  have hprimary : (primary (choiceWithin depth)).Accepts e.render rest e.Alike :=
    accepts_atom h hatom hrest.endsOperand
  rw [Expr.render_of_isAtom hatom, ← List.append_nil e.operand] at hprimary ⊢
  exact accepts_choice_suffixed h
    (accepts_suffixed hprimary (notMem_of_head_mem hrest (by decide))) hrest.endsOperand hrest

theorem readsBack_predicate {i : Info} {negated : Bool} {code : String} {params : Params}
    (h : (Expr.predicate i negated code params).isNormal .basic = true) :
    ReadsBack (.predicate i negated code params) := by
  simp only [Expr.isNormal, Bool.and_eq_true, List.isEmpty_iff] at h
  obtain ⟨⟨hi, hcode⟩, rfl⟩ := h
  refine readsBack_of_length_le fun depth rest _ hrest => ?_
  refine accepts_choice_labeled (accepts_unlabeled (accepts_predicate hcode
    hrest.endsOperand.atToken fun span => ?_) (.inl ?_)) (by simp [Expr.render, spaced]) hrest
  · exact congrArg (Expr.predicate · negated code []) (Info.withoutSpan_of_isUnassigned hi span)
  · cases negated with
    | false => exact forall_head rfl
    | true => exact forall_head rfl

section

variable {i : Info} {body : Expr} (hread : ReadsBack body)

include hread

theorem readsBack_optional (h : (Expr.optional i body).isNormal .basic = true) :
    ReadsBack (.optional i body) := by
  obtain ⟨hi, hbody⟩ := Bool.and_eq_true_iff.mp h
  refine readsBack_of_length_le fun depth rest hdepth hrest => ?_
  rw [Expr.render_optional] at hdepth ⊢
  rw [List.length_append] at hdepth
  have hmark : EndsOperand (spaced ['?'] ++ rest) := endsOperand_cons (by decide) (by decide)
  have hoperand := accepts_operand hbody hread (Nat.le_of_add_right_le hdepth) hmark
  refine accepts_choice_suffixed hbody (accepts_operator hoperand
    (accepts_suffixOperator hrest.endsOperand.atToken).1 fun e span he => ?_) hmark hrest
  exact congrArg₂ Expr.optional (Info.withoutSpan_of_isUnassigned hi span) he

theorem readsBack_repeated {nonempty : Bool}
    (h : (Expr.repeated i nonempty body).isNormal .basic = true) :
    ReadsBack (.repeated i nonempty body) := by
  obtain ⟨hi, hbody⟩ := Bool.and_eq_true_iff.mp h
  refine readsBack_of_length_le fun depth rest hdepth hrest => ?_
  rw [Expr.render_repeated] at hdepth ⊢
  rw [List.length_append] at hdepth
  have hmark : EndsOperand (spaced [Expr.repetitionMark nonempty] ++ rest) := by
    cases nonempty with
    | false => exact endsOperand_cons (by decide) (by decide)
    | true => exact endsOperand_cons (by decide) (by decide)
  have hoperand := accepts_operand hbody hread (Nat.le_of_add_right_le hdepth) hmark
  refine accepts_choice_suffixed hbody (accepts_operator hoperand
    ((accepts_suffixOperator hrest.endsOperand.atToken).2 nonempty) fun e span he => ?_) hmark hrest
  exact congrArg₂ (Expr.repeated · nonempty ·) (Info.withoutSpan_of_isUnassigned hi span) he

theorem readsBack_lookahead {negated : Bool}
    (h : (Expr.lookahead i negated body).isNormal .basic = true) :
    ReadsBack (.lookahead i negated body) := by
  obtain ⟨hi, hbody⟩ := Bool.and_eq_true_iff.mp h
  refine readsBack_of_length_le fun depth rest hdepth hrest => ?_
  rw [Expr.render_lookahead] at hdepth ⊢
  rw [List.length_append] at hdepth
  have hoperand := accepts_operand hbody hread (Nat.le_of_add_left_le hdepth) hrest.endsOperand
  have hsuffixed := accepts_suffixed hoperand (notMem_of_head_mem hrest (by decide))
  refine accepts_choice_labeled (accepts_unlabeled (accepts_lookahead hsuffixed
    (endsOperand_operand hbody hrest.endsOperand).atToken
    (ne_of_head_notMem (notMem_head_operand hbody) (by decide)) fun e span he => ?_) (.inl ?_))
    (by simp [spaced]) hrest
  · exact congrArg₂ (Expr.lookahead · negated ·) (Info.withoutSpan_of_isUnassigned hi span) he
  · cases negated with
    | false => exact forall_head rfl
    | true => exact forall_head rfl

theorem readsBack_labeled {label : String}
    (h : (Expr.labeled i label body).isNormal .basic = true) :
    ReadsBack (.labeled i label body) := by
  obtain ⟨hfront, hbody⟩ := Bool.and_eq_true_iff.mp h
  obtain ⟨hi, hlabel⟩ := Bool.and_eq_true_iff.mp hfront
  refine readsBack_of_length_le fun depth rest hdepth hrest => ?_
  rw [Expr.render_labeled] at hdepth ⊢
  rw [List.length_append, List.length_append] at hdepth
  have hoperand := accepts_operand hbody hread
    (Nat.le_of_add_left_le (Nat.le_of_add_left_le hdepth)) hrest.endsOperand
  have hsuffixed := accepts_suffixed hoperand (notMem_of_head_mem hrest (by decide))
  have hprefixed := accepts_prefixed hsuffixed fun c hc hmem =>
    notMem_head_operand hbody c hc (List.mem_append_left ['{', '?', '*', '+'] hmem)
  refine accepts_choice_labeled (accepts_labeled hlabel hprefixed
    (endsOperand_operand hbody hrest.endsOperand).atToken fun e span he => ?_)
    (by simp [spaced]) hrest
  exact congrArg₂ (Expr.labeled · label ·) (Info.withoutSpan_of_isUnassigned hi span) he

theorem readsBack_action {code : String} {params : Params}
    (h : (Expr.action i code params body).isNormal .basic = true) :
    ReadsBack (.action i code params body) := by
  simp only [Expr.isNormal, Bool.and_eq_true, List.isEmpty_iff] at h
  obtain ⟨⟨⟨hi, hcode⟩, rfl⟩, hbody⟩ := h
  refine readsBack_of_length_le fun depth rest hdepth hrest => ?_
  rw [Expr.render_action] at hdepth ⊢
  rw [List.length_append] at hdepth
  have hblock : EndsOperand (spaced (block code) ++ rest) :=
    endsOperand_cons (by decide) (by decide)
  have helement := accepts_element hbody hread (Nat.le_of_add_right_le hdepth) hblock
    (forall_head (by decide))
  refine accepts_choice_one (accepts_sequence_one helement (operand_ne_nil hbody)
    (forall_head (by decide)) fun begun e he => accepts_closing hcode hrest.endsOperand.atToken
      fun span => ?_) (ne_of_head_mem hrest (by decide))
  exact congrArg₂ (Expr.action · code [] ·) (Info.withoutSpan_of_isUnassigned hi span) he

end

section

variable {i : Info} {items : List Expr} (hread : ∀ e ∈ items, ReadsBack e)

theorem length_le_of_mem {f : Expr → List Char} {e : Expr} (he : e ∈ items) :
    (f e).length ≤ (items.flatMap f).length :=
  (List.infix_of_mem_flatten (List.mem_map_of_mem he)).length_le

include hread

theorem readsBack_sequence (h : (Expr.sequence i items).isNormal .basic = true) :
    ReadsBack (.sequence i items) := by
  obtain ⟨hfront, hitems⟩ := Bool.and_eq_true_iff.mp h
  obtain ⟨hi, hlength⟩ := Bool.and_eq_true_iff.mp hfront
  rw [Expr.areNormal_iff] at hitems
  refine readsBack_of_length_le fun depth rest hdepth hrest => ?_
  rw [Expr.render_sequence] at hdepth ⊢
  have hhead : ∀ c ∈ [')', ';'], ¬ IsHead c := by decide
  have helements : Repeats (labeled (choiceWithin depth)) (items.flatMap Expr.operand) rest
      (List.Forall₂ Expr.Alike items) := by
    refine .flatMap (rejects_labeled fun c hc => hhead c (hrest c hc)) fun e more hsuffix => ?_
    have he : e ∈ items := hsuffix.subset List.mem_cons_self
    have hmore : ∀ e ∈ more, e.isNormal .basic = true := fun e' he' =>
      hitems e' (hsuffix.subset (List.mem_cons_of_mem e he'))
    refine ⟨accepts_element (hitems e he) (hread e he)
      (Nat.le_trans (length_le_of_mem he) hdepth)
      (endsOperand_operands hmore hrest.endsOperand) ?_, operand_ne_nil (hitems e he)⟩
    cases more with
    | nil => exact notMem_of_head_mem hrest (by decide)
    | cons e' more =>
      rw [List.flatMap_cons, List.append_assoc]
      exact fun c hc hmem => notMem_head_operand (hmore e' List.mem_cons_self) c hc
        (List.mem_append_right ['&', '!', '{'] hmem)
  refine accepts_choice_one (accepts_sequence_several helements (fun es hes => ⟨?_, fun span => ?_⟩)
    (ne_of_head_mem hrest (by decide))) (ne_of_head_mem hrest (by decide))
  · rw [← hes.length_eq]
    exact bne_iff_ne.mp hlength
  · exact congrArg₂ Expr.sequence (Info.withoutSpan_of_isUnassigned hi span)
      (Expr.allWithoutSpans_eq hes)

end

/-- An operand as an alternative. -/
theorem accepts_alternative {e : Expr} (h : e.isNormal .basic = true) (hread : ReadsBack e)
    {depth : Nat} (hdepth : e.operand.length ≤ depth) (hrest : EndsOperand rest)
    (hhead : ∀ c ∈ rest.head?, c ∈ [')', ';', '/']) :
    (sequence (choiceWithin depth)).Accepts e.operand rest e.Alike := by
  have hends : ∀ c ∈ [')', ';', '/'], ¬ IsHead c := by decide
  rw [← List.append_nil e.operand]
  exact accepts_sequence_one
    (accepts_element h hread hdepth hrest (notMem_of_head_mem hhead (by decide)))
    (operand_ne_nil h) (fun c hc => hends c (hhead c hc))
    fun begun e' he => accepts_unclosed (ne_of_head_mem hhead (by decide)) he

/-- What comes behind an alternative: another one, or the end of the choice. -/
theorem ends_alternatives (items : List Expr) (hrest : EndsExpr rest) :
    EndsOperand (items.flatMap (fun e => spaced ['/'] ++ e.operand) ++ rest) ∧
      ∀ c ∈ (items.flatMap (fun e => spaced ['/'] ++ e.operand) ++ rest).head?,
        c ∈ [')', ';', '/'] := by
  cases items with
  | nil => exact ⟨hrest.endsOperand, fun c hc => List.mem_append_left ['/'] (hrest c hc)⟩
  | cons e es => exact ⟨endsOperand_slash, forall_head (by decide)⟩

theorem readsBack_choice {i : Info} {items : List Expr} (hread : ∀ e ∈ items, ReadsBack e)
    (h : (Expr.choice i items).isNormal .basic = true) : ReadsBack (.choice i items) := by
  obtain ⟨hfront, hitems⟩ := Bool.and_eq_true_iff.mp h
  obtain ⟨hi, hlength⟩ := Bool.and_eq_true_iff.mp hfront
  rw [Expr.areNormal_iff] at hitems
  obtain ⟨e, e', es, rfl⟩ : ∃ e e' es, items = e :: e' :: es := by
    rcases items with _ | ⟨e, _ | ⟨e', es⟩⟩
    · nomatch hlength
    · nomatch hlength
    · exact ⟨e, e', es, rfl⟩
  refine readsBack_of_length_le fun depth rest hdepth hrest => ?_
  rw [Expr.render_choice] at hdepth ⊢
  rw [List.length_append] at hdepth
  have hmore : Repeats (attempt do token "/"; sequence (choiceWithin depth))
      ((e' :: es).flatMap fun e => spaced ['/'] ++ e.operand) rest
      (List.Forall₂ Expr.Alike (e' :: es)) := by
    refine .flatMap ((rejects_token rfl (ne_of_head_mem hrest (by decide))).bind.fails.attempt)
      fun x more hsuffix => ⟨?_, List.cons_ne_nil _ _⟩
    have hx : x ∈ e' :: es := hsuffix.subset List.mem_cons_self
    have hxs : x ∈ e :: e' :: es := List.mem_cons_of_mem e hx
    have hx_le : (spaced ['/'] ++ x.operand).length ≤ depth :=
      Nat.le_trans (length_le_of_mem (f := fun e => spaced ['/'] ++ e.operand) hx)
        (Nat.le_of_add_left_le hdepth)
    rw [List.length_append] at hx_le
    obtain ⟨hends, hhead⟩ := ends_alternatives more hrest
    refine .attempt ((accepts_token rfl ?_).bind fun _ _ =>
      accepts_alternative (hitems x hxs) (hread x hxs) (Nat.le_of_add_left_le hx_le) hends hhead)
    exact (endsOperand_operand (hitems x hxs) hends).atToken
  obtain ⟨hends, hhead⟩ := ends_alternatives (e' :: es) hrest
  have hfirst := accepts_alternative (hitems e List.mem_cons_self) (hread e List.mem_cons_self)
    (Nat.le_of_add_right_le hdepth) hends hhead
  refine accepts_choice_several hfirst hmore fun a as ha has => ⟨?_, fun span => ?_⟩
  · rintro rfl
    nomatch has
  · exact congrArg₂ Expr.choice (Info.withoutSpan_of_isUnassigned hi span)
      (Expr.allWithoutSpans_eq (.cons ha has))

/-- An expression in normal form is read back from its text. -/
theorem accepts_choiceWithin {e : Expr} (h : e.isNormal .basic = true) : ReadsBack e := by
  -- A part stands between parentheses or is an operand, so its text is shorter than the whole and
  -- the bound on the depth that serves the whole serves the part one level further down.
  induction e using Expr.inductionOn with
  | named => nomatch h
  | choice i items ih =>
    exact readsBack_choice (fun e he => ih e he ((Expr.areNormal_iff _).mp
      (Bool.and_eq_true_iff.mp h).2 e he)) h
  | sequence i items ih =>
    exact readsBack_sequence (fun e he => ih e he ((Expr.areNormal_iff _).mp
      (Bool.and_eq_true_iff.mp h).2 e he)) h
  | action i code params body ih => exact readsBack_action (ih (Bool.and_eq_true_iff.mp h).2) h
  | labeled i label body ih => exact readsBack_labeled (ih (Bool.and_eq_true_iff.mp h).2) h
  | lookahead i negated body ih => exact readsBack_lookahead (ih (Bool.and_eq_true_iff.mp h).2) h
  | predicate => exact readsBack_predicate h
  | optional i body ih => exact readsBack_optional (ih (Bool.and_eq_true_iff.mp h).2) h
  | repeated i nonempty body ih => exact readsBack_repeated (ih (Bool.and_eq_true_iff.mp h).2) h
  | ruleRef | literal | charClass | any => exact readsBack_atom h rfl

/-! ### Rules and grammars -/

theorem accepts_choice {e : Expr} (h : e.isNormal .basic = true) (hrest : EndsExpr rest) :
    choice.Accepts e.render rest e.Alike :=
  .of_bound fun depth hdepth => accepts_choiceWithin h depth rest hdepth hrest

theorem accepts_rule {r : Rule} (h : r.isNormal .basic = true) (hrest : AtToken rest) :
    rule.Accepts r.render rest r.Alike := by
  obtain ⟨span, name, body, registers⟩ := r
  simp only [Rule.isNormal, Bool.and_eq_true, beq_iff_eq] at h
  obtain ⟨⟨hname, hbody⟩, rfl⟩ := h
  have hends : EndsExpr (spaced [';'] ++ rest) := forall_head (by decide)
  have htoken : ∀ {e : Expr}, e.isNormal .basic = true →
      AtToken (e.render ++ spaced [';'] ++ rest) := fun he => by
    rw [List.append_assoc]
    exact (endsOperand_render he hends.endsOperand).atToken
  have hend : (option (token ";")).Accepts (spaced [';']) rest anything :=
    (accepts_token rfl hrest).option.mono fun _ _ => trivial
  cases body with
  | named i d e =>
    simp only [Expr.isNormalBody, Bool.and_eq_true] at hbody
    obtain ⟨⟨hi, hd⟩, he⟩ := hbody
    have hdisplay : ∀ d' ∈ some d, d'.toList.all isBasic = true := fun d' hd' =>
      Option.some.inj hd' ▸ hd
    have hread : choice.Accepts e.render (spaced [';'] ++ rest) e.Alike := accepts_choice he hends
    refine accepts_rule_of (V := e.Alike) (some d) hname hdisplay (htoken (e := e) he) hread hend
      fun e' span he' => ?_
    exact congrArg (Rule.mk default name · 0)
      (congrArg₂ (Expr.named · d ·) (Info.withoutSpan_of_isUnassigned hi _) he')
  | _ =>
    exact accepts_rule_of none hname nofun (htoken hbody) (accepts_choice hbody hends) hend
      fun e' span he' => congrArg (Rule.mk default name · 0) he'

/-- Rules begin with a name. -/
theorem head_rules {rules : List Rule} (h : ∀ r ∈ rules, r.isNormal .basic = true) :
    ∀ c ∈ (rules.flatMap Rule.render ++ []).head?, isIdentifierHead c = true := by
  cases rules with
  | nil => nofun
  | cons r rules =>
    have hr := h r List.mem_cons_self
    simp only [Rule.isNormal, Bool.and_eq_true] at hr
    obtain ⟨c, cs, hname, hc, -⟩ := exists_of_isIdentifier hr.1.1
    rw [List.flatMap_cons, Rule.render, hname]
    exact forall_head hc

theorem atToken_rules {rules : List Rule} (h : ∀ r ∈ rules, r.isNormal .basic = true) :
    AtToken (rules.flatMap Rule.render ++ []) := by
  have hhead := head_rules h
  cases htext : rules.flatMap Rule.render ++ [] with
  | nil => exact atToken_nil
  | cons c cs =>
    rw [htext] at hhead
    obtain ⟨hmark, hspace⟩ :=
      notMem_marks_of_isIdentifierTail (isIdentifierTail_of_head (hhead c rfl))
    exact atToken_cons hspace.1 hspace.2 fun hc => hmark (hc ▸ by decide)

theorem accepts_rules {rules : List Rule} (h : ∀ r ∈ rules, r.isNormal .basic = true) :
    Repeats rule (rules.flatMap Rule.render) [] (List.Forall₂ Rule.Alike rules) := by
  refine .flatMap rejects_rule fun r more hsuffix => ⟨?_, ?_⟩
  · refine accepts_rule (h r (hsuffix.subset List.mem_cons_self)) (atToken_rules fun r' hr' => ?_)
    exact h r' (hsuffix.subset (List.mem_cons_of_mem r hr'))
  · simp [Rule.render, spaced]

theorem accepts_initializer {i : Initializer} (h : isBalanced i.code = true)
    (hrest : AtToken rest) :
    initializer.Accepts i.render rest fun i' =>
      { i' with span := default } = { i with span := default } := by
  have hgap : skip.Accepts [] (spaced [';'] ++ rest) anything :=
    accepts_skip rfl (atToken_cons rfl rfl (by decide))
  have haction := accepts_action h hgap
  rw [List.append_nil] at haction
  refine .still fun begun => haction.bind ?_
  rintro _ rfl
  refine (accepts_token rfl hrest).option.finish fun _ _ => ?_
  exact (accepts_spanSince begun).finish fun span _ => .pure rfl

theorem accepts_front {front : Option Initializer} (h : ∀ i ∈ front, isBalanced i.code = true)
    {rules : List Rule} (hrules : ∀ r ∈ rules, r.isNormal .basic = true) :
    (option initializer).Accepts ((front.map Initializer.render).getD [])
      (rules.flatMap Rule.render ++ []) fun front' =>
        (front'.map fun i => { i with span := default }) =
          front.map fun i : Initializer => { i with span := default } := by
  cases front with
  | none =>
    refine (rejects_initializer (head_rules hrules)).option.mono ?_
    rintro _ rfl
    rfl
  | some i =>
    refine (accepts_initializer (h i rfl) (atToken_rules hrules)).option.mono ?_
    rintro _ ⟨i', rfl, hi'⟩
    exact congrArg some hi'

theorem accepts_grammar {g : Grammar} (h : g.isNormal .basic = true) :
    grammar.Accepts g.render.toList [] g.Alike := by
  obtain ⟨front, rules, start⟩ := g
  simp only [Grammar.isNormal, Bool.and_eq_true, List.all_eq_true] at h
  obtain ⟨⟨hfront, hne⟩, hrules⟩ := h
  have hfront : ∀ i ∈ front, isBalanced i.code = true := fun i hi => by
    cases hi
    exact hfront
  have hbegin :
      AtToken ((front.map Initializer.render).getD [] ++ rules.flatMap Rule.render ++ []) := by
    cases front with
    | none => exact atToken_rules hrules
    | some i => exact atToken_cons rfl rfl (by decide)
  rw [Grammar.render, String.toList_ofList]
  refine accepts_grammar_of hbegin (accepts_front hfront hrules) (accepts_rules hrules)
    fun front' rules' hfront' hrules' => ?_
  cases hrules' with
  | nil => nomatch hne
  | @cons first first' rest rest' hfirst hrest =>
    have hname : first'.withoutSpans.name = first.withoutSpans.name := congrArg Rule.name hfirst
    have hmap := map_withoutSpans_eq (.cons hfirst hrest)
    refine ⟨first', rest', rfl, ?_, congrArg some hname.symm⟩
    simp only [Grammar.withoutSpans, hfront', hmap]

end Notation

/-- Writing a grammar in normal form and reading it again changes nothing but spans, and makes the
first rule the one to start from. -/
theorem Grammar.parse_render {g : Grammar} (h : g.isNormal .basic = true) :
    ∃ g', Grammar.parse g.render = .ok g' ∧
      g'.withoutSpans = { g.withoutSpans with start := g'.start } ∧
      g.ruleNames.head? = some g'.start := Grammar.exists_parse (Notation.accepts_grammar h)

/-- A grammar with two rules, the first one with a display name, and with an initializer. -/
def listGrammar : Grammar where
  initializer := some ⟨default, "use std;"⟩
  rules :=
    let i : Info := { span := default }
    [{ span := default
       name := "list"
       body := .named i "a list" <| .action i "{all}" [] <| .sequence i
        [.labeled i "l" (.ruleRef i "item"),
          .repeated i false (.sequence i [.literal i "," true, .ruleRef i "item"]),
          .lookahead i true (.choice i [.any i, .predicate i false "more" []])] },
      { span := default
        name := "item"
        body := .optional i
          (.charClass i ⟨[.range 'a' 'z', .single '-'], true, false⟩ "[^a-z\\-]") }]
  start := "list"

theorem Grammar.parse_render_list : listGrammar.isNormal .basic = true ∧
    listGrammar.render = "{use std;}; list \"\\u0061\\u0020\\u006C\\u0069\\u0073\\u0074\" = " ++
      "( ( l : item ) ( ( \"\\u002C\"i item ) * ) ( ! ( . / ( & {more} ) ) ) ) {{all}} ; " ++
      "item = [^\\u0061-\\u007A\\u002D] ? ; " ∧
    ∃ g', Grammar.parse listGrammar.render = .ok g' ∧
      g'.withoutSpans = { listGrammar.withoutSpans with start := g'.start } ∧
      listGrammar.ruleNames.head? = some g'.start :=
  ⟨by decide, by decide +kernel, Grammar.parse_render (by decide)⟩

end Packrat
