import Packrat.Grammar.References
import Packrat.Proofs.Passage
import Packrat.Proofs.Productions

/-!
# Where the parts of a grammar stand

The spans of a grammar that is read are nested as its expressions are: the parts of an expression
stand under it, one behind the other, and so do the rules of the grammar. What an expression has
from the text stands there as well: a name is spelled like one, the text under a reference is its
name, and a code block with its braces lies under the expression that it belongs to.

A span takes the two places between which the reader of its production was at work, often with the
blanks at their end, but the span of a reference takes the length of the name. Offsets in spans are
clamped, which keeps their order, so all of this holds of texts of any length, except for the two
facts that look into the text at an offset.

References are listed in the order of the expressions. As these are nested and in order, so are the
references, and the first of them that is undefined is the first in the text.

## Main definitions

* `Span.InOrder`: spans one behind the other between two offsets
* `Span.Lies`, `Span.Encloses`: a span of the text, and one with a code block under it
* `Expr.Grounded`: what the text has to say about an expression

## Main results

* `Notation.settles_choice`: expressions that are read stand where they were read
* `Expr.inOrder_references`: references are listed in the order of the text
* `Grammar.situated_of_parse`: the parts of a grammar stand in its text, nested and in order
-/

namespace Packrat

open Text (byteLength)

/-! ### Spans in order -/

namespace Span

/-- An offset as a span can hold it. -/
def clamp (offset : Nat) : Nat := min offset maxOffset

theorem clamp_mono {a b : Nat} (h : a ≤ b) : clamp a ≤ clamp b := by
  unfold clamp
  omega

theorem clamp_of_le {offset : Nat} (h : offset ≤ maxOffset) : clamp offset = offset :=
  Nat.min_eq_left h

/-- The spans stand one behind the other between the two offsets. -/
def InOrder : (lo hi : Nat) → List Span → Prop
  | lo, hi, [] => lo ≤ hi
  | lo, hi, s :: ss => lo ≤ s.start ∧ s.start ≤ s.stop ∧ InOrder s.stop hi ss

namespace InOrder

variable {lo lo' hi hi' : Nat} {s : Span} {ss ss' : List Span}

theorem le (h : InOrder lo hi ss) : lo ≤ hi := by
  induction ss generalizing lo with
  | nil => exact h
  | cons s ss ih => exact Nat.le_trans h.1 (Nat.le_trans h.2.1 (ih h.2.2))

theorem mono (h : InOrder lo hi ss) (hlo : lo' ≤ lo) (hhi : hi ≤ hi') : InOrder lo' hi' ss := by
  induction ss generalizing lo lo' with
  | nil => exact Nat.le_trans hlo (Nat.le_trans h hhi)
  | cons s ss ih => exact ⟨Nat.le_trans hlo h.1, h.2.1, ih h.2.2 (Nat.le_refl _)⟩

theorem append {mid : Nat} (h : InOrder lo mid ss) (h' : InOrder mid hi ss') :
    InOrder lo hi (ss ++ ss') := by
  induction ss generalizing lo with
  | nil => exact h'.mono h (Nat.le_refl _)
  | cons s ss ih => exact ⟨h.1, h.2.1, ih h.2.2⟩

theorem lo_le_start (h : InOrder lo hi ss) (hs : s ∈ ss) : lo ≤ s.start := by
  induction ss generalizing lo with
  | nil => cases hs
  | cons s' ss ih =>
    rcases List.mem_cons.mp hs with rfl | hs
    · exact h.1
    · exact Nat.le_trans h.1 (Nat.le_trans h.2.1 (ih h.2.2 hs))

theorem of_append (h : InOrder lo hi (ss ++ ss')) : InOrder lo hi ss' := by
  induction ss generalizing lo with
  | nil => exact h
  | cons s ss ih => exact (ih h.2.2).mono (Nat.le_trans h.1 h.2.1) (Nat.le_refl _)

/-- Each span begins no later than those behind it. -/
theorem pairwise (h : InOrder lo hi ss) : ss.Pairwise (·.start ≤ ·.start) := by
  induction ss generalizing lo with
  | nil => exact .nil
  | cons s ss ih =>
    exact List.pairwise_cons.mpr
      ⟨fun s' hs' => Nat.le_trans h.2.1 (h.2.2.lo_le_start hs'), ih h.2.2⟩

/-- What stands in order under each of several things in order is in order. -/
theorem flatMap {α : Type} {span : α → Span} {f : α → List Span} {as : List α}
    (h : InOrder lo hi (as.map span)) (hf : ∀ a ∈ as, InOrder (span a).start (span a).stop (f a)) :
    InOrder lo hi (as.flatMap f) := by
  induction as generalizing lo with
  | nil => exact h
  | cons a as ih =>
    rw [List.flatMap_cons]
    refine .append ((hf a List.mem_cons_self).mono h.1 (Nat.le_refl _)) ?_
    exact ih h.2.2 fun b hb => hf b (List.mem_cons_of_mem a hb)

end InOrder

/-- The span begins and ends between characters of the text, in this order. -/
structure Lies (text : List Char) (s : Span) : Prop where
  le : s.start ≤ s.stop
  start : Text.IsBoundary text s.start
  stop : Text.IsBoundary text s.stop

/-- A block of code with balanced braces lies in the text under the span. -/
def Encloses (text : List Char) (s : Span) (code : String) : Prop :=
  isBalanced code = true ∧ ∃ before after, text = before ++ (block code ++ after) ∧
    s.start ≤ clamp (byteLength before) ∧
      clamp (byteLength before + byteLength (block code)) ≤ s.stop

end Span

/-! ### What the text has to say -/

namespace Expr

/-- The code block of an expression. -/
def code? : Expr → Option String
  | action _ code _ _ | predicate _ _ code _ => some code
  | _ => none

/-- The name that an expression is a reference to or a label with. -/
def name? : Expr → Option String
  | labeled _ name _ | ruleRef _ name => some name
  | _ => none

/-- The parts of the expression stand in order under it, and what it has from the text is there. -/
structure Grounded (text : List Char) (e : Expr) : Prop where
  inOrder : Span.InOrder e.span.start e.span.stop (e.children.map span)
  lies : byteLength text ≤ Span.maxOffset → e.span.Lies text
  reference : byteLength text ≤ Span.maxOffset → ∀ i name, e = .ruleRef i name →
    Text.sliceBytes? text i.span.start i.span.stop = some name.toList
  name : ∀ name, e.name? = some name → isIdentifier name = true
  code : ∀ code, e.code? = some code → e.span.Encloses text code

/-- The expression stands between the two places, and it is grounded in the text with all its
parts. -/
structure Fits (text : List Char) (c : Cursor) (e : Expr) (d : Cursor) : Prop where
  inOrder : Span.InOrder (Span.clamp c.offset) (Span.clamp d.offset) [e.span]
  grounded : ∀ part : Expr, part.Inside e → part.Grounded text

/-- The expressions stand between the two places, one behind the other, and they are grounded in the
text with all their parts. -/
structure FitInOrder (text : List Char) (c : Cursor) (es : List Expr) (d : Cursor) : Prop where
  inOrder : Span.InOrder (Span.clamp c.offset) (Span.clamp d.offset) (es.map span)
  grounded : ∀ e ∈ es, ∀ part : Expr, part.Inside e → part.Grounded text

variable {text : List Char} {c d m : Cursor} {e : Expr} {es : List Expr}

theorem Fits.widen (h : e.Fits text c d) {c' d' : Cursor} (hc : c'.Onward text c)
    (hd : d.Onward text d') : e.Fits text c' d' :=
  ⟨h.inOrder.mono (Span.clamp_mono hc.le) (Span.clamp_mono hd.le), h.grounded⟩

theorem FitInOrder.nil (h : c.Onward text d) : FitInOrder text c [] d :=
  ⟨Span.clamp_mono h.le, fun _ he => nomatch he⟩

theorem FitInOrder.cons (h : e.Fits text c m) (hes : FitInOrder text m es d) :
    FitInOrder text c (e :: es) d where
  inOrder := h.inOrder.append hes.inOrder
  grounded := List.forall_mem_cons.mpr ⟨h.grounded, hes.grounded⟩

theorem Fits.single (h : e.Fits text c d) : FitInOrder text c [e] d :=
  ⟨h.inOrder, List.forall_mem_singleton.mpr h.grounded⟩

theorem FitInOrder.widen (h : FitInOrder text c es d) {c' d' : Cursor} (hc : c'.Onward text c)
    (hd : d.Onward text d') : FitInOrder text c' es d' :=
  ⟨h.inOrder.mono (Span.clamp_mono hc.le) (Span.clamp_mono hd.le), h.grounded⟩

theorem lies_between (h : c.Onward text d) (hsize : byteLength text ≤ Span.maxOffset) :
    (Span.between c.offset d.offset).Lies text := by
  have hstart := h.source.isBoundary
  have hstop := h.target.isBoundary
  rw [Span.between_of_le (Nat.le_trans h.source.offset_le hsize)
    (Nat.le_trans h.target.offset_le hsize)]
  exact ⟨h.le, hstart, hstop⟩

theorem encloses_between {code : String} (h : Notation.CodeBetween code c m)
    {c' d' : Cursor} (hc : c'.Onward text c) (hd : m.Onward text d') :
    (Span.between c'.offset d'.offset).Encloses text code := by
  obtain ⟨hbalanced, ⟨rest, hahead⟩, hend⟩ := h
  obtain ⟨before, htext, hoffset⟩ := hc.target.exists_before
  refine ⟨hbalanced, before, rest, by rw [htext, hahead], ?_, ?_⟩
  · exact Span.clamp_mono (hoffset ▸ hc.le)
  · exact Span.clamp_mono (hoffset ▸ Nat.le_trans hend hd.le)

/-- An expression that spans what was read stands between the two places if its parts do. -/
theorem Fits.of_parts (h : c.Onward text d) (hspan : e.span = .between c.offset d.offset)
    (hparts : FitInOrder text c e.children d) (hreference : ∀ i name, e ≠ .ruleRef i name)
    (hname : ∀ name, e.name? = some name → isIdentifier name = true)
    (hcode : ∀ code, e.code? = some code → e.span.Encloses text code) : e.Fits text c d where
  inOrder := by
    rw [hspan]
    exact ⟨Nat.le_refl _, Span.clamp_mono h.le, Nat.le_refl _⟩
  grounded := by
    refine forall_inside_iff.mpr ⟨⟨?_, fun hsize => ?_, fun _ i name he => ?_, hname, hcode⟩,
      hparts.grounded⟩
    · rw [hspan]
      exact hparts.inOrder
    · rw [hspan]
      exact lies_between h hsize
    · exact absurd he (hreference i name)

/-- References are listed in the order of the text. -/
theorem inOrder_references (h : ∀ part : Expr, part.Inside e → part.Grounded text) :
    Span.InOrder e.span.start e.span.stop (e.references.map (·.span)) := by
  induction e using Expr.inductionOn with
  | choice i items ih | sequence i items ih =>
    obtain ⟨hself, hparts⟩ := forall_inside_iff.mp h
    rw [references, referencesAll_eq_flatMap, List.map_flatMap]
    exact hself.inOrder.flatMap fun e he => ih e he (hparts e he)
  | named _ _ body ih | action _ _ _ body ih | labeled _ _ body ih | lookahead _ _ body ih
  | optional _ body ih | repeated _ _ body ih =>
    obtain ⟨hself, hparts⟩ := forall_inside_iff.mp h
    have hbody := hself.inOrder
    exact (ih (hparts body List.mem_cons_self)).mono hbody.1 hbody.2.2
  | ruleRef i name =>
    have hself := (h _ .self).inOrder.le
    exact ⟨Nat.le_refl _, hself, Nat.le_refl _⟩
  | predicate | literal | charClass | any => exact (h _ .self).inOrder.le

end Expr

/-- What the text has to say about a rule. -/
structure Rule.Grounded (text : List Char) (r : Rule) : Prop where
  inOrder : Span.InOrder r.span.start r.span.stop [r.body.span]
  lies : byteLength text ≤ Span.maxOffset → r.span.Lies text
  name : isIdentifier r.name = true
  parts : ∀ e : Expr, e.Inside r.body → e.Grounded text

/-- What the text has to say about a grammar. -/
structure Grammar.Grounded (text : List Char) (g : Grammar) : Prop where
  inOrder : Span.InOrder 0 (Span.clamp (byteLength text))
    ((g.initializer.map (·.span)).toList ++ g.rules.map (·.span))
  initializer : ∀ i, g.initializer = some i →
    (byteLength text ≤ Span.maxOffset → i.span.Lies text) ∧ i.span.Encloses text i.code
  rules : ∀ r ∈ g.rules, r.Grounded text

/-! ### Productions -/

namespace Notation

open Reader

variable {text : List Char}

/-- Every expression that is read stands between the two places. -/
abbrev Settles (text : List Char) (p : Reader Expr) : Prop :=
  p.Traverses text fun c e d => e.Fits text c d

theorem passes_spanned (begun : Cursor) (build : Info → Expr) :
    (spanned begun build).Traverses text fun c e d =>
      c = d ∧ e = build ⟨.between begun.offset c.offset, none, none⟩ := by
  refine (passes_spanSince begun).bind fun span => .pure ?_
  rintro d _ c _ ⟨rfl, rfl⟩
  exact ⟨rfl, rfl⟩

theorem settles_ruleReference : Settles text ruleReference := by
  refine .attempt (.still fun begun => passes_identifier.bind fun name => ?_)
  refine (Traverses.peek _).after fun beginsRule => ?_
  split
  · exact .fail
  refine .pure ?_
  rintro d _ m hmd c hcm ⟨hname, ⟨rest, hahead⟩, hend⟩ rfl
  have hcd := hcm.trans hmd
  rw [← Text.byteLength_toList]
  have hstart : Span.clamp c.offset ≤ Span.clamp (c.offset + byteLength name.toList) :=
    Span.clamp_mono (Nat.le_add_right _ _)
  have hstop : Span.clamp (c.offset + byteLength name.toList) ≤ Span.clamp d.offset :=
    Span.clamp_mono (Nat.le_trans hend hmd.le)
  -- The text under the span is cut out of the text where the name begins and where it ends.
  have hslice : byteLength text ≤ Span.maxOffset → ∃ before, text = before ++ name.toList ++ rest ∧
      byteLength before = c.offset ∧ Span.between c.offset (c.offset + byteLength name.toList) =
        ⟨c.offset, c.offset + byteLength name.toList⟩ := by
    intro hsize
    obtain ⟨before, htext, hoffset⟩ := hcd.source.exists_before
    refine ⟨before, by rw [htext, ← hahead, List.append_assoc], hoffset.symm, ?_⟩
    exact Span.between_of_le (Nat.le_trans hcd.source.offset_le hsize)
      (Nat.le_trans (Nat.le_trans hend hmd.le) (Nat.le_trans hcd.target.offset_le hsize))
  refine ⟨⟨Nat.le_refl _, hstart, hstop⟩, Expr.forall_inside_iff.mpr ⟨?_, nofun⟩⟩
  refine ⟨hstart, fun hsize => ?_, fun hsize i name' heq => ?_, fun name' hsome => ?_, nofun⟩
  · obtain ⟨before, htext, hbefore, hspan⟩ := hslice hsize
    refine ⟨hstart, ?_, ?_⟩
    · change Text.IsBoundary text (Span.between _ _).start
      rw [hspan]
      exact ⟨before, name.toList ++ rest, by rw [htext, List.append_assoc], hbefore⟩
    · change Text.IsBoundary text (Span.between _ _).stop
      rw [hspan]
      exact ⟨before ++ name.toList, rest, htext, by rw [Text.byteLength_append, hbefore]⟩
  · obtain ⟨before, htext, hbefore, hspan⟩ := hslice hsize
    injection heq with hi hname'
    subst hi hname'
    rw [hspan, Text.sliceBytes?_eq_some_iff]
    exact ⟨before, rest, htext, hbefore, rfl⟩
  · exact Option.some.inj hsome ▸ hname

/-- The expression that `build` makes is no reference; its parts, and the name and the code block
that it has of its own, are as given. -/
structure Combines (parts : List Expr) (name code : Option String) (build : Info → Expr) :
    Prop where
  span (i : Info) : (build i).span = i.span := by intros; rfl
  children (i : Info) : (build i).children = parts := by intros; rfl
  name (i : Info) : (build i).name? = name := by intros; rfl
  code (i : Info) : (build i).code? = code := by intros; rfl
  reference (i j : Info) (target : String) : build i ≠ .ruleRef j target := by intros; nofun

/-- What is built over the parts that were read stands where they were read. -/
theorem settles_spanned (begun : Cursor) (build : Info → Expr) :
    (spanned begun build).Traverses text fun c e d => ∀ {parts name code},
      Combines parts name code build → begun.Onward text c → Expr.FitInOrder text begun parts c →
        (∀ n, name = some n → isIdentifier n = true) →
          (∀ block, code = some block → ∃ a m : Cursor, begun.Onward text a ∧ m.Onward text c ∧
            CodeBetween block a m) → e.Fits text begun d := by
  refine (passes_spanned begun build).mono ?_
  rintro c _ _ - ⟨rfl, rfl⟩ parts name code hbuild hbegun hparts hname hcode
  have hspan := hbuild.span ⟨.between begun.offset c.offset, none, none⟩
  refine .of_parts hbegun hspan (hbuild.children _ ▸ hparts) (hbuild.reference _)
    (fun n hn => hname n (hbuild.name _ ▸ hn)) fun block hblock => ?_
  obtain ⟨a, m, ha, hm, hbetween⟩ := hcode block (hbuild.code _ ▸ hblock)
  exact hspan ▸ Expr.encloses_between hbetween ha hm

/-- An expression without a name or a code block of its own. -/
theorem settles_over (begun : Cursor) (build : Info → Expr) :
    (spanned begun build).Traverses text fun c e d => ∀ {parts}, Combines parts none none build →
      begun.Onward text c → Expr.FitInOrder text begun parts c → e.Fits text begun d :=
  (settles_spanned begun build).mono fun _ _ _ _ hfits _ hbuild hbegun hparts =>
    hfits hbuild hbegun hparts nofun nofun

/-- An expression with a code block of its own. -/
theorem settles_coded (begun : Cursor) (build : Info → Expr) :
    (spanned begun build).Traverses text fun c e d => ∀ {parts block},
      Combines parts none (some block) build → begun.Onward text c →
        Expr.FitInOrder text begun parts c → ∀ {a m : Cursor}, begun.Onward text a →
          m.Onward text c → CodeBetween block a m → e.Fits text begun d := by
  refine (settles_spanned begun build).mono ?_
  intro c e d _ hfits parts block hbuild hbegun hparts a m ha hm hcode
  exact hfits hbuild hbegun hparts nofun fun _ heq => ⟨a, m, ha, hm, Option.some.inj heq ▸ hcode⟩

/-- A lexeme that is an expression. -/
theorem settles_lexeme {α : Type} {p : Reader α} (hp : p.Traverses text anywhere) (begun : Cursor)
    {build : α → Info → Expr} (hbuild : ∀ a, Combines [] none none (build a)) :
    (p >>= fun a => spanned begun (build a)).Traverses text fun c e d =>
      c = begun → e.Fits text begun d := by
  refine hp.after fun a => (settles_over begun (build a)).mono ?_
  rintro c e d - hfits b hbc rfl
  exact hfits (hbuild a) hbc (.nil hbc)

section

variable {inner : Reader Expr} (h : Settles text inner)

include h

theorem settles_parenthesized : Settles text (parenthesized inner) := by
  refine .attempt ((passes_token "(").after fun _ => h.bind fun e => ?_)
  refine (passes_token ")").after fun _ => .pure fun d _ m hmd c hcm he b hbc => ?_
  exact he.widen hbc hmd

theorem settles_primary : Settles text (primary inner) := by
  refine .still fun begun => ?_
  refine .orElse (settles_ruleReference.mono fun _ _ _ _ he hbegun => hbegun ▸ he)
    (failsInPlace_attempt _) (.orElse ?_ ?_ (.orElse ?_ ?_ (.orElse ?_ ?_ ?_)))
  · exact settles_lexeme passes_literal begun fun _ => {}
  · exact failsInPlace_literal.thenStill fun _ => still_spanned _ _
  · exact settles_lexeme passes_charClass begun fun _ => {}
  · exact failsInPlace_charClass.thenStill fun _ => still_spanned _ _
  · exact settles_lexeme (passes_token ".") begun fun _ => {}
  · exact (failsInPlace_token ".").thenStill fun _ => still_spanned _ _
  · exact (settles_parenthesized h).mono fun _ _ _ _ he hbegun => hbegun ▸ he

omit h in
theorem passes_suffixOperator : suffixOperator.Traverses text fun _ build _ =>
    ∀ e, Combines [e] none none (build e) := by
  have hoperator : ∀ (mark : String) (build : Expr → Info → Expr),
      (∀ e, Combines [e] none none (build e)) →
        (do token mark; return build).Traverses text fun _ build _ =>
          ∀ e, Combines [e] none none (build e) := fun mark build hbuild =>
    (passes_token mark).after fun _ => .pure fun _ _ _ _ => hbuild
  exact .orElse (hoperator _ _ fun _ => {}) (failsInPlace_operator _ _)
    (.orElse (hoperator _ _ fun _ => {}) (failsInPlace_operator _ _) (hoperator _ _ fun _ => {}))

theorem settles_suffixed : Settles text (suffixed inner) := by
  refine .still fun begun => (settles_primary h).bind fun e => ?_
  refine (passes_suffixOperator.option (R := fun _ operator _ =>
    ∀ build, operator = some build → ∀ e, Combines [e] none none (build e))
    (fun _ _ _ => nofun) fun _ _ _ _ hbuild _ heq => Option.some.inj heq ▸ hbuild).bind
      fun operator => ?_
  cases operator with
  | none =>
    refine .pure ?_
    rintro d _ m hmd - c hcm he rfl
    exact he.widen hcm.source.onward hmd
  | some build =>
    refine (settles_over begun (build e)).mono ?_
    rintro b _ d - hfits m hmb hbuild c hcm he rfl
    exact hfits (hbuild build rfl e) (hcm.trans hmb) (he.single.widen hcm.source.onward hmb)

theorem settles_predicateOf (operator : String) (negated : Bool) :
    Settles text (predicateOf inner operator negated) := by
  refine .still fun begun => .orElse ?_
    ((failsInPlace_attempt _).thenStill fun _ => still_spanned _ _) ?_
  · have hcode : (attempt do token operator; action).Traverses text fun c code d =>
        ∃ a : Cursor, c.Onward text a ∧ CodeBetween code a d :=
      .attempt ((passes_token operator).after fun _ =>
        passes_action.mono fun a _ _ _ hcode _ hca => ⟨a, hca, hcode⟩)
    refine hcode.bind fun code => (settles_coded begun _).mono ?_
    rintro m e d - hfits c hcm ⟨a, hca, hcode⟩ rfl
    exact hfits {} hcm (.nil hcm) hca hcm.target.onward hcode
  · have hbody : Settles text (attempt do token operator; suffixed inner) :=
      .attempt ((passes_token operator).after fun _ => (settles_suffixed h).mono
        fun _ _ _ hd he _ hc => he.widen hc hd.target.onward)
    refine hbody.bind fun body => (settles_over begun _).mono ?_
    rintro m e d - hfits c hcm hbody rfl
    exact hfits {} hcm hbody.single

theorem settles_prefixed : Settles text (prefixed inner) :=
  (settles_predicateOf h "&" false).orElse (failsInPlace_predicateOf _ _ _)
    ((settles_predicateOf h "!" true).orElse (failsInPlace_predicateOf _ _ _) (settles_suffixed h))

theorem settles_labeled : Settles text (labeled inner) := by
  refine .orElse (.attempt (.still fun begun => ?_)) (failsInPlace_attempt _) (settles_prefixed h)
  refine passes_identifier.bind fun label => (passes_token ":").after fun _ => ?_
  refine (settles_prefixed h).bind fun body => (settles_spanned begun _).mono ?_
  rintro m e d - hfits b hbm hbody a hab c hca hname rfl
  have hcb := hca.trans hab
  have hbuild : Combines [body] (some label) none (.labeled · label body) := {}
  refine hfits hbuild (hcb.trans hbm) (hbody.single.widen hcb hbm.target.onward) (fun n hn => ?_)
    nofun
  exact Option.some.inj hn ▸ hname.1

omit h in
/-- A code block behind what was read takes it in as a part. -/
theorem settles_closing (begun : Cursor) (e : Expr) : (closing begun e).Traverses text
    fun c closed d => begun.Onward text c → e.Fits text begun c → closed.Fits text begun d := by
  refine (passes_action.option (R := fun c code d => ∀ block, code = some block →
    CodeBetween block c d) (fun _ _ _ => nofun) fun _ _ _ _ hcode _ heq =>
      Option.some.inj heq ▸ hcode).bind fun code => ?_
  cases code with
  | none => exact .pure fun d _ c hcd _ hbegun he => he.widen hbegun.source.onward hcd
  | some code =>
    refine (settles_coded begun _).mono ?_
    rintro m _ d - hfits c hcm hcode hbegun he
    exact hfits {} (hbegun.trans hcm) (he.single.widen hbegun.source.onward hcm) hbegun
      hcm.target.onward (hcode code rfl)

omit h in
/-- Expressions that are read one after the other stand so. -/
theorem fitInOrder_many {p : Reader Expr} (hp : Settles text p) (hplace : FailsInPlace p) :
    (Reader.many p).Traverses text fun c es d => Expr.FitInOrder text c es d :=
  hp.many hplace (fun _ hc => .nil hc.onward) fun _ _ _ _ _ _ _ he hes => .cons he hes

theorem settles_sequence : Settles text (sequence inner) := by
  refine .still fun begun => (fitInOrder_many (settles_labeled h) (failsInPlace_labeled _)).bind
    fun es => ?_
  split
  · next e =>
    refine (settles_closing begun e).mono ?_
    rintro m _ d - hclosed c hcm hes rfl
    exact hclosed hcm ⟨hes.inOrder, hes.grounded e List.mem_cons_self⟩
  · refine (settles_over begun _).bind fun e => (settles_closing begun e).mono ?_
    rintro b _ d - hclosed m hmb hfits c hcm hes rfl
    exact hclosed (hcm.trans hmb) (hfits {} hcm hes)

theorem settles_choiceWith : Settles text (choiceWith inner) := by
  have hnext : Settles text (attempt do token "/"; sequence inner) :=
    .attempt ((passes_token "/").after fun _ => (settles_sequence h).mono
      fun _ _ _ hd he _ hc => he.widen hc hd.target.onward)
  refine .still fun begun => (settles_sequence h).bind fun first =>
    (fitInOrder_many hnext (failsInPlace_attempt _)).bind fun rest => ?_
  cases rest with
  | nil =>
    refine .pure ?_
    rintro d _ m hmd - c hcm hfirst rfl
    exact hfirst.widen hcm.source.onward hmd
  | cons e es =>
    refine (settles_over begun _).mono ?_
    rintro b _ d - hfits m hmb hrest c hcm hfirst rfl
    exact hfits {} (hcm.trans hmb) (.cons hfirst hrest)

end

theorem settles_choiceWithin (depth : Nat) : Settles text (choiceWithin depth) := by
  induction depth with
  | zero => exact .fail
  | succ depth ih => exact settles_choiceWith ih

theorem settles_choice : Settles text choice :=
  .still fun _ => (settles_choiceWithin _).mono fun _ _ _ _ he hbegun => hbegun ▸ he

/-- With its display name, the body of a rule stays where it is. -/
theorem fits_named {c d : Cursor} {e : Expr} (he : e.Fits text c d) (name : String) :
    (Expr.named ⟨e.span, none, none⟩ name e).Fits text c d := by
  obtain ⟨-, hself, -⟩ := he.inOrder
  have hbody := he.grounded e .self
  refine ⟨he.inOrder, Expr.forall_inside_iff.mpr ⟨?_, List.forall_mem_singleton.mpr he.grounded⟩⟩
  exact ⟨⟨Nat.le_refl _, hself, Nat.le_refl _⟩, hbody.lies, nofun, nofun, nofun⟩

/-- The rule stands between the two places, and it is grounded in the text. -/
def RuleFits (text : List Char) (c : Cursor) (r : Rule) (d : Cursor) : Prop :=
  Span.InOrder (Span.clamp c.offset) (Span.clamp d.offset) [r.span] ∧ r.Grounded text

theorem settles_rule : rule.Traverses text (RuleFits text) := by
  refine .attempt (.still fun begun => passes_identifier.bind fun name => ?_)
  refine passes_string.optional.after fun display => (passes_token "=").after fun _ => ?_
  refine settles_choice.bind fun e => (passes_token ";").optional.after fun _ => ?_
  refine (passes_spanSince begun).bind fun span => .pure ?_
  rintro d _ k hkd ⟨rfl, rfl⟩ m hmk b hbm he a hab i hia c hci hname rfl
  have hcb := hci.trans (hia.trans hab)
  have hck := hcb.trans (hbm.trans hmk)
  -- The body of the rule is what stands under its span, with a display name or without.
  have hrule : ∀ body : Expr, body.Fits text b m →
      RuleFits text c ⟨.between c.offset k.offset, name, body, 0⟩ k := by
    intro body hbody
    refine ⟨⟨Nat.le_refl _, Span.clamp_mono hck.le, Nat.le_refl _⟩, ?_, ?_, hname.1, hbody.grounded⟩
    · exact hbody.inOrder.mono (Span.clamp_mono hcb.le) (Span.clamp_mono hmk.le)
    · exact Expr.lies_between hck
  cases display with
  | none => exact hrule e he
  | some display => exact hrule _ (fits_named he display)

/-- The initializer, if there is one, stands between the two places, and it is grounded. -/
def FrontFits (text : List Char) (c : Cursor) (front : Option Initializer) (d : Cursor) : Prop :=
  Span.InOrder (Span.clamp c.offset) (Span.clamp d.offset) (front.map (·.span)).toList ∧
    ∀ i, front = some i → (byteLength text ≤ Span.maxOffset → i.span.Lies text) ∧
      i.span.Encloses text i.code

theorem settles_initializer :
    initializer.Traverses text fun c i d => FrontFits text c (some i) d := by
  refine .still fun begun => passes_action.bind fun code =>
    (passes_token ";").optional.after fun _ => (passes_spanSince begun).bind fun span => .pure ?_
  rintro d _ k hkd ⟨rfl, rfl⟩ m hmk c hcm hcode rfl
  have hck := hcm.trans hmk
  refine ⟨⟨Nat.le_refl _, Span.clamp_mono hck.le, Nat.le_refl _⟩, fun i hi => ?_⟩
  obtain rfl := Option.some.inj hi
  exact ⟨Expr.lies_between hck, Expr.encloses_between hcode hcm.source.onward hmk⟩

/-- The rules stand between the two places, one behind the other, and they are grounded. -/
def RulesFit (text : List Char) (c : Cursor) (rules : List Rule) (d : Cursor) : Prop :=
  Span.InOrder (Span.clamp c.offset) (Span.clamp d.offset) (rules.map (·.span)) ∧
    ∀ r ∈ rules, r.Grounded text

theorem settles_rules : (Reader.many rule).Traverses text (RulesFit text) :=
  settles_rule.many (failsInPlace_attempt _) (fun _ _ => ⟨Nat.le_refl _, nofun⟩)
    fun _ _ _ _ _ _ _ hr hrs => ⟨hr.1.append hrs.1, List.forall_mem_cons.mpr ⟨hr.2, hrs.2⟩⟩

theorem settles_grammar : grammar.Traverses text fun _ g _ => g.Grounded text := by
  refine .attempt (passes_skip.after fun _ => ?_)
  refine (settles_initializer.option (R := FrontFits text)
    (fun _ _ hcd => ⟨Span.clamp_mono hcd.le, nofun⟩) fun _ _ _ _ hi => hi).bind fun front => ?_
  refine settles_rules.bind fun rules => ?_
  cases rules with
  | nil => exact .fail
  | cons first rest =>
    refine .pure fun d hd m hmd hrules c hcm hfront _ _ => ⟨?_, hfront.2, hrules.2⟩
    refine (hfront.1.append hrules.1).mono (Nat.zero_le _) ?_
    exact Span.clamp_mono hd.offset_le

end Notation

/-! ### Grammars -/

/-- A name is among the references of an expression if the expression refers to it somewhere. -/
theorem Expr.mem_references_iff {e : Expr} {ref : Reference} : ref ∈ e.references ↔
    ∃ i, (Expr.ruleRef i ref.name).Inside e ∧ i.span = ref.span := by
  constructor
  · intro href
    induction e using Expr.inductionOn with
    | choice i items ih | sequence i items ih =>
      rw [references, referencesAll_eq_flatMap] at href
      obtain ⟨e, he, href⟩ := List.mem_flatMap.mp href
      obtain ⟨j, hinside, hspan⟩ := ih e he href
      exact ⟨j, .child he hinside, hspan⟩
    | named _ _ body ih | action _ _ _ body ih | labeled _ _ body ih | lookahead _ _ body ih
    | optional _ body ih | repeated _ _ body ih =>
      obtain ⟨j, hinside, hspan⟩ := ih href
      exact ⟨j, .child List.mem_cons_self hinside, hspan⟩
    | ruleRef i name =>
      obtain rfl := List.mem_singleton.mp href
      exact ⟨i, .self, rfl⟩
    | predicate | literal | charClass | any => cases href
  · rintro ⟨i, hinside, hspan⟩
    have hsubset : ∀ {b : Expr}, (Expr.ruleRef i ref.name).Inside b → ref ∈ b.references := by
      intro b hb
      induction hb with
      | self =>
        rw [references, hspan]
        exact List.mem_singleton_self ref
      | child hc _ ih => exact references_child_subset hc ih
    exact hsubset hinside

namespace Grammar

variable {g : Grammar} {text : String}

/-- A grammar that is read is grounded in its text. -/
theorem grounded_of_parse (h : Grammar.parse text = .ok g) : g.Grounded text.toList := by
  obtain ⟨_, _, -, -, -, -, hgrounded⟩ := Notation.settles_grammar.of_run h
  exact hgrounded

/-- All references of a grammar are listed in the order of the text. -/
theorem Grounded.inOrder_references {cs : List Char} (h : g.Grounded cs) :
    Span.InOrder 0 (Span.clamp (byteLength cs)) (g.references.map (·.span)) := by
  rw [references, List.map_flatMap]
  refine h.inOrder.of_append.flatMap fun r hr => ?_
  have hbody := (h.rules r hr).inOrder
  exact (Expr.inOrder_references (h.rules r hr).parts).mono hbody.1 hbody.2.2

/-- What the check of references complains about is the first thing in the text that it could
complain about. -/
theorem Grounded.undefined_first {cs : List Char} (h : g.Grounded cs) {err : GrammarError}
    (herr : g.checkReferences = .error err) : ∃ ref ∈ g.references,
      err = .undefinedRule ref.name ref.span ∧ g.defines ref.name = false ∧
        ∀ other ∈ g.references, g.defines other.name = false →
          ref.span.start ≤ other.span.start := by
  unfold checkReferences at herr
  split at herr
  · next ref hfound =>
    obtain rfl := Except.error.inj herr
    obtain ⟨hundefined, before, behind, hlist, hdefined⟩ := List.find?_eq_some_iff_append.mp hfound
    refine ⟨ref, List.mem_of_find?_eq_some hfound, rfl, by simpa using hundefined, ?_⟩
    have hordered := h.inOrder_references.pairwise
    rw [List.pairwise_map, hlist] at hordered
    intro other hother hmissing
    rw [hlist] at hother
    rcases List.mem_append.mp hother with hother | hother
    · exact absurd (hdefined other hother) (by simp [hmissing])
    · rcases List.mem_cons.mp hother with rfl | hother
      · exact Nat.le_refl _
      · exact (List.pairwise_cons.mp (List.pairwise_append.mp hordered).2.1).1 other hother
  · cases herr

end Grammar

/-- Where an expression and its parts stand in a text. -/
structure Expr.Situated (text : String) (e : Expr) : Prop where
  lies : e.span.Lies text.toList
  inOrder : Span.InOrder e.span.start e.span.stop (e.children.map Expr.span)
  reference : ∀ i name, e = .ruleRef i name → i.span.textIn? text = some name

/-- Where a grammar and its parts stand in a text. -/
structure Grammar.Situated (text : String) (g : Grammar) : Prop where
  inOrder : Span.InOrder 0 (byteLength text.toList)
    ((g.initializer.map (·.span)).toList ++ g.rules.map (·.span))
  initializer : ∀ i, g.initializer = some i → i.span.Lies text.toList
  rule : ∀ r ∈ g.rules, r.span.Lies text.toList ∧
    Span.InOrder r.span.start r.span.stop [r.body.span]
  expression : ∀ r ∈ g.rules, ∀ e : Expr, e.Inside r.body → e.Situated text

namespace Grammar

/-- In a text that spans can measure, the spans of a grammar are nested and in order, they begin and
end between characters, and under a reference there is its name. So an undefined reference that is
reported is the first one in the text. -/
theorem situated_of_parse {text : String} {g : Grammar} (h : Grammar.parse text = .ok g)
    (hsize : text.utf8ByteSize ≤ Span.maxOffset) : g.Situated text ∧
      ∀ err, g.checkReferences = .error err → ∃ r ∈ g.rules, ∃ i name,
        (Expr.ruleRef i name).Inside r.body ∧ g.defines name = false ∧
          err = .undefinedRule name i.span ∧ ∀ r' ∈ g.rules, ∀ i' name',
            (Expr.ruleRef i' name').Inside r'.body → g.defines name' = false →
              i.span.start ≤ i'.span.start := by
  have hgrounded := grounded_of_parse h
  rw [← Text.byteLength_toList] at hsize
  refine ⟨⟨?_, fun i hi => (hgrounded.initializer i hi).1 hsize, fun r hr => ?_,
    fun r hr e he => ?_⟩, fun err herr => ?_⟩
  · have hinOrder := hgrounded.inOrder
    rwa [Span.clamp_of_le hsize] at hinOrder
  · exact ⟨(hgrounded.rules r hr).lies hsize, (hgrounded.rules r hr).inOrder⟩
  · have hpart := (hgrounded.rules r hr).parts e he
    refine ⟨hpart.lies hsize, hpart.inOrder, fun i name heq => ?_⟩
    rw [Span.textIn?, Text.slice?, hpart.reference hsize i name heq, Option.map_some,
      String.ofList_toList]
  · obtain ⟨ref, href, rfl, hundefined, hfirst⟩ := hgrounded.undefined_first herr
    obtain ⟨r, hr, hmem⟩ := List.mem_flatMap.mp href
    obtain ⟨i, hinside, hspan⟩ := Expr.mem_references_iff.mp hmem
    refine ⟨r, hr, i, ref.name, hinside, hundefined, by rw [hspan],
      fun r' hr' i' name' hinside' => ?_⟩
    rw [hspan]
    refine hfirst ⟨name', i'.span⟩ (List.mem_flatMap.mpr ⟨r', hr', ?_⟩)
    exact Expr.mem_references_iff.mpr ⟨i', hinside', rfl⟩

/-- Two rules, each with a reference to a rule that is missing. -/
def danglingGrammar : Grammar where
  initializer := some ⟨⟨0, 8⟩, " use "⟩
  rules := [
    ⟨⟨8, 29⟩, "s", .named ⟨⟨17, 29⟩, none, none⟩ "é" (.choice ⟨⟨17, 29⟩, none, none⟩
      [.labeled ⟨⟨17, 22⟩, none, none⟩ "n"
        (.repeated ⟨⟨19, 22⟩, none, none⟩ false (.ruleRef ⟨⟨19, 20⟩, none, none⟩ "b")),
      .lookahead ⟨⟨24, 29⟩, none, none⟩ true (.ruleRef ⟨⟨26, 27⟩, none, none⟩ "c")]), 0⟩,
    ⟨⟨29, 38⟩, "b", .action ⟨⟨33, 38⟩, none, none⟩ "n" []
      (.ruleRef ⟨⟨33, 34⟩, none, none⟩ "d"), 0⟩]
  start := "s"

/-- The text of the grammar. -/
def danglingText : String := "{ use }\ns 'é' = n:b* / !(c)\nb = d {n}"

theorem situated_of_parse_dangling : Grammar.parse danglingText = .ok danglingGrammar ∧
    danglingText.utf8ByteSize ≤ Span.maxOffset ∧ danglingGrammar.Situated danglingText ∧
      danglingGrammar.checkReferences = .error (.undefinedRule "c" ⟨26, 27⟩) ∧
        ∀ r ∈ danglingGrammar.rules, ∀ i name, (Expr.ruleRef i name).Inside r.body →
          danglingGrammar.defines name = false → 26 ≤ i.span.start := by
  have hparse : Grammar.parse danglingText = .ok danglingGrammar := by decide +kernel
  have hsize : danglingText.utf8ByteSize ≤ Span.maxOffset := by decide
  have hcheck : danglingGrammar.checkReferences = .error (.undefinedRule "c" ⟨26, 27⟩) := by
    decide +kernel
  obtain ⟨hsituated, hfirst⟩ := situated_of_parse hparse hsize
  obtain ⟨_, _, i, _, -, -, heq, hleast⟩ := hfirst _ hcheck
  injection heq with _ hspan
  exact ⟨hparse, hsize, hsituated, hcheck, by simpa [← hspan] using hleast⟩

end Grammar

end Packrat
