import Packrat.Proofs.ClassSource
import Packrat.Proofs.Tenure

/-!
# Quoted text

A text between double quotes is written character by character, and each character in one of three
ways: as it is, by a letter behind a backslash, or by its code. Which way it was, the first two
characters tell, and how many more belong to it. So what stands behind a character does not run into
it, and a quoted text is the quoted form of no other text. The descriptions of literals are quoted
texts; literals with the same description have the same text.

What is written so, the reader of grammars reads as the same text, up to `U+FFFF`: beyond that a
character is written by two units, and the reader takes each of them for a character.

## Main results

* `Text.quoteChar_append_inj`: what stands behind a quoted character does not run into it
* `Notation.accepts_quoteChar`: a quoted character is read back
* `quote_unambiguous`: both, for whole texts
-/

namespace Packrat

namespace Text

open Notation (escapedChar)

/-- Letters that stand behind a backslash between quotes. -/
def quotedLetters : List Char := ['\\', '"', 'b', 't', 'n', 'f', 'r']

/-- The ways to write a character between double quotes. -/
inductive Quoting : Char → List Char → Prop
  | plain {c : Char} : c ∉ ['\\', '"'] → needsCode c = false → Quoting c [c]
  | letter {c : Char} : c ∈ quotedLetters → Quoting (escapedChar c) ['\\', c]
  | code (c : Char) : Quoting c (escapeByCode c)

theorem quoting_quoteChar (c : Char) : Quoting c (quoteChar c) := by
  unfold quoteChar
  split
  · exact .letter (c := '\\') (by decide)
  · exact .letter (c := '"') (by decide)
  · exact .letter (c := 'b') (by decide)
  · exact .letter (c := 't') (by decide)
  · exact .letter (c := 'n') (by decide)
  · exact .letter (c := 'f') (by decide)
  · exact .letter (c := 'r') (by decide)
  · next hbackslash hquote _ _ _ _ _ =>
    split
    · exact .code c
    · next hcode =>
      refine .plain ?_ (Bool.eq_false_iff.mpr hcode)
      simp only [List.mem_cons, List.not_mem_nil, not_or, or_false]
      exact ⟨hbackslash, hquote⟩

/-! ### Quoted text is unambiguous -/

/-- What a quoted character stands for is told from the text that it begins. -/
theorem unescape_quoting {c : Char} {cs : List Char} (h : Quoting c cs) (rest : List Char) :
    unescape (cs ++ rest) = some (c, rest) := by
  cases h with
  | plain hmarks _ => exact unescape_plain (fun hc => hmarks (hc ▸ List.mem_cons_self)) rest
  | @letter c hc =>
    have hother : ∀ c ∈ quotedLetters, c ∉ ['x', 'u', '0'] := by decide
    exact unescape_letter (hother c hc) rest
  | code => exact unescape_spelling (spelling_escapeByCode c) rest

theorem unescape_quoteChar (c : Char) (rest : List Char) :
    unescape (quoteChar c ++ rest) = some (c, rest) :=
  unescape_quoting (quoting_quoteChar c) rest

/-- What stands behind a quoted character does not run into it. -/
theorem quoteChar_append_inj {c d : Char} {cs ds : List Char}
    (h : quoteChar c ++ cs = quoteChar d ++ ds) : c = d ∧ cs = ds :=
  append_inj_of_unescape unescape_quoteChar h

theorem quoteChar_ne_nil (c : Char) : quoteChar c ≠ [] := by
  intro hnil
  have hnone := unescape_quoteChar c []
  rw [hnil] at hnone
  nomatch hnone

theorem flatMap_quoteChar_inj {cs ds : List Char}
    (h : cs.flatMap quoteChar = ds.flatMap quoteChar) : cs = ds := by
  induction cs generalizing ds with
  | nil =>
    cases ds with
    | nil => rfl
    | cons d ds => exact absurd (List.append_eq_nil_iff.mp h.symm).1 (quoteChar_ne_nil d)
  | cons c cs ih =>
    cases ds with
    | nil => exact absurd (List.append_eq_nil_iff.mp h).1 (quoteChar_ne_nil c)
    | cons d ds =>
      obtain ⟨rfl, hrest⟩ := quoteChar_append_inj h
      rw [ih hrest]

theorem quote_injective {s t : String} (h : quote s = quote t) : s = t := by
  have hchars := congrArg String.toList h
  rw [quote, quote, String.toList_ofList, String.toList_ofList] at hchars
  have hcontent := List.append_cancel_right (List.cons.inj hchars).2
  exact String.toList_inj.mp (flatMap_quoteChar_inj hcontent)

end Text

/-! ### Descriptions of literals -/

/-- A literal is described by its text between quotes. -/
def Op.Described : Op → Prop
  | literal _ value _ description => description = Text.quote value
  | _ => True

namespace Expr

variable {names : List String}

theorem described_all {items : List Expr} {sites sites' : Array CodeSite} {os : List Op}
    (ih : ∀ e ∈ items, ∀ {sites sites' : Array CodeSite} {o : Op},
      e.lower names sites = .ok (o, sites') → ∀ n : Op, n.Inside o → n.Described)
    (h : lowerAll names items sites = .ok (os, sites')) :
    ∀ o ∈ os, ∀ n : Op, n.Inside o → n.Described := by
  induction items generalizing sites os with
  | nil =>
    obtain ⟨rfl, -⟩ := lowerAll_nil.mp h
    nofun
  | cons e es ihes =>
    obtain ⟨b, inner, bs, hb, hbs, rfl⟩ := lowerAll_cons.mp h
    exact List.forall_mem_cons.mpr
      ⟨ih e List.mem_cons_self hb, ihes (fun e he => ih e (List.mem_cons_of_mem _ he)) hbs⟩

/-- Literals are described by their text wherever they stand. -/
theorem described_of_lower (e : Expr) {sites sites' : Array CodeSite} {o : Op}
    (h : e.lower names sites = .ok (o, sites')) : ∀ n : Op, n.Inside o → n.Described := by
  induction e using Expr.inductionOn generalizing sites sites' o with
  | named i name body ih =>
    obtain ⟨_, b, -, hb, rfl⟩ := lower_named.mp h
    exact Op.forall_inside_iff.mpr ⟨trivial, List.forall_mem_singleton.mpr (ih hb)⟩
  | choice i items ih =>
    obtain ⟨_, bs, -, hbs, rfl⟩ := lower_choice.mp h
    exact Op.forall_inside_iff.mpr ⟨trivial, described_all ih hbs⟩
  | action i code params body ih =>
    obtain ⟨_, _, b, inner, -, -, hb, rfl, -⟩ := lower_action.mp h
    exact Op.forall_inside_iff.mpr ⟨trivial, List.forall_mem_singleton.mpr (ih hb)⟩
  | sequence i items ih =>
    obtain ⟨_, _, bs, -, -, hbs, rfl⟩ := lower_sequence.mp h
    exact Op.forall_inside_iff.mpr ⟨trivial, described_all ih hbs⟩
  | labeled i label body ih => exact ih (lower_labeled.mp h).2
  | lookahead i negated body ih =>
    obtain ⟨_, _, b, -, -, hb, rfl⟩ := lower_lookahead.mp h
    exact Op.forall_inside_iff.mpr ⟨trivial, List.forall_mem_singleton.mpr (ih hb)⟩
  | predicate i negated code params =>
    obtain ⟨_, -, rfl, -⟩ := lower_predicate.mp h
    exact Op.forall_inside_iff.mpr ⟨trivial, nofun⟩
  | optional i body ih =>
    obtain ⟨_, b, -, hb, rfl⟩ := lower_optional.mp h
    exact Op.forall_inside_iff.mpr ⟨trivial, List.forall_mem_singleton.mpr (ih hb)⟩
  | repeated i nonempty body ih =>
    obtain ⟨_, b, -, hb, rfl⟩ := lower_repeated.mp h
    exact Op.forall_inside_iff.mpr ⟨trivial, List.forall_mem_singleton.mpr (ih hb)⟩
  | ruleRef i name =>
    obtain ⟨_, rule, -, -, rfl, -⟩ := lower_ruleRef.mp h
    exact Op.forall_inside_iff.mpr ⟨trivial, nofun⟩
  | literal i value ignoreCase =>
    obtain ⟨_, -, rfl, -⟩ := lower_literal.mp h
    exact Op.forall_inside_iff.mpr ⟨rfl, nofun⟩
  | charClass i members raw =>
    obtain ⟨_, -, rfl, -⟩ := lower_charClass.mp h
    exact Op.forall_inside_iff.mpr ⟨trivial, nofun⟩
  | any i =>
    obtain ⟨_, -, rfl, -⟩ := lower_any.mp h
    exact Op.forall_inside_iff.mpr ⟨trivial, nofun⟩

end Expr

theorem described_of_lowerRules {names : List String} {rules : List Rule}
    {sites sites' : Array CodeSite} {rs : List RuleProgram}
    (h : lowerRules names rules sites = .ok (rs, sites')) :
    ∀ r ∈ rs, ∀ n : Op, n.Inside r.body → n.Described := by
  induction rules generalizing sites rs with
  | nil =>
    obtain ⟨rfl, -⟩ := lowerRules_nil.mp h
    nofun
  | cons rule rules ih =>
    obtain ⟨b, inner, bs, hb, hbs, rfl⟩ := lowerRules_cons.mp h
    exact List.forall_mem_cons.mpr ⟨rule.body.described_of_lower hb, ih hbs⟩

namespace Program

/-- The program has a literal with this text and this description. -/
def HasLiteral (p : Program) (value description : String) : Prop :=
  ∃ r ∈ p.rules, ∃ slot ignoreCase, (Op.literal slot value ignoreCase description).Inside r.body

theorem HasLiteral.described {p : Program} {value description : String}
    (h : p.HasLiteral value description) {g : Grammar} (hp : g.lower = .ok p) :
    description = Text.quote value := by
  obtain ⟨rs, code, start, hrs, -, rfl⟩ := Grammar.lower_eq_ok_iff.mp hp
  obtain ⟨r, hr, slot, ignoreCase, hinside⟩ := h
  exact described_of_lowerRules hrs r (Array.mem_toList_iff.mpr hr) _ hinside

end Program

/-! ### Quoted text is readable -/

namespace Notation

open Reader
open Text (Quoting quotedLetters quoteChar escapeByCode)

variable {c : Char} {cs rest : List Char}

/-- A character up to `U+FFFF` is read back from its code. -/
theorem accepts_escapeByCode (h : isBasic c = true) :
    (stringCharacter '"').Accepts (escapeByCode c) rest (· = [c]) := by
  unfold escapeByCode
  split
  · next hpair => exact accepts_escapedCharacter (accepts_pairEscape hpair)
  · rw [Text.utf16Units, if_pos (of_decide_eq_true h), List.flatMap_singleton]
    exact accepts_escapedCharacter (accepts_unitEscape h)

theorem accepts_quoting (h : Quoting c cs) (hbasic : isBasic c = true) :
    (stringCharacter '"').Accepts cs rest (· = [c]) := by
  cases h with
  | plain hmarks hcode =>
    simp only [List.mem_cons, List.not_mem_nil, not_or, or_false] at hmarks
    have hplain : (c != '"' && c != '\\' && !isLineEnd c) = true := by
      simp [hmarks, isLineEnd_of_needsCode hcode]
    exact .orElse ((accepts_charWhere hplain _).map fun _ hc => congrArg (fun c => [c]) hc)
  | @letter c hc =>
    have hletters : ∀ c ∈ quotedLetters,
        (!(c.isDigit || c == 'x' || c == 'u' || isLineEnd c)) = true := by decide
    exact accepts_escapedCharacter (accepts_escape_of (accepts_simpleEscape (hletters c hc)).orElse)
  | code => exact accepts_escapeByCode hbasic

/-- A quoted character up to `U+FFFF` is read back. -/
theorem accepts_quoteChar (h : isBasic c = true) :
    (stringCharacter '"').Accepts (quoteChar c) rest (· = [c]) :=
  accepts_quoting (Text.quoting_quoteChar c) h

/-- A quoted text is read as a literal that does not ignore case. -/
theorem accepts_quoteChars {s : String} (h : s.toList.all isBasic = true) :
    literal.Accepts (Text.quoteChars s.toList) [] (· = (s, false)) := by
  have hstring : ∀ more, quotedString.Accepts (Text.quoteChars s.toList) more (· = s) :=
    fun more => accepts_spelledString fun c hc =>
      ⟨Text.quoteChar_ne_nil c, fun _ => accepts_quoteChar (List.all_eq_true.mp h c hc)⟩
  have hskip : skip.Accepts [] [] anything := accepts_skip rfl atToken_nil
  have hliteral : literal.Accepts (Text.quoteChars s.toList ++ (caseFlag false ++ [])) []
      (· = (s, false)) := accepts_literal_of hstring hskip nofun
  rwa [caseFlag, List.append_nil, if_neg Bool.false_ne_true, List.append_nil] at hliteral

/-- A quoted text behind the beginning of a rule is a grammar with the text as a literal. -/
theorem exists_parse_quote {s : String} (h : s.toList.all isBasic = true) :
    ∃ g r i, Grammar.parse ("a = " ++ Text.quote s) = .ok g ∧ g.rules = [r] ∧
      r.body = .literal i s false := by
  have htext : ("a = " ++ Text.quote s).toList = ruleText (Text.quoteChars s.toList) := by
    rw [Text.quote, String.toList_append]
    exact congrArg ("a = ".toList ++ ·) String.toList_ofList
  have hchoice :
      choice.Accepts (Text.quoteChars s.toList) [] fun e => ∃ i, e = .literal i s false :=
    accepts_choice_primary (fun _ => accepts_primary_literal (accepts_quoteChars h)
      fun span => ⟨_, rfl⟩) rfl (by decide)
  obtain ⟨g, hparse, r, hrules, i, hbody⟩ := Grammar.exists_parse
    (htext ▸ accepts_grammar_single hchoice (atToken_cons rfl rfl (by decide)))
  exact ⟨g, r, i, hparse, hrules, hbody⟩

end Notation

/-- Different texts are quoted differently, so literals of different text have different
descriptions. What is quoted, up to `U+FFFF`, is read as a literal of the text, which is quoted in
the same way. -/
theorem quote_unambiguous :
    (∀ s t : String, Text.quote s = Text.quote t → s = t) ∧
    (∀ {g g' : Grammar} {p p' : Program}, g.lower = .ok p → g'.lower = .ok p' →
      ∀ {value value' description : String}, p.HasLiteral value description →
        p'.HasLiteral value' description → value = value') ∧
    ∀ s : String, s.toList.all isBasic = true →
      ∃ g r i value, Grammar.parse ("a = " ++ Text.quote s) = .ok g ∧ g.rules = [r] ∧
        r.body = .literal i value false ∧ value = s ∧
          "a = " ++ Text.quote value = "a = " ++ Text.quote s := by
  refine ⟨fun s t => Text.quote_injective, ?_, fun s hs => ?_⟩
  · intro g g' p p' hp hp' value value' description h h'
    exact Text.quote_injective ((h.described hp).symm.trans (h'.described hp'))
  · obtain ⟨g, r, i, hparse, hrules, hbody⟩ := Notation.exists_parse_quote hs
    exact ⟨g, r, i, s, hparse, hrules, hbody, rfl, rfl⟩

/-- A grammar of one literal, with its slot. -/
def lineGrammar : Grammar where
  initializer := none
  rules := [⟨default, "s", .literal ⟨default, some 0, none⟩ "\n" false, 1⟩]
  start := "s"

def lineProgram : Program where
  initializer := none
  rules := #[⟨"s", 1, .literal 0 "\n" false "\"\\n\""⟩]
  start := 0
  code := #[]

theorem quote_unambiguous_line :
    (Text.quote "\n" = "\"\\n\"" ∧ "\n" = "\n") ∧
    (lineGrammar.lower = .ok lineProgram ∧ lineProgram.HasLiteral "\n" "\"\\n\"" ∧ "\n" = "\n") ∧
    ∃ g r i value, Grammar.parse "a = \"\\xE9\\n0\"" = .ok g ∧ g.rules = [r] ∧
      r.body = .literal i value false ∧ value = "é\n0" ∧
        "a = " ++ Text.quote value = "a = \"\\xE9\\n0\"" := by
  obtain ⟨hinjective, hliterals, hreads⟩ := quote_unambiguous
  have hlower : lineGrammar.lower = .ok lineProgram := by decide +kernel
  have hliteral : lineProgram.HasLiteral "\n" "\"\\n\"" :=
    ⟨_, Array.mem_singleton_self _, 0, false, .self⟩
  have htext : "a = " ++ Text.quote "é\n0" = "a = \"\\xE9\\n0\"" := by decide +kernel
  have hread := hreads "é\n0" (by decide)
  rw [htext] at hread
  exact ⟨⟨by decide +kernel, hinjective "\n" "\n" rfl⟩,
    ⟨hlower, hliteral, hliterals hlower hlower hliteral hliteral⟩, hread⟩

end Packrat
