import Packrat.Emit.Name
import Packrat.Proofs.SiteLabels

/-!
# Names in emitted source do not clash

The names of functions and parameters are chosen one after the other, each the first candidate that
is not in use. What was wanted does not matter for that: the search passes at most as many
candidates as there are names in use. What a parameter wants to be called does matter for the rest.
A label is spelled like a name of Rust but for `$`, so with `_` in its place it is a word; the words
that mean something else get a `_` at the end or `r#` in front. A number at the end keeps that,
since no word with a meaning of its own has a `_` in it, except `_` itself.

`keywordsOfRust` lists the words of the language on their own account, in the groups of its
reference, and not as the emitter knows them.

## Main results

* `fresh_spec`: the search for a free candidate ends, and with the first one
* `suits_of_candidate`: what every candidate for a parameter is
* `names_distinct`: the names of a program
-/

namespace Packrat.Emit

/-! ### The search -/

/-- The search for a free name ends after at most as many candidates as there are names in use, with
the first one that is not among them. -/
theorem fresh_spec (used : List String) (base : String) :
    ∃ n ≤ used.length, (∀ m < n, candidate base m ∈ used) ∧ candidate base n ∉ used ∧
      fresh used base = candidate base n := by
  have hexists : ∃ n, candidate base n ∉ used := by
    obtain ⟨n, -, hn⟩ := exists_candidate_notMem used base
    exact ⟨n, hn⟩
  have hfree := Nat.find_spec hexists
  have htaken : ∀ m < Nat.find hexists, candidate base m ∈ used := fun m hm =>
    Decidable.not_not.mp (Nat.find_min hexists hm)
  have hle : Nat.find hexists ≤ used.length := by
    obtain ⟨n, hn, hmem⟩ := exists_candidate_notMem used base
    exact Nat.le_trans (Nat.find_min' hexists hmem) hn
  refine ⟨_, hle, htaken, hfree, ?_⟩
  have hfind : ((List.range (used.length + 1)).map (candidate base)).find? (· ∉ used) =
      some (candidate base (Nat.find hexists)) := by
    rw [List.find?_map, Option.map_eq_some_iff]
    refine ⟨_, List.find?_range_eq_some.mpr ⟨?_, ?_, fun m hm => ?_⟩, rfl⟩
    · exact decide_eq_true hfree
    · exact List.mem_range.mpr (Nat.lt_succ_of_le hle)
    · simpa using htaken m hm
  rw [fresh, hfind]
  rfl

/-- Each name is a candidate for what was wanted in its place. -/
theorem candidates_distinct (used bases : List String) :
    List.Forall₂ (fun base name => ∃ n, name = candidate base n) bases (distinct used bases) := by
  induction bases generalizing used with
  | nil => exact .nil
  | cons base bases ih =>
    obtain ⟨n, -, -, -, hfresh⟩ := fresh_spec used base
    exact .cons ⟨n, hfresh⟩ (ih _)

/-! ### Words of Rust -/

/-- The keywords of Rust: the strict ones and those that are reserved. -/
def keywordsOfRust : List String := [
  "as", "break", "const", "continue", "crate", "else", "enum", "extern", "false", "fn", "for", "if",
  "impl", "in", "let", "loop", "match", "mod", "move", "mut", "pub", "ref", "return", "self",
  "Self",
  "static", "struct", "super", "trait", "true", "type", "unsafe", "use", "where", "while", "async",
  "await", "dyn",
  "abstract", "become", "box", "do", "final", "macro", "override", "priv", "typeof", "unsized",
  "virtual", "yield", "try", "gen"]

/-- What can be no identifier, not even with `r#` in front. -/
def neverIdentifiers : List String := ["self", "Self", "super", "crate", "_"]

/-- Whether a character may stand in an identifier behind the first one. -/
def isWordTail (c : Char) : Bool := c.isAlphanum || c == '_'

/-- Whether a text consists of letters, digits and `_`, and begins with no digit. -/
def isWord (name : String) : Bool :=
  match name.toList with
  | [] => false
  | c :: cs => (c.isAlpha || c == '_') && cs.all isWordTail

/-- What Rust reads as one identifier: a word without a meaning of its own, or a raw one. -/
inductive IsIdentifier : String → Prop
  | plain {name : String} : isWord name = true → name ∉ keywordsOfRust → name ≠ "_" →
    IsIdentifier name
  | raw {word : String} : isWord word = true → word ∉ neverIdentifiers →
    IsIdentifier ("r#" ++ word)

/-- What the name of a parameter is like that a label gets. -/
structure Suits (label name : String) : Prop where
  candidate : ∃ n, name = candidate (identifier label) n
  identifier : IsIdentifier name
  /-- Keywords are made raw, and nothing else is. -/
  raw : (∃ word, name = "r#" ++ word) ↔ label ∈ keywordsOfRust ∧ label ∉ neverIdentifiers
  /-- The other parameters keep their names, and what is none is none. -/
  other : name ∉ ["offset", "line", "column"] ∧ name ∉ neverIdentifiers

/-! ### Words -/

variable {label word : String}

theorem toList_undollar (name : String) :
    (undollar name).toList = name.toList.map fun c => if c = '$' then '_' else c := by
  rw [undollar, String.toList_ofList]

theorem isWord_undollar (h : Packrat.isIdentifier label = true) :
    isWord (undollar label) = true := by
  obtain ⟨c, cs, hlabel, hc, hcs⟩ := Notation.exists_of_isIdentifier h
  have htail : ∀ d ∈ cs, isWordTail (if d = '$' then '_' else d) = true := by
    intro d hd
    have htail := List.all_eq_true.mp hcs d hd
    by_cases hdollar : d = '$'
    · rw [if_pos hdollar]
      decide
    · simpa [isWordTail, Notation.isIdentifierTail, Notation.isIdentifierHead, Char.isAlphanum,
        hdollar, or_right_comm] using htail
  rw [isWord, toList_undollar, hlabel, List.map_cons]
  refine Bool.and_eq_true_iff.mpr ⟨?_, List.all_eq_true.mpr (List.forall_mem_map.mpr htail)⟩
  by_cases hdollar : c = '$'
  · rw [if_pos hdollar]
    decide
  · simpa [Notation.isIdentifierHead, hdollar] using hc

theorem isWord_append (h : isWord word = true) {more : String}
    (hmore : more.toList.all isWordTail = true) : isWord (word ++ more) = true := by
  rw [isWord] at h ⊢
  rw [String.toList_append]
  cases hword : word.toList with
  | nil =>
    rw [hword] at h
    nomatch h
  | cons c cs =>
    rw [hword] at h
    obtain ⟨hc, hcs⟩ := Bool.and_eq_true_iff.mp h
    refine Bool.and_eq_true_iff.mpr ⟨hc, ?_⟩
    show (cs ++ more.toList).all isWordTail = true
    rw [List.all_append, hcs, hmore]
    rfl

theorem isWord_candidate (h : isWord word = true) (n : Nat) : isWord (candidate word n) = true := by
  cases n with
  | zero => exact h
  | succ n =>
    refine isWord_append (isWord_append h (by decide)) (List.all_eq_true.mpr fun c hc => ?_)
    have hdigit : c.isDigit = true := by
      rw [Nat.toString_eq_repr, Nat.toList_repr] at hc
      exact Nat.isDigit_of_mem_toDigits (by decide) (by decide) hc
    rw [isWordTail, Char.isAlphanum, hdigit, Bool.or_true, Bool.true_or]

theorem toList_ne_nil_of_isWord (h : isWord word = true) : word.toList ≠ [] := by
  intro hword
  rw [isWord, hword] at h
  nomatch h

/-- The mark of raw identifiers is in no word. -/
theorem notMem_of_isWord (h : isWord word = true) : '#' ∉ word.toList := by
  rw [isWord] at h
  cases hword : word.toList with
  | nil => exact List.not_mem_nil
  | cons c cs =>
    rw [hword] at h
    obtain ⟨hc, hcs⟩ := Bool.and_eq_true_iff.mp h
    intro hmem
    rcases List.mem_cons.mp hmem with rfl | hmem
    · nomatch hc
    · nomatch List.all_eq_true.mp hcs '#' hmem

/-! ### Words with a meaning -/

/-- The words that no parameter for a label may be. -/
def meaningful : List String := keywordsOfRust ++ ["offset", "line", "column", "_"]

theorem notMem_meaningful (hmem : '_' ∈ word.toList) (hne : word ≠ "_") : word ∉ meaningful := by
  have hall : ∀ w ∈ meaningful, '_' ∈ w.toList → w = "_" := by decide
  exact fun h => hne (hall word h hmem)

/-- With something in front of the `_`, a word is not `_` and has no meaning. -/
theorem numbered (h : isWord word = true) (more : String) :
    '_' ∈ (word ++ "_" ++ more).toList ∧ word ++ "_" ++ more ≠ "_" := by
  constructor
  · simp [String.toList_append]
  · intro heq
    have hlength := congrArg (List.length ∘ String.toList) heq
    have hpos := List.length_pos_iff.mpr (toList_ne_nil_of_isWord h)
    simp only [Function.comp_apply, String.toList_append, List.length_append] at hlength
    have hone : "_".toList.length = 1 := rfl
    omega

theorem candidate_notMem {words : List String} (h : isWord word = true)
    (hwords : ∀ w ∈ words, '_' ∈ w.toList → w = "_") (hword : word ∉ words) (n : Nat) :
    candidate word n ∉ words := by
  cases n with
  | zero => exact hword
  | succ n =>
    obtain ⟨hmem, hne⟩ := numbered h (toString (n + 2))
    exact fun hin => hne (hwords _ hin hmem)

/-! ### What a label becomes -/

theorem undollar_of_mem_keywords (h : label ∈ keywordsOfRust) : undollar label = label := by
  have hall : ∀ w ∈ keywordsOfRust, undollar w = w := by decide +kernel
  exact hall label h

/-- Where no `_` has come about, no `$` has gone. -/
theorem undollar_of_notMem (h : '_' ∉ (undollar label).toList) : undollar label = label := by
  have hkeep : ∀ c ∈ label.toList, (if c = '$' then '_' else c) = c := by
    intro c hc
    refine if_neg fun hdollar => h ?_
    rw [toList_undollar]
    exact List.mem_map.mpr ⟨c, hc, if_pos hdollar⟩
  rw [← String.toList_inj, toList_undollar, List.map_congr_left hkeep, List.map_id']

/-- A keyword is made raw, and any other label becomes a word without a meaning. -/
theorem identifier_cases (h : Packrat.isIdentifier label = true) :
    (identifier label = "r#" ++ label ∧ isWord label = true ∧ label ∈ keywordsOfRust ∧
      label ∉ neverIdentifiers) ∨
    (isWord (identifier label) = true ∧ identifier label ∉ meaningful ∧
      ¬ (label ∈ keywordsOfRust ∧ label ∉ neverIdentifiers)) := by
  have hword := isWord_undollar h
  rw [identifier]
  split
  · next hreserved =>
    obtain ⟨hmem, hne⟩ := numbered hword ""
    rw [String.append_empty] at hmem hne
    refine .inr ⟨isWord_append hword (by decide), notMem_meaningful hmem hne, ?_⟩
    rintro ⟨hkeyword, hnever⟩
    have hboth : ∀ w ∈ keywordsOfRust, w ∈ reserved → w ∈ neverIdentifiers := by decide
    exact hnever (hboth label hkeyword (undollar_of_mem_keywords hkeyword ▸ hreserved))
  · next hreserved =>
    have hknown : ∀ w ∈ meaningful, w ∈ keywords ∨ w ∈ reserved := by decide
    split
    · next hkeyword =>
      have hall : ∀ w ∈ keywords, '_' ∉ w.toList ∧ w ∈ keywordsOfRust ∧ w ∉ neverIdentifiers := by
        decide
      obtain ⟨hplain, hrust, hnever⟩ := hall _ hkeyword
      rw [undollar_of_notMem hplain] at hword hrust hnever ⊢
      exact .inl ⟨rfl, hword, hrust, hnever⟩
    · next hkeyword =>
      refine .inr ⟨hword, fun hmem => ?_, fun hrust => ?_⟩
      · exact (hknown _ hmem).elim hkeyword hreserved
      · have hmem := List.mem_append_left ["offset", "line", "column", "_"] hrust.1
        rw [undollar_of_mem_keywords hrust.1] at hkeyword hreserved
        exact (hknown label hmem).elim hkeyword hreserved

theorem append_candidate (mark base : String) (n : Nat) :
    candidate (mark ++ base) n = mark ++ candidate base n := by
  cases n <;> simp [candidate, String.append_assoc]

/-- Whatever candidate is taken for a label, it suits. -/
theorem suits_of_candidate (h : Packrat.isIdentifier label = true) (n : Nat) :
    Suits label (candidate (identifier label) n) := by
  have hmark : ∀ word : String, '#' ∈ ("r#" ++ word).toList := by simp [String.toList_append]
  obtain ⟨hraw, hword, hkeyword, hnever⟩ | ⟨hword, hplain, hkeyword⟩ := identifier_cases h
  · rw [hraw, append_candidate]
    refine ⟨⟨n, by rw [hraw, append_candidate]⟩, .raw (isWord_candidate hword n) ?_,
      ⟨fun _ => ⟨hkeyword, hnever⟩, fun _ => ⟨_, rfl⟩⟩, fun hmem => ?_, fun hmem => ?_⟩
    · exact candidate_notMem hword (by decide) hnever n
    · have hall : ∀ w ∈ ["offset", "line", "column"], '#' ∉ w.toList := by decide
      exact hall _ hmem (hmark _)
    · have hall : ∀ w ∈ neverIdentifiers, '#' ∉ w.toList := by decide
      exact hall _ hmem (hmark _)
  · have hname := candidate_notMem hword (by decide) hplain n
    have hkeywords : ∀ w ∈ keywordsOfRust ++ ["offset", "line", "column"] ++ neverIdentifiers,
        w ∈ meaningful := by decide
    simp only [List.forall_mem_append] at hkeywords
    refine ⟨⟨n, rfl⟩, .plain (isWord_candidate hword n) ?_ ?_, ⟨?_, fun hno => absurd hno hkeyword⟩,
      ?_, ?_⟩
    · exact fun hmem => hname (hkeywords.1.1 _ hmem)
    · exact fun heq => hname (heq ▸ hkeywords.2 "_" (by decide))
    · rintro ⟨word, heq⟩
      exact absurd (heq ▸ hmark word) (notMem_of_isWord (isWord_candidate hword n))
    · exact fun hmem => hname (hkeywords.1.2 _ hmem)
    · exact fun hmem => hname (hkeywords.2 _ hmem)

/-! ### Programs -/

/-- The functions of the rules have different names, also where rules share one. The parameters of a
code block have different names, one for each label that the block sees, and each of them suits its
label. The search for a free name always ends. -/
theorem names_distinct {text : String} {g g' : Grammar} {p : Program}
    (h : Grammar.parse text = .ok g) (hg : g' = g ∨ g' = g.removeProxies.1)
    (hp : g'.assignSlots.lower = .ok p) :
    ((ruleFunctions p.ruleNames).length = p.rules.size ∧ (ruleFunctions p.ruleNames).Nodup) ∧
    (∀ site ∈ p.code, (parameters site.labels).Nodup ∧
      List.Forall₂ Suits site.labels (parameters site.labels)) ∧
    ∀ (used : List String) (base : String), ∃ n ≤ used.length, (∀ m < n, candidate base m ∈ used) ∧
      candidate base n ∉ used ∧ fresh used base = candidate base n := by
  refine ⟨⟨?_, nodup_distinct _ _⟩, fun site hsite => ⟨nodup_distinct _ _, ?_⟩, fresh_spec⟩
  · simp [ruleFunctions, Program.ruleNames]
  · have hlabels := (Grammar.lists_of_lower (Grammar.labels_of_parse h) hg hp site hsite).names
    have hcandidates := List.forall₂_map_left_iff.mp
      (candidates_distinct [] (site.labels.map identifier))
    refine ((List.forall₂_and_left _ _).mpr ⟨hlabels, hcandidates⟩).imp ?_
    rintro label _ ⟨hlabel, n, rfl⟩
    exact suits_of_candidate hlabel n

/-- Labels that differ in a `$`, one that is called like another parameter and one like a keyword,
and two rules of one name. -/
def clashingText : String := "s=a$:.a_:.offset:.match:.\x7bc\x7d;s=."

def clashingGrammar : Grammar where
  initializer := none
  rules := [
    ⟨⟨0, 29⟩, "s", .action ⟨⟨2, 28⟩, none, none⟩ "c" [] (.sequence ⟨⟨2, 25⟩, none, none⟩
      [.labeled ⟨⟨2, 6⟩, none, none⟩ "a$" (.any ⟨⟨5, 6⟩, none, none⟩),
        .labeled ⟨⟨6, 10⟩, none, none⟩ "a_" (.any ⟨⟨9, 10⟩, none, none⟩),
        .labeled ⟨⟨10, 18⟩, none, none⟩ "offset" (.any ⟨⟨17, 18⟩, none, none⟩),
        .labeled ⟨⟨18, 25⟩, none, none⟩ "match" (.any ⟨⟨24, 25⟩, none, none⟩)]), 0⟩,
    ⟨⟨29, 32⟩, "s", .any ⟨⟨31, 32⟩, none, none⟩, 0⟩]
  start := "s"

def clashingProgram : Program where
  initializer := none
  rules := #[
    ⟨"s", 7, .action 0 1 0 [3, 4, 5, 6] (.sequence 0 2 [.any 3, .any 4, .any 5, .any 6])⟩,
    ⟨"s", 1, .any 0⟩]
  start := 0
  code := #[⟨.action, "c", ["a$", "a_", "offset", "match"]⟩]

theorem names_distinct_clashing :
    Grammar.parse clashingText = .ok clashingGrammar ∧
      clashingGrammar.assignSlots.lower = .ok clashingProgram ∧
        ruleFunctions clashingProgram.ruleNames = ["parse_s", "parse_s_2"] ∧
          parameters ["a$", "a_", "offset", "match"] = ["a_", "a__2", "offset_", "r#match"] ∧
            List.Forall₂ Suits ["a$", "a_", "offset", "match"]
              (parameters ["a$", "a_", "offset", "match"]) := by
  have hparse : Grammar.parse clashingText = .ok clashingGrammar := by decide +kernel
  have hlower : clashingGrammar.assignSlots.lower = .ok clashingProgram := by decide +kernel
  have hnames := names_distinct hparse (.inl rfl) hlower
  exact ⟨hparse, hlower, by decide +kernel, by decide +kernel,
    (hnames.2.1 _ (Array.mem_singleton_self _)).2⟩

end Packrat.Emit
