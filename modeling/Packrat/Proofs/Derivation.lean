/-!
# Parsing expression grammars

Parsing expressions over nonterminals, and what they derive. An expression either fails at the front
of a text or matches a prefix of it, and then leaves the trees of what it matched and the rest. A
choice takes its second alternative only where the first one fails, a repetition goes on as long as
it can, and `absent` looks ahead without consuming.

The relation `Derives` says which outcome there is without saying how it is found. There is never
more than one (`Derives.unique`), but there may be none, as in a grammar that is left recursive.

A tree has a leaf for every character that was matched and a node for every nonterminal. What was
looked at and not consumed, or tried and given up, is not in it.

## Main results

* `Derives.unique`: an expression has at most one outcome on a text
* `Derives.text`: the trees spell what was matched
* `Begins`: how the matches of an expression may begin, which also shows that they are not empty
-/

namespace Packrat

/-- A parsing expression over nonterminals. -/
inductive Peg (ν : Type) where
  | empty
  /-- One character that satisfies `p`. -/
  | char (p : Char → Bool)
  | call (a : ν)
  | seq (e f : Peg ν)
  /-- The first expression, or the second where the first one fails. -/
  | choice (e f : Peg ν)
  /-- As many matches as there are, one behind the other. -/
  | many (e : Peg ν)
  /-- Matches nothing, provided that the expression fails. -/
  | absent (e : Peg ν)

/-- What was matched, by nonterminals. -/
inductive ParseTree (ν : Type) where
  | leaf (c : Char)
  | node (a : ν) (children : List (ParseTree ν))

namespace ParseTree

variable {ν : Type}

mutual
/-- The characters at the leaves. -/
def text : ParseTree ν → List Char
  | leaf c => [c]
  | node _ ts => textAll ts

/-- The characters at the leaves of several trees. -/
def textAll : List (ParseTree ν) → List Char
  | [] => []
  | t :: ts => t.text ++ textAll ts
end

@[simp] theorem textAll_append (ts us : List (ParseTree ν)) :
    textAll (ts ++ us) = textAll ts ++ textAll us := by
  induction ts with
  | nil => rfl
  | cons t ts ih => rw [List.cons_append, textAll, textAll, ih, List.append_assoc]

@[simp] theorem textAll_leaf (cs : List Char) :
    textAll (cs.map (leaf : Char → ParseTree ν)) = cs := by
  induction cs with
  | nil => rfl
  | cons c cs ih => rw [List.map_cons, textAll, ih, text, List.singleton_append]

/-- The first tree is part of the second, or is it. -/
inductive Within (t : ParseTree ν) : ParseTree ν → Prop
  | self : Within t t
  | child {u : ParseTree ν} {a : ν} {us : List (ParseTree ν)} : u ∈ us → Within t u →
      Within t (.node a us)

end ParseTree

namespace Peg

variable {ν : Type}

/-- The given characters in order. -/
def chars : List Char → Peg ν
  | [] => empty
  | c :: cs => seq (char (· == c)) (chars cs)

/-- The given text. -/
def text (value : String) : Peg ν := chars value.toList

/-- Any one character. -/
def any : Peg ν := char fun _ => true

/-- One character from the given ranges. -/
def set (ranges : List (Char × Char)) : Peg ν :=
  char fun c => ranges.any fun r => r.1 ≤ c && c ≤ r.2

/-- The expressions one behind the other. -/
def inOrder : List (Peg ν) → Peg ν
  | [] => empty
  | [e] => e
  | e :: es => seq e (inOrder es)

/-- The first of the expressions that does not fail. -/
def firstOf : List (Peg ν) → Peg ν
  | [] => absent empty
  | [e] => e
  | e :: es => choice e (firstOf es)

/-- The expression, or nothing where it fails. -/
def opt (e : Peg ν) : Peg ν := choice e empty

/-- The expression at least once. -/
def atLeastOne (e : Peg ν) : Peg ν := seq e (many e)

/-- The expression a number of times. -/
def times : Nat → Peg ν → Peg ν
  | 0, _ => empty
  | n + 1, e => seq e (times n e)

/-- Whether all nonterminals in the expression are of a kind. -/
def callsOnly (kind : ν → Bool) : Peg ν → Bool
  | call a => kind a
  | seq e f | choice e f => callsOnly kind e && callsOnly kind f
  | many e | absent e => callsOnly kind e
  | empty | char _ => true

theorem callsOnly_chars (kind : ν → Bool) (value : List Char) :
    callsOnly kind (chars value) = true := by
  induction value with
  | nil => rfl
  | cons c value ih => rw [chars, callsOnly, callsOnly, ih, Bool.true_and]

end Peg

section

variable {ν : Type} {rules : ν → Peg ν}

/-- The outcome of an expression in front of a text: failure, or trees and the rest of the text. -/
inductive Derives (rules : ν → Peg ν) :
    Peg ν → List Char → Option (List (ParseTree ν) × List Char) → Prop
  | empty {cs : List Char} : Derives rules .empty cs (some ([], cs))
  | char {p : Char → Bool} {c : Char} {cs : List Char} : p c = true →
      Derives rules (.char p) (c :: cs) (some ([.leaf c], cs))
  | charOther {p : Char → Bool} {c : Char} {cs : List Char} : p c = false →
      Derives rules (.char p) (c :: cs) none
  | charEnd {p : Char → Bool} : Derives rules (.char p) [] none
  | call {a : ν} {cs rest : List Char} {ts : List (ParseTree ν)} :
      Derives rules (rules a) cs (some (ts, rest)) →
        Derives rules (.call a) cs (some ([.node a ts], rest))
  | callFails {a : ν} {cs : List Char} : Derives rules (rules a) cs none →
      Derives rules (.call a) cs none
  | seq {e f : Peg ν} {cs rest rest' : List Char} {ts us : List (ParseTree ν)} :
      Derives rules e cs (some (ts, rest)) → Derives rules f rest (some (us, rest')) →
        Derives rules (.seq e f) cs (some (ts ++ us, rest'))
  | seqFirst {e f : Peg ν} {cs : List Char} : Derives rules e cs none →
      Derives rules (.seq e f) cs none
  | seqSecond {e f : Peg ν} {cs rest : List Char} {ts : List (ParseTree ν)} :
      Derives rules e cs (some (ts, rest)) → Derives rules f rest none →
        Derives rules (.seq e f) cs none
  | choiceFirst {e f : Peg ν} {cs rest : List Char} {ts : List (ParseTree ν)} :
      Derives rules e cs (some (ts, rest)) → Derives rules (.choice e f) cs (some (ts, rest))
  | choiceSecond {e f : Peg ν} {cs : List Char} {o : Option (List (ParseTree ν) × List Char)} :
      Derives rules e cs none → Derives rules f cs o → Derives rules (.choice e f) cs o
  | manyEnd {e : Peg ν} {cs : List Char} : Derives rules e cs none →
      Derives rules (.many e) cs (some ([], cs))
  | manyMore {e : Peg ν} {cs rest rest' : List Char} {ts us : List (ParseTree ν)} :
      Derives rules e cs (some (ts, rest)) → Derives rules (.many e) rest (some (us, rest')) →
        Derives rules (.many e) cs (some (ts ++ us, rest'))
  | absent {e : Peg ν} {cs : List Char} : Derives rules e cs none →
      Derives rules (.absent e) cs (some ([], cs))
  | absentFails {e : Peg ν} {cs rest : List Char} {ts : List (ParseTree ν)} :
      Derives rules e cs (some (ts, rest)) → Derives rules (.absent e) cs none

namespace Derives

variable {e f : Peg ν} {cs rest : List Char} {ts : List (ParseTree ν)}
  {o o' : Option (List (ParseTree ν) × List Char)}

/-- An expression has at most one outcome on a text. -/
theorem unique (h : Derives rules e cs o) (h' : Derives rules e cs o') : o = o' := by
  induction h generalizing o' with
  | empty => cases h'; rfl
  | char hp => cases h' <;> simp_all
  | charOther hp => cases h' <;> simp_all
  | charEnd => cases h'; rfl
  | call _ ih =>
    cases h' with
    | call h' => cases ih h'; rfl
    | callFails h' => nomatch ih h'
  | callFails _ ih =>
    cases h' with
    | call h' => nomatch ih h'
    | callFails h' => rfl
  | seq _ _ ihe ihf =>
    cases h' with
    | seq he hf => cases ihe he; cases ihf hf; rfl
    | seqFirst he => nomatch ihe he
    | seqSecond he hf => cases ihe he; nomatch ihf hf
  | seqFirst _ ihe =>
    cases h' with
    | seq he hf => nomatch ihe he
    | seqFirst he => rfl
    | seqSecond he hf => rfl
  | seqSecond _ _ ihe ihf =>
    cases h' with
    | seq he hf => cases ihe he; nomatch ihf hf
    | seqFirst he => rfl
    | seqSecond he hf => rfl
  | choiceFirst _ ihe =>
    cases h' with
    | choiceFirst he => exact ihe he
    | choiceSecond he hf => nomatch ihe he
  | choiceSecond _ _ ihe ihf =>
    cases h' with
    | choiceFirst he => nomatch ihe he
    | choiceSecond he hf => exact ihf hf
  | manyEnd _ ihe =>
    cases h' with
    | manyEnd he => rfl
    | manyMore he hmore => nomatch ihe he
  | manyMore _ _ ihe ihmore =>
    cases h' with
    | manyEnd he => nomatch ihe he
    | manyMore he hmore => cases ihe he; cases ihmore hmore; rfl
  | absent _ ihe =>
    cases h' with
    | absent he => rfl
    | absentFails he => nomatch ihe he
  | absentFails _ ihe =>
    cases h' with
    | absent he => nomatch ihe he
    | absentFails he => rfl

/-- The trees spell what was matched. -/
theorem text (h : Derives rules e cs (some (ts, rest))) : cs = ParseTree.textAll ts ++ rest := by
  generalize ho : some (ts, rest) = o at h
  induction h generalizing ts rest with
  | empty =>
    obtain ⟨rfl, rfl⟩ := Prod.mk.inj (Option.some.inj ho)
    rfl
  | char hp =>
    obtain ⟨rfl, rfl⟩ := Prod.mk.inj (Option.some.inj ho)
    rfl
  | call _ ih =>
    obtain ⟨rfl, rfl⟩ := Prod.mk.inj (Option.some.inj ho)
    rw [ParseTree.textAll, ParseTree.textAll, ParseTree.text, List.append_nil]
    exact ih rfl
  | seq _ _ ihe ihf =>
    obtain ⟨rfl, rfl⟩ := Prod.mk.inj (Option.some.inj ho)
    rw [ParseTree.textAll_append, List.append_assoc, ← ihf rfl]
    exact ihe rfl
  | choiceFirst _ ihe => exact ihe ho
  | choiceSecond _ _ _ ihf => exact ihf ho
  | manyEnd _ _ =>
    obtain ⟨rfl, rfl⟩ := Prod.mk.inj (Option.some.inj ho)
    rfl
  | manyMore _ _ ihe ihmore =>
    obtain ⟨rfl, rfl⟩ := Prod.mk.inj (Option.some.inj ho)
    rw [ParseTree.textAll_append, List.append_assoc, ← ihmore rfl]
    exact ihe rfl
  | absent _ _ =>
    obtain ⟨rfl, rfl⟩ := Prod.mk.inj (Option.some.inj ho)
    rfl
  | charOther | charEnd | callFails | seqFirst | seqSecond | absentFails => nomatch ho

theorem length_le (h : Derives rules e cs (some (ts, rest))) : rest.length ≤ cs.length := by
  rw [h.text, List.length_append]
  exact Nat.le_add_left _ _

/-- Nonterminals of a kind that lead to each other alone have no others in their trees. -/
theorem kind_of_within {kind : ν → Bool}
    (hrules : ∀ a, kind a = true → (rules a).callsOnly kind = true)
    (h : Derives rules e cs (some (ts, rest))) (he : e.callsOnly kind = true) {a : ν}
    {us : List (ParseTree ν)} {t : ParseTree ν} (ht : t ∈ ts)
    (hwithin : (ParseTree.node a us).Within t) : kind a = true := by
  generalize ho : some (ts, rest) = o at h
  induction h generalizing ts rest t with
  | empty | manyEnd | absent =>
    obtain ⟨rfl, -⟩ := Prod.mk.inj (Option.some.inj ho)
    nomatch ht
  | char =>
    obtain ⟨rfl, -⟩ := Prod.mk.inj (Option.some.inj ho)
    obtain rfl := List.mem_singleton.mp ht
    nomatch hwithin
  | call _ ih =>
    obtain ⟨rfl, -⟩ := Prod.mk.inj (Option.some.inj ho)
    obtain rfl := List.mem_singleton.mp ht
    cases hwithin with
    | self => exact he
    | child hu hwithin => exact ih (hrules _ he) hu hwithin rfl
  | seq _ _ ihe ihf =>
    obtain ⟨rfl, -⟩ := Prod.mk.inj (Option.some.inj ho)
    obtain ⟨he, hf⟩ := Bool.and_eq_true_iff.mp he
    rcases List.mem_append.mp ht with ht | ht
    · exact ihe he ht hwithin rfl
    · exact ihf hf ht hwithin rfl
  | choiceFirst _ ih => exact ih (Bool.and_eq_true_iff.mp he).1 ht hwithin ho
  | choiceSecond _ _ _ ih => exact ih (Bool.and_eq_true_iff.mp he).2 ht hwithin ho
  | manyMore _ _ ihe ihmore =>
    obtain ⟨rfl, -⟩ := Prod.mk.inj (Option.some.inj ho)
    rcases List.mem_append.mp ht with ht | ht
    · exact ihe he ht hwithin rfl
    · exact ihmore he ht hwithin rfl
  | charOther | charEnd | callFails | seqFirst | seqSecond | absentFails => nomatch ho

/-! ### Derived forms -/

/-- Characters in order match where the text begins with them. -/
theorem chars (value rest : List Char) :
    Derives rules (.chars value) (value ++ rest) (some (value.map .leaf, rest)) := by
  induction value with
  | nil => exact .empty
  | cons c value ih => exact .seq (.char (p := (· == c)) (beq_self_eq_true c)) ih

/-- Characters in order do not match anywhere else. -/
theorem chars_fail {value cs : List Char} (h : ¬ value <+: cs) :
    Derives rules (.chars value) cs none := by
  induction value generalizing cs with
  | nil => exact absurd List.nil_prefix h
  | cons c value ih =>
    cases cs with
    | nil => exact .seqFirst .charEnd
    | cons d cs =>
      by_cases hd : d = c
      · subst hd
        refine .seqSecond (.char (p := (· == d)) (beq_self_eq_true d)) (ih fun hprefix => h ?_)
        exact List.cons_prefix_cons.mpr ⟨rfl, hprefix⟩
      · exact .seqFirst (.charOther (p := (· == c)) (beq_eq_false_iff_ne.mpr hd))

theorem chars_other {c d : Char} {value : List Char} (h : d ≠ c) :
    Derives rules (.chars (c :: value)) (d :: cs) none :=
  chars_fail fun hprefix => h (List.cons_prefix_cons.mp hprefix).1.symm

/-- What a choice has in common may be matched first. -/
theorem factor {a : Peg ν} (h : Derives rules (.seq a (.choice e f)) cs o) :
    Derives rules (.choice (.seq a e) (.seq a f)) cs o := by
  cases h with
  | seq ha hef =>
    cases hef with
    | choiceFirst he => exact .choiceFirst (.seq ha he)
    | choiceSecond he hf => exact .choiceSecond (.seqSecond ha he) (.seq ha hf)
  | seqFirst ha => exact .choiceSecond (.seqFirst ha) (.seqFirst ha)
  | seqSecond ha hef =>
    cases hef with
    | choiceSecond he hf => exact .choiceSecond (.seqSecond ha he) (.seqSecond ha hf)

theorem seq_empty (h : Derives rules (.seq e .empty) cs o) : Derives rules e cs o := by
  cases h with
  | seq he hempty =>
    cases hempty
    rwa [List.append_nil]
  | seqFirst he => exact he
  | seqSecond he hempty => nomatch hempty

theorem seq_mono {f' : Peg ν} (h : Derives rules (.seq e f) cs o)
    (hf : ∀ {cs o}, Derives rules f cs o → Derives rules f' cs o) :
    Derives rules (.seq e f') cs o := by
  cases h with
  | seq h h' => exact .seq h (hf h')
  | seqFirst h => exact .seqFirst h
  | seqSecond h h' => exact .seqSecond h (hf h')

theorem choice_mono {e' f' : Peg ν} (h : Derives rules (.choice e f) cs o)
    (he : ∀ {cs o}, Derives rules e cs o → Derives rules e' cs o)
    (hf : ∀ {cs o}, Derives rules f cs o → Derives rules f' cs o) :
    Derives rules (.choice e' f') cs o := by
  cases h with
  | choiceFirst h => exact .choiceFirst (he h)
  | choiceSecond h h' => exact .choiceSecond (he h) (hf h')

theorem choice_assoc {a : Peg ν} (h : Derives rules (.choice (.choice a e) f) cs o) :
    Derives rules (.choice a (.choice e f)) cs o := by
  cases h with
  | choiceFirst h =>
    cases h with
    | choiceFirst ha => exact .choiceFirst ha
    | choiceSecond ha he => exact .choiceSecond ha (.choiceFirst he)
  | choiceSecond h hf =>
    cases h with
    | choiceSecond ha he => exact .choiceSecond ha (.choiceSecond he hf)

theorem opt_ne_none : ¬ Derives rules (.opt e) cs none := by
  intro h
  cases h with
  | choiceSecond _ hempty => nomatch hempty

theorem many_ne_none : ¬ Derives rules (.many e) cs none := nofun

end Derives

/-! ### Beginnings -/

/-- Matches of the expression begin with a character that satisfies `S`, which they consume. -/
def Begins (rules : ν → Peg ν) (e : Peg ν) (S : Char → Prop) : Prop :=
  ∀ cs ts rest, Derives rules e cs (some (ts, rest)) →
    ∃ c cs', cs = c :: cs' ∧ S c ∧ rest.length ≤ cs'.length

namespace Begins

variable {e f : Peg ν} {S T : Char → Prop}

theorem mono (h : Begins rules e S) (hST : ∀ c, S c → T c) : Begins rules e T := by
  intro cs ts rest hd
  obtain ⟨c, cs', hcs, hc, hle⟩ := h cs ts rest hd
  exact ⟨c, cs', hcs, hST c hc, hle⟩

theorem char (p : Char → Bool) : Begins rules (.char p) (p · = true) := by
  intro cs ts rest hd
  cases hd with
  | char hp => exact ⟨_, _, rfl, hp, Nat.le_refl _⟩

theorem seq (h : Begins rules e S) : Begins rules (.seq e f) S := by
  intro cs ts rest hd
  cases hd with
  | seq he hf =>
    obtain ⟨c, cs', hcs, hc, hle⟩ := h _ _ _ he
    exact ⟨c, cs', hcs, hc, Nat.le_trans hf.length_le hle⟩

/-- What comes behind a lookahead begins where it looks. -/
theorem seq_absent (h : Begins rules f S) : Begins rules (.seq (.absent e) f) S := by
  intro cs ts rest hd
  cases hd with
  | seq he hf =>
    cases he with
    | absent => exact h _ _ _ hf

theorem choice (he : Begins rules e S) (hf : Begins rules f S) : Begins rules (.choice e f) S := by
  intro cs ts rest hd
  cases hd with
  | choiceFirst hd => exact he _ _ _ hd
  | choiceSecond _ hd => exact hf _ _ _ hd

theorem call {a : ν} (h : Begins rules (rules a) S) : Begins rules (.call a) S := by
  intro cs ts rest hd
  cases hd with
  | call hd => exact h _ _ _ hd

theorem chars (c : Char) (value : List Char) : Begins rules (.chars (c :: value)) (· = c) :=
  (char (· == c)).seq.mono fun _ => eq_of_beq

/-- What may be missing in front begins in one of two ways. -/
theorem opt_seq (he : Begins rules e S) (hf : Begins rules f S) :
    Begins rules (.seq (.opt e) f) S := by
  intro cs ts rest hd
  cases hd with
  | seq hopt hd =>
    cases hopt with
    | choiceFirst hopt => exact he.seq _ _ _ (.seq hopt hd)
    | choiceSecond _ hempty =>
      cases hempty
      exact hf _ _ _ hd

/-- Nothing matches at the end of the text. -/
theorem ne_nil (h : Begins rules e S) {cs rest : List Char} {ts : List (ParseTree ν)}
    (hd : Derives rules e cs (some (ts, rest))) : cs ≠ [] := by
  obtain ⟨c, cs', rfl, -⟩ := h cs ts rest hd
  exact List.cons_ne_nil c cs'

theorem length_lt (h : Begins rules e S) {cs rest : List Char} {ts : List (ParseTree ν)}
    (hd : Derives rules e cs (some (ts, rest))) : rest.length < cs.length := by
  obtain ⟨c, cs', rfl, -, hle⟩ := h cs ts rest hd
  exact Nat.lt_succ_of_le hle

/-- The expression does not match in front of any other character. -/
theorem not_derives (h : Begins rules e S) {c : Char} {cs rest : List Char}
    {ts : List (ParseTree ν)} (hc : ¬ S c) : ¬ Derives rules e (c :: cs) (some (ts, rest)) := by
  intro hd
  obtain ⟨_, _, heq, hS, -⟩ := h _ _ _ hd
  obtain ⟨rfl, -⟩ := List.cons.inj heq
  exact hc hS

end Begins

/-! ### Runs -/

/-- A repetition of two expressions, of which the second fails where the first one matches, begins
with all that the second one matches there. -/
theorem Derives.run (hfails : ∀ {cs ts rest}, Derives rules e cs (some (ts, rest)) →
    Derives rules f cs none) {cs rest : List Char} {ts : List (ParseTree ν)}
    (h : Derives rules (.many (.choice e f)) cs (some (ts, rest))) :
    ∃ us mid vs, ts = us ++ vs ∧ Derives rules (.many f) cs (some (us, mid)) ∧
      Derives rules (.many (.choice e f)) mid (some (vs, rest)) := by
  generalize hg : Peg.many (.choice e f) = g at h
  generalize ho : some (ts, rest) = o at h
  induction h generalizing ts rest with
  | manyEnd hd =>
    cases hg
    obtain ⟨rfl, rfl⟩ := Prod.mk.inj (Option.some.inj ho)
    cases hd with
    | choiceSecond he hf => exact ⟨[], _, [], rfl, .manyEnd hf, .manyEnd (.choiceSecond he hf)⟩
  | manyMore hd hmore _ ih =>
    cases hg
    obtain ⟨rfl, rfl⟩ := Prod.mk.inj (Option.some.inj ho)
    cases hd with
    | choiceFirst he =>
      exact ⟨[], _, _, rfl, .manyEnd (hfails he), .manyMore (.choiceFirst he) hmore⟩
    | choiceSecond he hf =>
      obtain ⟨us, mid, vs, rfl, hrun, hrest⟩ := ih rfl rfl
      exact ⟨_, mid, vs, (List.append_assoc ..).symm, .manyMore hf hrun, hrest⟩
  | _ => nomatch hg

/-- In a repetition, one match at a time and a run of matches at a time come to the same. -/
theorem Derives.many_runs {S T : Char → Prop} (he : Begins rules e S) (hf : Begins rules f T)
    (hfails : ∀ {cs ts rest}, Derives rules e cs (some (ts, rest)) → Derives rules f cs none)
    {cs : List Char} {o : Option (List (ParseTree ν) × List Char)}
    (h : Derives rules (.many (.choice e f)) cs o) :
    Derives rules (.many (.choice e (.atLeastOne f))) cs o := by
  cases h with
  | manyEnd hd =>
    cases hd with
    | choiceSecond he' hf' => exact .manyEnd (.choiceSecond he' (.seqFirst hf'))
  | manyMore hd hmore =>
    cases hd with
    | choiceFirst hd =>
      have := he.length_lt hd
      exact .manyMore (.choiceFirst hd) (many_runs he hf hfails hmore)
    | choiceSecond he' hd =>
      obtain ⟨us, mid, vs, rfl, hrun, hrest⟩ := hmore.run hfails
      have := Nat.lt_of_le_of_lt hrun.length_le (hf.length_lt hd)
      rw [← List.append_assoc]
      exact .manyMore (.choiceSecond he' (.seq hd hrun)) (many_runs he hf hfails hrest)
termination_by cs.length

end

end Packrat
