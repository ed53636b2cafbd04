import Packrat.Proofs.Conformance
import Packrat.Proofs.Slices
import Packrat.Proofs.Spelling

/-!
# From one place of a text to another

Whatever a reader of grammar text does, it stays in the text: it gets from one place to another that
is not before it, also where it fails on the way. `Reader.Traverses text p Q` says this of a reader,
and that its results are as `Q` has it for the two places. `Q` may look at the places themselves, so
that it can say where something stands and not only what it is.

A place in a text is told by what lies ahead of it. So a reader that fails in place has not moved at
all, and what a reader consumed is known by what is no longer ahead.

## Main results

* `Traverses.bind`, `Traverses.orElse`, `Traverses.many`: the rules for readers put together
* `passes_action`, `passes_identifier`: a code block and a name are there in the text
-/

namespace Packrat

open Text (byteLength)

/-- The bytes of a text are those of its characters. -/
theorem Text.byteLength_toList (s : String) : byteLength s.toList = s.utf8ByteSize := by
  have hlist : ∀ cs : List Char, byteLength cs = (String.ofList cs).utf8ByteSize := by
    intro cs
    induction cs with
    | nil => rfl
    | cons c cs ih =>
      have hcons : String.ofList (c :: cs) = String.singleton c ++ String.ofList cs := by
        rw [String.singleton_eq_ofList, ← String.ofList_append]
        rfl
      rw [byteLength_cons, ih, hcons, String.utf8ByteSize_append, String.utf8ByteSize_singleton]
  rw [hlist, String.ofList_toList]

/-! ### Places of a text -/

/-- Two places of a text, the second not before the first. -/
structure Cursor.Onward (text : List Char) (c d : Cursor) : Prop where
  source : c.Within false text
  target : d.Within false text
  le : c.offset ≤ d.offset

namespace Cursor

variable {text part : List Char} {c d e : Cursor}

theorem Within.onward (h : c.Within false text) : c.Onward text c := ⟨h, h, Nat.le_refl _⟩

theorem Onward.trans (h : c.Onward text d) (h' : d.Onward text e) : c.Onward text e :=
  ⟨h.source, h'.target, Nat.le_trans h.le h'.le⟩

/-- What lies ahead tells the place. -/
theorem Within.eq_of_ahead (hc : c.Within false text) (hd : d.Within false text)
    (h : c.ahead = d.ahead) : c = d := by
  obtain ⟨a, hta, hca⟩ := hc
  obtain ⟨b, htb, hdb⟩ := hd
  have hpassed : a = b := by
    rw [hta, h] at htb
    exact List.append_cancel_right htb
  cases c
  cases d
  simp_all

theorem Within.skip_onward (h : c.Within false text) (n : Nat) : c.Onward text (c.skip n) :=
  ⟨h, h.skip n, by rw [offset_skip]; exact Nat.le_add_right _ _⟩

/-- The second place is behind what only the first one has ahead. -/
theorem Within.eq_skip (hc : c.Within false text) (hd : d.Within false text)
    (h : c.ahead = part ++ d.ahead) : d = c.skip part.length := by
  refine hd.eq_of_ahead (hc.skip _) ?_
  rw [ahead_skip, h, List.drop_left]

theorem Within.offset_eq (hc : c.Within false text) (hd : d.Within false text)
    (h : c.ahead = part ++ d.ahead) : d.offset = c.offset + byteLength part := by
  rw [hc.eq_skip hd h, offset_skip, h, List.take_left]

theorem Within.textUpTo_eq (hc : c.Within false text) (hd : d.Within false text)
    (h : c.ahead = part ++ d.ahead) : c.textUpTo d = part := by
  rw [hc.eq_skip hd h, textUpTo_skip, h, List.take_left]

theorem Within.isBoundary (h : c.Within false text) : Text.IsBoundary text c.offset := by
  obtain ⟨before, htext, hoffset⟩ := h.exists_before
  exact ⟨before, c.ahead, htext, hoffset.symm⟩

theorem Within.offset_le (h : c.Within false text) : c.offset ≤ byteLength text := by
  obtain ⟨before, htext, hoffset⟩ := h.exists_before
  rw [hoffset, htext, Text.byteLength_append]
  exact Nat.le_add_right _ _

theorem Within.offset_lt (h : c.Within false text) (hne : c.ahead ≠ []) :
    c.offset < byteLength text := by
  obtain ⟨before, htext, hoffset⟩ := h.exists_before
  rw [hoffset, htext, Text.byteLength_append]
  exact Nat.lt_add_of_pos_right (Nat.pos_of_ne_zero (mt Text.byteLength_eq_zero_iff.mp hne))

end Cursor

/-! ### Readers -/

namespace Reader

open Notation (FailsInPlace)

variable {α β : Type} {text : List Char} {p q : Reader α} {P Q : Cursor → α → Cursor → Prop}
  {R : Cursor → β → Cursor → Prop}

/-- From a place of the text the reader gets to one that is not before it, and its results are as
`Q` has it for the two places. -/
structure Traverses (text : List Char) (p : Reader α) (Q : Cursor → α → Cursor → Prop) : Prop where
  onward {s : ReaderState} {o : Option α} {t : ReaderState} :
    s.state.cursor.Within false text → p s = (o, t) → s.state.cursor.Onward text t.state.cursor
  result {s : ReaderState} {a : α} {t : ReaderState} :
    s.state.cursor.Within false text → p s = (some a, t) → Q s.state.cursor a t.state.cursor

/-- Nothing is said about the results. -/
abbrev anywhere : Cursor → α → Cursor → Prop := fun _ _ _ => True

namespace Traverses

theorem mono (h : p.Traverses text P)
    (hQ : ∀ c a d, c.Onward text d → P c a d → Q c a d) : p.Traverses text Q :=
  ⟨h.onward, fun hc hp => hQ _ _ _ (h.onward hc hp) (h.result hc hp)⟩

theorem any (h : p.Traverses text P) : p.Traverses text anywhere := h.mono fun _ _ _ _ _ => trivial

theorem pure {a : α} (h : ∀ c : Cursor, c.Within false text → Q c a c) :
    (pure a : Reader α).Traverses text Q where
  onward hc hp := (Prod.mk.inj hp).2 ▸ hc.onward
  result hc hp := by
    obtain ⟨ha, rfl⟩ := Prod.mk.inj hp
    obtain rfl := Option.some.inj ha
    exact h _ hc

theorem fail : (Reader.fail : Reader α).Traverses text Q where
  onward hc hp := (Prod.mk.inj hp).2 ▸ hc.onward
  result _ hp := nomatch hp

/-- What is known about the first result is known between its two places. -/
theorem bind {f : α → Reader β} (h : p.Traverses text P)
    (hf : ∀ a, (f a).Traverses text fun m b d =>
      ∀ c : Cursor, c.Onward text m → P c a m → R c b d) : (p >>= f).Traverses text R where
  onward {s o t} hc hp := by
    rw [bind_apply] at hp
    split at hp
    · next a s' hps =>
      have hfirst := h.onward hc hps
      exact hfirst.trans ((hf a).onward hfirst.target hp)
    · next s' hps =>
      obtain ⟨-, rfl⟩ := Prod.mk.inj hp
      exact h.onward hc hps
  result {s b t} hc hp := by
    rw [bind_apply] at hp
    split at hp
    · next a s' hps =>
      have hfirst := h.onward hc hps
      exact (hf a).result hfirst.target hp _ hfirst (h.result hc hps)
    · cases hp

/-- The results of the first reader do not matter, only that it went on. -/
theorem after {f : α → Reader β} (h : p.Traverses text anywhere)
    (hf : ∀ a, (f a).Traverses text fun m b d => ∀ c : Cursor, c.Onward text m → R c b d) :
    (p >>= f).Traverses text R :=
  h.bind fun a => (hf a).mono fun _ _ _ _ hb c hc _ => hb c hc

/-- Nothing matters but that both readers went on. -/
theorem next {f : α → Reader β} (h : p.Traverses text P)
    (hf : ∀ a, (f a).Traverses text anywhere) : (p >>= f).Traverses text anywhere :=
  h.any.after fun a => (hf a).mono fun _ _ _ _ _ _ _ => trivial

/-- Where the text ahead begins is where the reader begins. -/
theorem still {f : Cursor → Reader β}
    (hf : ∀ begun : Cursor, (f begun).Traverses text fun m b d => m = begun → R begun b d) :
    (cursor >>= f).Traverses text R where
  onward hc hp := (hf _).onward hc hp
  result hc hp := (hf _).result hc hp rfl

theorem orElse (hp : p.Traverses text Q) (hplace : FailsInPlace p) (hq : q.Traverses text Q) :
    (p <|> q).Traverses text Q where
  onward {s o t} hc h := by
    change Reader.orElse p (fun _ => q) s = _ at h
    rw [Reader.orElse] at h
    split at h
    · next a s' hps =>
      obtain ⟨-, rfl⟩ := Prod.mk.inj h
      exact hp.onward hc hps
    · next s' hps =>
      have hfirst := hp.onward hc hps
      exact hfirst.trans (hq.onward hfirst.target h)
  result {s a t} hc h := by
    change Reader.orElse p (fun _ => q) s = _ at h
    rw [Reader.orElse] at h
    split at h
    · next b s' hps =>
      obtain ⟨hab, rfl⟩ := Prod.mk.inj h
      exact Option.some.inj hab ▸ hp.result hc hps
    · next s' hps =>
      have hfirst := (hp.onward hc hps).target
      rw [hc.eq_of_ahead hfirst (hplace _ _ hps).symm]
      exact hq.result hfirst h

theorem attempt (h : p.Traverses text Q) : (Reader.attempt p).Traverses text Q where
  onward {s o t} hc hp := by
    rw [Reader.attempt] at hp
    split at hp
    · next a s' hps =>
      obtain ⟨-, rfl⟩ := Prod.mk.inj hp
      exact h.onward hc hps
    · next s' hps =>
      obtain ⟨-, rfl⟩ := Prod.mk.inj hp
      exact hc.onward
  result {s a t} hc hp := by
    rw [Reader.attempt] at hp
    split at hp
    · next b s' hps =>
      obtain ⟨hab, rfl⟩ := Prod.mk.inj hp
      exact Option.some.inj hab ▸ h.result hc hps
    · cases hp

theorem quietly (h : p.Traverses text Q) : (Reader.quietly p).Traverses text Q where
  onward {s o t} hc hp := by
    unfold Reader.quietly at hp
    cases hps : p { s with state := s.state.suspend } with
    | mk o' t' =>
      rw [hps] at hp
      obtain ⟨-, rfl⟩ := Prod.mk.inj hp
      have honward := h.onward (s := { s with state := s.state.suspend }) hc hps
      exact honward
  result {s a t} hc hp := by
    unfold Reader.quietly at hp
    cases hps : p { s with state := s.state.suspend } with
    | mk o' t' =>
      rw [hps] at hp
      obtain ⟨rfl, rfl⟩ := Prod.mk.inj hp
      have hresult := h.result (s := { s with state := s.state.suspend }) hc hps
      exact hresult

theorem named (h : p.Traverses text Q) (name : String) :
    (Reader.named name p).Traverses text Q where
  onward {s o t} hc hp := by
    rw [Reader.named] at hp
    split at hp
    · next a s' hps =>
      obtain ⟨-, rfl⟩ := Prod.mk.inj hp
      exact h.attempt.quietly.onward hc hps
    · next s' hps =>
      obtain ⟨-, rfl⟩ := Prod.mk.inj hp
      have hback := h.attempt.quietly.onward hc hps
      rwa [← State.cursor_failAt s'.state s'.state.cursor name] at hback
  result {s a t} hc hp := by
    rw [Reader.named] at hp
    split at hp
    · next b s' hps =>
      obtain ⟨hab, rfl⟩ := Prod.mk.inj hp
      exact Option.some.inj hab ▸ h.attempt.quietly.result hc hps
    · cases hp

theorem peek (p : Reader α) : (Reader.peek p).Traverses text anywhere where
  onward hc hp := by
    obtain ⟨-, rfl⟩ := Prod.mk.inj hp
    exact hc.onward
  result _ _ := trivial

theorem option {R : Cursor → Option α → Cursor → Prop} (h : p.Traverses text Q)
    (hnone : ∀ c d, c.Onward text d → R c none d)
    (hsome : ∀ c a d, c.Onward text d → Q c a d → R c (some a) d) :
    (Reader.option p).Traverses text R where
  onward hc hp := by
    obtain ⟨-, rfl⟩ := Prod.mk.inj hp
    exact h.onward hc rfl
  result {s o t} hc hp := by
    obtain ⟨ho, rfl⟩ := Prod.mk.inj hp
    obtain rfl := Option.some.inj ho
    cases hps : p s with
    | mk o t =>
      cases o with
      | none => exact hnone _ _ (h.onward hc hps)
      | some a => exact hsome _ _ _ (h.onward hc hps) (h.result hc hps)

/-- What may be missing. -/
theorem optional (h : p.Traverses text Q) : (Reader.option p).Traverses text anywhere :=
  h.option (fun _ _ _ => trivial) fun _ _ _ _ _ => trivial

theorem succeeds (h : p.Traverses text Q) : (Reader.succeeds p).Traverses text anywhere := by
  rw [Notation.succeeds_eq]
  exact h.optional.next fun _ => .pure fun _ _ => trivial

section

variable {R : Cursor → List α → Cursor → Prop} (h : p.Traverses text Q) (hplace : FailsInPlace p)
  (hnil : ∀ c : Cursor, c.Within false text → R c [] c)
  (hcons : ∀ c a m as d, c.Onward text m → m.Onward text d → Q c a m → R m as d → R c (a :: as) d)

include h hplace hnil hcons

theorem collect (bound : Nat) {s : ReaderState} (hc : s.state.cursor.Within false text) :
    s.state.cursor.Onward text (collect p bound s).2.state.cursor ∧
      R s.state.cursor (Reader.collect p bound s).1 (Reader.collect p bound s).2.state.cursor := by
  induction bound generalizing s with
  | zero => exact ⟨hc.onward, hnil _ hc⟩
  | succ bound ih =>
    rw [Reader.collect]
    cases hps : p s with
    | mk o t =>
      have hfirst := h.onward hc hps
      cases o with
      | none =>
        dsimp only
        rw [← hc.eq_of_ahead hfirst.target (hplace _ _ hps).symm]
        exact ⟨hc.onward, hnil _ hc⟩
      | some a =>
        obtain ⟨hmore, hrest⟩ := ih hfirst.target
        exact ⟨hfirst.trans hmore, hcons _ _ _ _ _ hfirst hmore (h.result hc hps) hrest⟩

theorem many : (Reader.many p).Traverses text R where
  onward hc hp := by
    obtain ⟨-, rfl⟩ := Prod.mk.inj ((many_apply p _).symm.trans hp)
    exact (h.collect hplace hnil hcons _ hc).1
  result hc hp := by
    obtain ⟨has, rfl⟩ := Prod.mk.inj ((many_apply p _).symm.trans hp)
    exact Option.some.inj has ▸ (h.collect hplace hnil hcons _ hc).2

end

theorem repeated (h : p.Traverses text Q) (hplace : FailsInPlace p) :
    (Reader.many p).Traverses text anywhere :=
  h.many hplace (fun _ _ => trivial) fun _ _ _ _ _ _ _ _ _ => trivial

/-- What is read from a whole text is between its two ends. -/
theorem of_run {source : String} {a : α} (h : p.Traverses source.toList Q)
    (hrun : p.run source = .ok a) : ∃ c d : Cursor, c.Onward source.toList d ∧ c.offset = 0 ∧
      c.ahead = source.toList ∧ d.ahead = [] ∧ Q c a d := by
  obtain ⟨t, hp, -, hend⟩ := run_eq_ok_iff.mp hrun
  have hc : (Cursor.start false source.toList).Within false source.toList :=
    Cursor.within_start _ _
  exact ⟨_, _, h.onward hc hp, rfl, rfl, hend, h.result hc hp⟩

end Traverses

theorem passes_textSince (begun : Cursor) : (textSince begun).Traverses text fun c taken d =>
    c = d ∧ taken = begun.textUpTo c :=
  .still fun _ => .pure fun _ _ h => ⟨h.symm, h ▸ rfl⟩

theorem passes_spanSince (begun : Cursor) : (spanSince begun).Traverses text fun c span d =>
    c = d ∧ span = .between begun.offset c.offset :=
  .still fun _ => .pure fun _ _ h => ⟨h.symm, h ▸ rfl⟩

/-! ### Texts and characters -/

theorem passes_text (value : String) : (Reader.text value).Traverses text fun c _ d =>
    c.ahead = value.toList ++ d.ahead where
  onward {s o t} hc hp := by
    by_cases hprefix : value.toList <+: s.ahead
    · obtain ⟨-, rfl⟩ := Prod.mk.inj ((Notation.text_of_isPrefix hprefix).symm.trans hp)
      exact hc.skip_onward _
    · obtain ⟨place, hfails⟩ := Notation.text_of_not_isPrefix hprefix
      obtain ⟨-, rfl⟩ := Prod.mk.inj (hfails.symm.trans hp)
      exact (State.cursor_failAt s.state place _).symm ▸ hc.onward
  result {s a t} hc hp := by
    obtain ⟨o, t', ht, -, ⟨-, hahead⟩ | ⟨rfl, -⟩⟩ := Notation.text_spec value s
    · obtain ⟨-, rfl⟩ := Prod.mk.inj (ht.symm.trans hp)
      exact hahead
    · nomatch ht.symm.trans hp

theorem passes_charWhere (accepts : Char → Bool) (description : String) :
    (charWhere accepts description).Traverses text fun c a d =>
      accepts a = true ∧ c.ahead = a :: d.ahead where
  onward {s o t} hc hp := by
    by_cases haccepted : ∃ c rest, s.ahead = c :: rest ∧ accepts c = true
    · obtain ⟨c, rest, hahead, hc'⟩ := haccepted
      obtain ⟨-, rfl⟩ :=
        Prod.mk.inj ((Notation.charWhere_of_accepted hahead hc' description).symm.trans hp)
      rw [State.cursor_moveTo, Cursor.step_eq_skip]
      exact hc.skip_onward 1
    · have hrefused : ∀ c rest, s.ahead = c :: rest → accepts c = false := fun c rest hahead =>
        Bool.eq_false_iff.mpr fun hc => haccepted ⟨c, rest, hahead, hc⟩
      obtain ⟨-, rfl⟩ :=
        Prod.mk.inj ((Notation.charWhere_of_refused hrefused description).symm.trans hp)
      exact (State.cursor_failAt s.state s.state.cursor description).symm ▸ hc.onward
  result {s a t} hc hp := by
    obtain ⟨o, t', ht, -, ⟨c, rfl, hc', hahead⟩ | ⟨rfl, -⟩⟩ :=
      Notation.charWhere_spec accepts description s
    · obtain ⟨hac, rfl⟩ := Prod.mk.inj (ht.symm.trans hp)
      obtain rfl := Option.some.inj hac
      exact ⟨hc', hahead⟩
    · nomatch ht.symm.trans hp

end Reader

/-! ### Lexemes -/

namespace Notation

open Reader

variable {text : List Char}

theorem passes_oneOf (ts : List String) : (oneOf ts).Traverses text anywhere := by
  induction ts with
  | nil => exact .fail
  | cons t ts ih =>
    refine .orElse ((passes_text t).next fun _ => .pure fun _ _ => trivial) ?_ ih
    exact (failsInPlace_text t).thenStill fun _ => still_pure t

theorem passes_lineEnd : lineEnd.Traverses text anywhere := (passes_oneOf lineEnds).named _

theorem passes_comment : comment.Traverses text anywhere := by
  refine .named (.orElse ?_ failsInPlace_lineComment ?_) _
  · refine (passes_text "//").next fun _ => ?_
    exact ((passes_charWhere _ _).repeated (failsInPlace_charWhere _ _)).next fun _ =>
      .pure fun _ _ => trivial
  · refine (passes_text "/*").next fun _ => ?_
    have hother : (do if ← peek (Reader.text "*/") then fail else anyChar).Traverses text
        anywhere := by
      refine (Traverses.peek _).next fun answer => ?_
      split
      · exact .fail
      · exact (passes_charWhere _ _).any
    refine (hother.repeated (failsInPlace_charWhere _ _).unless).next fun _ => ?_
    exact (passes_text "*/").any

theorem passes_skip : skip.Traverses text anywhere := by
  refine Traverses.next (P := anywhere) ?_ fun _ => .pure fun _ _ => trivial
  refine Traverses.repeated (Q := anywhere) ?_ failsInPlace_between
  refine .orElse ?_ failsInPlace_blank (.orElse ?_ failsInPlace_break passes_comment)
  · exact (passes_charWhere _ _).next fun _ => .pure fun _ _ => trivial
  · exact passes_lineEnd.next fun _ => .pure fun _ _ => trivial

theorem passes_token (value : String) : (token value).Traverses text anywhere :=
  (passes_text value).next fun _ => passes_skip

/-! ### Code and names -/

theorem Balanced.append {cs ds : List Char} (h : Balanced cs) (h' : Balanced ds) :
    Balanced (cs ++ ds) := by
  induction h with
  | nil => exact h'
  | other hopens hcloses _ ih => exact .other hopens hcloses ih
  | @block inside behind hinside _ _ ih =>
    rw [List.cons_append, List.append_assoc]
    exact .block hinside ih

/-- Where braces match, as many are open behind as in front. -/
theorem Balanced.balancedFrom_append {cs : List Char} (h : Balanced cs) (opened : Nat)
    (rest : List Char) : balancedFrom opened (cs ++ rest) = balancedFrom opened rest := by
  induction h generalizing opened rest with
  | nil => rfl
  | other hopens hcloses _ ih =>
    rw [List.cons_append, balancedFrom, if_neg hopens, if_neg hcloses, ih]
  | block _ _ ih ih' =>
    rw [List.cons_append, balancedFrom, if_pos rfl, List.append_assoc, ih, List.cons_append,
      balancedFrom, if_neg (by decide), if_pos rfl, ih']
    rfl

theorem Balanced.isBalanced {code : String} (h : Balanced code.toList) :
    isBalanced code = true := by
  have hend := h.balancedFrom_append 0 []
  rwa [List.append_nil] at hend

/-- What lies between the places is a block of balanced braces. -/
def BlockBetween (c d : Cursor) : Prop :=
  ∃ inside, Balanced inside ∧ c.ahead = '{' :: (inside ++ '}' :: d.ahead)

theorem passes_bracedWithin (depth : Nat) :
    (bracedWithin depth).Traverses text fun c _ d => BlockBetween c d := by
  induction depth with
  | zero => exact .fail
  | succ depth ih =>
    have hother : (do let _ ← charWhere (fun c => c != '{' && c != '}') "[^\x7b\x7d]").Traverses
        text fun c _ d => ∃ piece, Balanced piece ∧ c.ahead = piece ++ d.ahead := by
      refine (passes_charWhere _ _).bind fun other => .pure fun m _ c _ hother => ?_
      obtain ⟨haccepted, hahead⟩ := hother
      have hbraces := Bool.and_eq_true_iff.mp haccepted
      exact ⟨[other], .other (bne_iff_ne.mp hbraces.1) (bne_iff_ne.mp hbraces.2) .nil, hahead⟩
    have hblock : (bracedWithin depth).Traverses text
        fun c _ d => ∃ piece, Balanced piece ∧ c.ahead = piece ++ d.ahead := by
      refine ih.mono fun c _ d _ hblock => ?_
      obtain ⟨inside, hinside, hahead⟩ := hblock
      exact ⟨'{' :: (inside ++ ['}']), .block hinside .nil, by simpa using hahead⟩
    have hplace : FailsInPlace (do
        let _ ← charWhere (fun c => c != '{' && c != '}') "[^\x7b\x7d]") :=
      (failsInPlace_charWhere _ _).thenStill fun _ => still_pure _
    have hinside := (hblock.orElse (failsInPlace_bracedWithin depth) hother).many
      (R := fun c _ d => ∃ inside, Balanced inside ∧ c.ahead = inside ++ d.ahead)
      ((failsInPlace_bracedWithin depth).orElse hplace) (fun c _ => ⟨[], .nil, rfl⟩) (by
        rintro c _ m _ d - - ⟨piece, hpiece, hc⟩ ⟨inside, hinside, hm⟩
        exact ⟨piece ++ inside, hpiece.append hinside, by rw [hc, hm, List.append_assoc]⟩)
    refine .attempt ((passes_text "\x7b").bind fun _ => hinside.bind fun _ => ?_)
    refine (passes_text "\x7d").mono fun b _ d _ hclosed a _ hinside c _ hopened => ?_
    obtain ⟨inside, hbalanced, ha⟩ := hinside
    refine ⟨inside, hbalanced, ?_⟩
    rw [hopened, ha, hclosed]
    rfl

theorem passes_braced : braced.Traverses text fun c _ d => BlockBetween c d :=
  .still fun _ => (passes_bracedWithin _).mono fun _ _ _ _ hblock hbegun => hbegun ▸ hblock

/-- A code block is there, up to the second place at most. -/
def CodeBetween (code : String) (c d : Cursor) : Prop :=
  isBalanced code = true ∧ block code <+: c.ahead ∧
    c.offset + byteLength (block code) ≤ d.offset

theorem passes_action : action.Traverses text fun c code d => CodeBetween code c d := by
  refine .named (.still fun begun => passes_braced.bind fun _ =>
    (passes_textSince begun).bind fun taken => passes_skip.after fun _ => .pure ?_) _
  rintro d _ _ hskipped m _ ⟨rfl, htaken⟩ c hc hblock rfl
  obtain ⟨inside, hbalanced, hahead⟩ := hblock
  have hpart : c.ahead = ('{' :: (inside ++ ['}'])) ++ m.ahead := by simpa using hahead
  rw [hc.source.textUpTo_eq hc.target hpart] at htaken
  have hcode : String.ofList (taken.drop 1).dropLast = String.ofList inside := by
    rw [htaken, List.drop_succ_cons, List.drop_zero, List.dropLast_concat]
  rw [hcode]
  have hblock : block (String.ofList inside) = '{' :: (inside ++ ['}']) := by
    rw [block, String.toList_ofList]
  refine ⟨Balanced.isBalanced ?_, ?_, ?_⟩
  · rwa [String.toList_ofList]
  · rw [hblock, hpart]
    exact List.prefix_append _ _
  · rw [hblock, ← hc.source.offset_eq hc.target hpart]
    exact hskipped.le

/-- A name is there, up to the second place at most. -/
def NameBetween (name : String) (c d : Cursor) : Prop :=
  isIdentifier name = true ∧ name.toList <+: c.ahead ∧ c.offset + byteLength name.toList ≤ d.offset

theorem passes_identifier : identifier.Traverses text fun c name d => NameBetween name c d := by
  have hone : (charWhere isIdentifierTail "[a-zA-Z0-9_$]").Traverses text fun c a d =>
      isIdentifierTail a = true ∧ c.ahead = a :: d.ahead := passes_charWhere _ _
  have htail := hone.many
    (R := fun c rest d => rest.all isIdentifierTail = true ∧ c.ahead = rest ++ d.ahead)
    (failsInPlace_charWhere _ _) (fun c _ => ⟨rfl, rfl⟩) (by
      rintro c a m as d - - ⟨ha, hc⟩ ⟨has, hm⟩
      exact ⟨Bool.and_eq_true_iff.mpr ⟨ha, has⟩, by rw [hc, hm, List.cons_append]⟩)
  refine .named ((passes_charWhere _ _).bind fun first => htail.bind fun rest =>
    passes_skip.after fun _ => .pure ?_) _
  rintro d _ m hskipped b hb ⟨hrest, hbm⟩ c hc ⟨hfirst, hcb⟩
  have hpart : c.ahead = (first :: rest) ++ m.ahead := by rw [hcb, hbm, List.cons_append]
  have hname : (String.ofList (first :: rest)).toList = first :: rest := String.toList_ofList
  refine ⟨?_, ?_, ?_⟩
  · rw [isIdentifier, hname]
    exact Bool.and_eq_true_iff.mpr ⟨hfirst, hrest⟩
  · rw [hname, hpart]
    exact List.prefix_append _ _
  · rw [hname, ← hc.source.offset_eq (hc.trans hb).target hpart]
    exact hskipped.le

/-! ### Strings and classes -/

theorem passes_hexDigitRun (count : Nat) : (hexDigitRun count).Traverses text anywhere := by
  induction count with
  | zero => exact .pure fun _ _ => trivial
  | succ count ih =>
    exact (passes_charWhere _ _).next fun _ => ih.next fun _ => .pure fun _ _ => trivial

theorem passes_hexEscape (introduction : String) (count : Nat) :
    (hexEscape introduction count).Traverses text anywhere :=
  .attempt ((passes_text _).next fun _ => (passes_hexDigitRun count).next fun _ =>
    .pure fun _ _ => trivial)

theorem passes_escape : escape.Traverses text anywhere := by
  have hsimple : simpleEscape.Traverses text anywhere :=
    .attempt ((passes_text _).next fun _ => (passes_charWhere _ _).next fun _ =>
      .pure fun _ _ => trivial)
  have hzero : zeroEscape.Traverses text anywhere := by
    refine .attempt ((passes_text _).next fun _ => (Traverses.peek _).next fun digit => ?_)
    split
    · exact .fail
    · exact .pure fun _ _ => trivial
  have hlineEnd : lineEndEscape.Traverses text anywhere :=
    .attempt ((passes_text _).next fun _ => passes_lineEnd)
  have hcoded : (simpleEscape <|> zeroEscape <|> hexEscape "\\x" 2 <|> hexEscape "\\u" 4).Traverses
      text anywhere :=
    hsimple.orElse (failsInPlace_attempt _) (hzero.orElse (failsInPlace_attempt _)
      ((passes_hexEscape _ _).orElse (failsInPlace_attempt _) (passes_hexEscape _ _)))
  refine .orElse (hcoded.next fun _ => .pure fun _ _ => trivial)
    (failsInPlace_characterEscape.thenStill fun _ => still_pure _) ?_
  exact hlineEnd.next fun _ => .pure fun _ _ => trivial

theorem passes_delimited (delimiter : Char) : (delimited delimiter).Traverses text anywhere := by
  have hcharacter : (stringCharacter delimiter).Traverses text anywhere := by
    refine .orElse ((passes_charWhere _ _).next fun _ => .pure fun _ _ => trivial) ?_ passes_escape
    exact (failsInPlace_charWhere _ _).thenStill fun _ => still_pure _
  refine .attempt ((passes_charWhere _ _).next fun _ => ?_)
  refine (hcharacter.repeated (failsInPlace_stringCharacter _)).next fun _ => ?_
  exact (passes_charWhere _ _).next fun _ => .pure fun _ _ => trivial

theorem passes_quotedString : quotedString.Traverses text anywhere :=
  (passes_delimited _).orElse (failsInPlace_attempt _) (passes_delimited _)

theorem passes_literal : literal.Traverses text anywhere :=
  .named (passes_quotedString.next fun _ => (passes_text _).succeeds.next fun _ =>
    passes_skip.next fun _ => .pure fun _ _ => trivial) _

theorem passes_string : string.Traverses text anywhere :=
  .named (passes_quotedString.next fun _ => passes_skip.next fun _ => .pure fun _ _ => trivial) _

theorem passes_classMember : classMember.Traverses text anywhere := by
  refine (passes_charWhere _ _).any.orElse (failsInPlace_charWhere _ _)
    (passes_escape.next fun cs => ?_)
  cases cs with
  | nil => exact .fail
  | cons c cs => exact .pure fun _ _ => trivial

theorem passes_rangePart (begun : Cursor) (ends : Char × Char) :
    (rangePart begun ends).Traverses text anywhere := by
  unfold rangePart
  dsimp only
  split
  · refine (passes_spanSince begun).next fun span => Traverses.next (P := anywhere) ?_ fun _ =>
      .pure fun _ _ => trivial
    -- A note is no step.
    exact ⟨fun hc hp => (Prod.mk.inj hp).2 ▸ hc.onward, fun _ _ => trivial⟩
  · exact .pure fun _ _ => trivial

theorem passes_classPart : classPart.Traverses text anywhere := by
  have hrange : rangeEnds.Traverses text anywhere :=
    .attempt (passes_classMember.next fun _ => (passes_text _).next fun _ =>
      passes_classMember.next fun _ => .pure fun _ _ => trivial)
  rw [classPart_eq]
  refine .still fun begun => (Traverses.orElse (Q := anywhere) ?_ ?_ ?_).mono
    fun _ _ _ _ _ _ => trivial
  · exact hrange.next fun ends => passes_rangePart begun ends
  · exact (failsInPlace_attempt _).bind (rangePart_ne_none begun)
  · exact passes_classMember.next fun _ => .pure fun _ _ => trivial

theorem passes_charClass : charClass.Traverses text anywhere := by
  refine .named ((passes_text _).next fun _ => (passes_text _).succeeds.next fun _ => ?_) _
  refine (passes_classPart.repeated failsInPlace_classPart).next fun _ =>
    (passes_text _).next fun _ => ?_
  exact (passes_text _).succeeds.next fun _ => passes_skip.next fun _ => .pure fun _ _ => trivial

end Notation

end Packrat
