import Packrat.Proofs.Adequacy
import Packrat.Proofs.Lockstep

/-!
# Counting lines

A parse that counts lines carries a count in every cursor: the one that moves, the ones kept to go
back to, the place of the furthest failure and the ends of remembered matches. A parse that does not
has the bare offsets. The two take the same steps, because no step looks at the count; what the host
sees of a call differs in the line and the column, and in nothing else.

In the end an error needs a line and a column. The one parse has them with the place, the other one
finds them by counting from the beginning of the text. They agree because the count of a cursor is
always that of the text in front of it (`Course.Lined`), wherever the cursor has been put back to.

## Main results

* `evaluate_uncounted`: with and without a count, an evaluation has one result
* `lines_of_evaluate`: a host that gets lines and columns gets the right ones
* `buildMatcher_untracked`: the same of matchers
-/

namespace Packrat

/-! ### Cursors without a count -/

namespace Cursor

/-- The cursor without its count of lines. -/
def uncounted (c : Cursor) : Cursor := ⟨⟨c.offset, none⟩, c.ahead⟩

@[simp] theorem ahead_uncounted (c : Cursor) : c.uncounted.ahead = c.ahead := rfl

@[simp] theorem offset_uncounted (c : Cursor) : c.uncounted.offset = c.offset := rfl

theorem advance_uncounted (offset : Nat) (cs : List Char) :
    (⟨offset, none⟩ : Position).advance cs = ⟨offset + Text.byteLength cs, none⟩ := by
  induction cs generalizing offset with
  | nil => rfl
  | cons c cs ih =>
    rw [Position.advance_cons, Text.byteLength_cons, ← Nat.add_assoc]
    exact ih _

theorem uncounted_skip (c : Cursor) (n : Nat) : (c.skip n).uncounted = c.uncounted.skip n := by
  rw [uncounted, offset_skip, ahead_skip, ← advance_uncounted]
  rfl

theorem textUpTo_uncounted (c d : Cursor) : c.uncounted.textUpTo d.uncounted = c.textUpTo d := by
  unfold textUpTo advance?
  rw [Option.map_map, Option.map_map]
  rfl

end Cursor

/-- What a code block sees if lines are not counted. -/
def Context.uncounted (cx : Context) : Context := { cx with lineColumn := none }

def HostCall.uncounted (call : HostCall) : HostCall :=
  { call with context := call.context.uncounted }

theorem Context.ofMatch_uncounted (labels : Scope Value) (begun ended : Cursor) (v : Value) :
    Context.ofMatch labels begun.uncounted ended.uncounted v =
      (Context.ofMatch labels begun ended v).uncounted := by
  unfold Context.ofMatch
  rw [Cursor.textUpTo_uncounted]
  rfl

/-! ### What is remembered -/

namespace State

variable {s : State} {rule : Nat} {result : Option Value}

/-- The remembered result under a key, if results are remembered and there is one. -/
def remembered? (s : State) (key : MemoKey) : Option MemoEntry := s.memory.bind (·[key]?)

theorem lookUp_eq_remembered? (s : State) (rule : Nat) : s.lookUp rule =
    (s.remembered? (s.memoKey rule s.offset)).map fun entry =>
      (entry.result, s.moveTo entry.after) := by
  unfold lookUp remembered?
  cases s.memory with
  | none => rfl
  | some memory =>
    change (memory[_]?).bind _ = Option.map _ (memory[_]?)
    cases memory[s.memoKey rule s.offset]? <;> rfl

theorem remembered?_remember (s : State) (rule : Nat) (begun : Cursor) (result : Option Value)
    (key : MemoKey) : (s.remember rule begun result).remembered? key =
      if s.memory.isSome ∧ s.memoKey rule begun.offset = key then some ⟨result, s.cursor⟩
      else s.remembered? key := by
  unfold remembered? remember
  cases s.memory with
  | none => rfl
  | some memory =>
    change (memory.insert _ _)[key]? = _
    rw [Std.HashMap.getElem?_insert]
    simp

end State

/-! ### The right count -/

variable {text : List Char} {k k' : Course} {c : Cursor}

/-- Wherever a cursor is kept, its count is that of the text in front of it, and the host was told
the right lines and columns. -/
structure Course.Lined (text : List Char) (k : Course) : Prop where
  text_eq : k.state.text = text
  cursor : k.state.cursor.Within true text
  failure : k.state.failure.Within true text
  entries (key : MemoKey) (entry : MemoEntry) : k.state.remembered? key = some entry →
    entry.after.Within true text
  calls (call : HostCall) : call ∈ k.calls →
    ∃ lines, (Position.at? text call.context.offset).bind Position.lineColumn = some lines ∧
      call.context.lineColumn = some lines

namespace Course.Lined

theorem moveTo (h : k.Lined text) (hc : c.Within true text) : (k.update (·.moveTo c)).Lined text :=
  ⟨h.text_eq, hc, h.failure, h.entries, h.calls⟩

theorem failAt (h : k.Lined text) (hc : c.Within true text) (d : String) :
    (k.update (·.failAt c d)).Lined text := by
  change Course.Lined text ⟨k.state.failAt c d, k.calls⟩
  by_cases hreporting : k.state.reporting
  · rw [State.failAt_of_reporting hreporting]
    refine ⟨h.text_eq, h.cursor, ?_, h.entries, h.calls⟩
    dsimp only
    split
    · exact hc
    · exact h.failure
  · rw [State.failAt, if_neg hreporting]
    exact h

theorem suspend (h : k.Lined text) (n : Nat) :
    (k.update fun s => { s with suspended := n }).Lined text :=
  ⟨h.text_eq, h.cursor, h.failure, h.entries, h.calls⟩

theorem asked (h : k.Lined text) (kind : CodeKind) (code : String) (labels : Scope Value)
    (hc : c.Within true text) (ended : Cursor) (v : Value) :
    (k.asked ⟨kind, code, .ofMatch labels c ended v⟩).Lined text := by
  refine ⟨h.text_eq, h.cursor, h.failure, h.entries, ?_⟩
  intro call hcall
  rcases List.mem_cons.mp hcall with rfl | hcall
  · exact hc.exists_lineColumn
  · exact h.calls call hcall

theorem note (h : k.Lined text) (e : Event) : (k.update (·.note e)).Lined text :=
  ⟨h.text_eq, h.cursor, h.failure, h.entries, h.calls⟩

theorem remember (h : k.Lined text) (rule : Nat) (begun : Cursor) (result : Option Value) :
    (k.update (·.remember rule begun result)).Lined text := by
  refine ⟨h.text_eq, h.cursor, h.failure, ?_, h.calls⟩
  intro key entry hentry
  change (k.state.remember rule begun result).remembered? key = some entry at hentry
  rw [State.remembered?_remember] at hentry
  split at hentry
  · obtain rfl := Option.some.inj hentry
    exact h.cursor
  · exact h.entries key entry hentry

theorem hit (h : k.Lined text) {rule : Nat} {result : Option Value} {s : State}
    (hs : k.state.lookUp rule = some (result, s)) :
    ({ k with state := s } : Course).Lined text := by
  rw [State.lookUp_eq_remembered?, Option.map_eq_some_iff] at hs
  obtain ⟨entry, hentry, heq⟩ := hs
  obtain ⟨-, rfl⟩ := Prod.mk.inj heq
  exact h.moveTo (h.entries _ entry hentry)

end Course.Lined

theorem lined_initialCourse (cache : Bool) (text : List Char) :
    (Grammar.initialCourse { cache, trackLines := true } text).Lined text := by
  refine ⟨rfl, Cursor.within_start true text, Cursor.within_start true text, ?_, nofun⟩
  intro key entry hentry
  cases cache with
  | false => nomatch hentry
  | true => simp [Grammar.initialCourse, State.start, State.remembered?] at hentry

/-- A course beside itself, with its lines counted right. -/
def LinedSelf (text : List Char) (k k' : Course) : Prop := k' = k ∧ k.Lined text

theorem LinedSelf.within (hc : MetBy (LinedSelf text) c) : c.Within true text := by
  obtain ⟨k, _, ⟨-, hk⟩, rfl⟩ := hc
  exact hk.cursor

theorem inStep_linedSelf (text : List Char) (h : Actions) : InStep (LinedSelf text) id h where
  ahead _ := rfl
  offset _ := rfl
  cursor hk := hk.1 ▸ rfl
  suspended hk := hk.1 ▸ rfl
  moveTo hk hc := ⟨hk.1 ▸ rfl, hk.2.moveTo (LinedSelf.within hc)⟩
  skip n hk := ⟨hk.1 ▸ rfl, hk.2.moveTo (hk.2.cursor.skip n)⟩
  failAt n d hk := ⟨hk.1 ▸ rfl, hk.2.failAt (hk.2.cursor.skip n) d⟩
  suspend n hk := ⟨hk.1 ▸ rfl, hk.2.suspend n⟩
  asked kind code labels ended v hk hc :=
    ⟨hk.1 ▸ rfl, hk.2.asked kind code labels (LinedSelf.within hc) ended v⟩
  act _ _ _ _ _ := rfl
  judge _ _ _ _ _ := rfl

theorem remembers_linedSelf (text : List Char) (rule : Nat) :
    Remembers (LinedSelf text) id rule rule where
  miss hk hlook := hk.1 ▸ hlook
  hit {k k' result s} hk hlook := by
    obtain ⟨rfl, hlined⟩ := hk
    exact ⟨s, hlook, rfl, hlined.hit hlook⟩
  entered _ _ hk := ⟨hk.1 ▸ rfl, hk.2.note _⟩
  remember result hk _ := ⟨hk.1 ▸ rfl, hk.2.remember rule _ result⟩

/-! ### With a count and without -/

/-- A course beside one that took the same steps without counting lines. -/
structure Uncounted (k k' : Course) : Prop where
  text_eq : k'.state.text = k.state.text
  cursor : k'.state.cursor = k.state.cursor.uncounted
  suspended : k'.state.suspended = k.state.suspended
  failure : k'.state.failure = k.state.failure.uncounted
  expected : k'.state.expected = k.state.expected
  remembers : k'.state.memory.isSome = k.state.memory.isSome
  entries (key : MemoKey) : k'.state.remembered? key =
    (k.state.remembered? key).map fun entry => ⟨entry.result, entry.after.uncounted⟩
  calls : k'.calls = k.calls.map HostCall.uncounted

namespace Uncounted

theorem reporting (h : Uncounted k k') : k'.state.reporting = k.state.reporting := by
  rw [State.reporting, State.reporting, h.suspended]

theorem memoKey (h : Uncounted k k') (rule offset : Nat) :
    k'.state.memoKey rule offset = k.state.memoKey rule offset := by
  rw [State.memoKey, State.memoKey, h.reporting]

theorem moveTo (h : Uncounted k k') (c : Cursor) :
    Uncounted (k.update (·.moveTo c)) (k'.update (·.moveTo c.uncounted)) :=
  ⟨h.text_eq, rfl, h.suspended, h.failure, h.expected, h.remembers, h.entries, h.calls⟩

theorem failAt (h : Uncounted k k') (c : Cursor) (d : String) :
    Uncounted (k.update (·.failAt c d)) (k'.update (·.failAt c.uncounted d)) := by
  have hplace : k'.state.failure.offset = k.state.failure.offset := by
    rw [h.failure, Cursor.offset_uncounted]
  change Uncounted ⟨k.state.failAt c d, k.calls⟩ ⟨k'.state.failAt c.uncounted d, k'.calls⟩
  by_cases hreporting : k.state.reporting
  · rw [State.failAt_of_reporting hreporting,
      State.failAt_of_reporting (h.reporting.trans hreporting)]
    refine ⟨h.text_eq, h.cursor, h.suspended, ?_, ?_, h.remembers, h.entries, h.calls⟩
    · dsimp only
      rw [hplace, Cursor.offset_uncounted, h.failure, apply_ite Cursor.uncounted]
    · dsimp only
      rw [hplace, Cursor.offset_uncounted, h.expected]
  · rw [State.failAt, State.failAt, if_neg hreporting, h.reporting, if_neg hreporting]
    exact h

theorem suspend (h : Uncounted k k') (n : Nat) :
    Uncounted (k.update fun s => { s with suspended := n })
      (k'.update fun s => { s with suspended := n }) :=
  ⟨h.text_eq, h.cursor, rfl, h.failure, h.expected, h.remembers, h.entries, h.calls⟩

theorem asked (h : Uncounted k k') (kind : CodeKind) (code : String) (labels : Scope Value)
    (begun ended : Cursor) (v : Value) :
    Uncounted (k.asked ⟨kind, code, .ofMatch labels begun ended v⟩)
      (k'.asked ⟨kind, code, .ofMatch labels begun.uncounted ended.uncounted v⟩) := by
  refine ⟨h.text_eq, h.cursor, h.suspended, h.failure, h.expected, h.remembers, h.entries, ?_⟩
  rw [Context.ofMatch_uncounted]
  exact congrArg _ h.calls

theorem note (h : Uncounted k k') (e : Event) :
    Uncounted (k.update (·.note e)) (k'.update (·.note e)) :=
  ⟨h.text_eq, h.cursor, h.suspended, h.failure, h.expected, h.remembers, h.entries, h.calls⟩

theorem remember (h : Uncounted k k') (rule : Nat) (begun : Cursor) (result : Option Value) :
    Uncounted (k.update (·.remember rule begun result))
      (k'.update (·.remember rule begun.uncounted result)) := by
  refine ⟨h.text_eq, h.cursor, h.suspended, h.failure, h.expected, ?_, ?_, h.calls⟩
  · change (Option.map _ k'.state.memory).isSome = (Option.map _ k.state.memory).isSome
    rw [Option.isSome_map, Option.isSome_map, h.remembers]
  · intro key
    change (k'.state.remember rule begun.uncounted result).remembered? key =
      ((k.state.remember rule begun result).remembered? key).map _
    rw [State.remembered?_remember, State.remembered?_remember, h.remembers,
      Cursor.offset_uncounted, h.memoKey, h.cursor, h.entries key]
    split <;> rfl

end Uncounted

/-- A course whose lines are counted right, beside one that does not count them. -/
def LinedBeside (text : List Char) (k k' : Course) : Prop := k.Lined text ∧ Uncounted k k'

theorem LinedBeside.within (hc : MetBy (LinedBeside text) c) : c.Within true text := by
  obtain ⟨k, _, ⟨hk, -⟩, rfl⟩ := hc
  exact hk.cursor

/-- The answers of the host do not depend on the line and the column. -/
structure Actions.IgnoresLines (h : Actions) : Prop where
  action (code : String) (f : Handler Value) : h.findAction? code = some f →
    ∀ (cx : Context) (lineColumn : Option (Nat × Nat)), f.run { cx with lineColumn } = f.run cx
  predicate (code : String) (f : Handler Bool) : h.findPredicate? code = some f →
    ∀ (cx : Context) (lineColumn : Option (Nat × Nat)), f.run { cx with lineColumn } = f.run cx

namespace Actions.IgnoresLines

variable {h : Actions}

theorem act_uncounted (hh : h.IgnoresLines) (code : String) (cx : Context) :
    h.act code cx.uncounted = h.act code cx := by
  unfold act
  cases hf : h.findAction? code with
  | none => rfl
  | some f => exact hh.action code f hf cx none

theorem judge_uncounted (hh : h.IgnoresLines) (code : String) (cx : Context) :
    h.judge code cx.uncounted = h.judge code cx := by
  unfold judge
  cases hf : h.findPredicate? code with
  | none => rfl
  | some f => exact hh.predicate code f hf cx none

end Actions.IgnoresLines

theorem inStep_linedBeside (text : List Char) {h : Actions} (hh : h.IgnoresLines) :
    InStep (LinedBeside text) Cursor.uncounted h where
  ahead _ := rfl
  offset _ := rfl
  cursor hk := hk.2.cursor
  suspended hk := hk.2.suspended
  moveTo hk hc := ⟨hk.1.moveTo (LinedBeside.within hc), hk.2.moveTo _⟩
  skip {k k'} n hk := by
    refine ⟨hk.1.moveTo (hk.1.cursor.skip n), ?_⟩
    change Uncounted _ (k'.update (·.moveTo (k'.state.cursor.skip n)))
    rw [hk.2.cursor, ← Cursor.uncounted_skip]
    exact hk.2.moveTo _
  failAt {k k'} n d hk := by
    refine ⟨hk.1.failAt (hk.1.cursor.skip n) d, ?_⟩
    change Uncounted _ (k'.update (·.failAt (k'.state.cursor.skip n) d))
    rw [hk.2.cursor, ← Cursor.uncounted_skip]
    exact hk.2.failAt _ d
  suspend n hk := ⟨hk.1.suspend n, hk.2.suspend n⟩
  asked kind code labels ended v hk hc :=
    ⟨hk.1.asked kind code labels (LinedBeside.within hc) ended v, hk.2.asked ..⟩
  act code labels begun ended v := by
    rw [Context.ofMatch_uncounted]
    exact hh.act_uncounted code _
  judge code labels begun ended v := by
    rw [Context.ofMatch_uncounted]
    exact hh.judge_uncounted code _

theorem remembers_linedBeside (text : List Char) (rule : Nat) :
    Remembers (LinedBeside text) Cursor.uncounted rule rule := by
  have hkey : ∀ {k k' : Course}, Uncounted k k' →
      k'.state.memoKey rule k'.state.offset = k.state.memoKey rule k.state.offset := by
    intro k k' hk
    rw [hk.memoKey, State.offset, State.offset, hk.cursor, Cursor.offset_uncounted]
  refine ⟨?_, ?_, ?_, ?_⟩
  · rintro k k' ⟨-, hk⟩ hmiss
    rw [State.lookUp_eq_remembered?, Option.map_eq_none_iff] at hmiss
    rw [State.lookUp_eq_remembered?, hkey hk, hk.entries, hmiss]
    rfl
  · rintro k k' result s ⟨hlined, hk⟩ hhit
    have hs := hlined.hit hhit
    rw [State.lookUp_eq_remembered?, Option.map_eq_some_iff] at hhit
    obtain ⟨entry, hentry, heq⟩ := hhit
    obtain ⟨rfl, rfl⟩ := Prod.mk.inj heq
    refine ⟨k'.state.moveTo entry.after.uncounted, ?_, hs, hk.moveTo entry.after⟩
    rw [State.lookUp_eq_remembered?, hkey hk, hk.entries, hentry]
    rfl
  · rintro k k' offset reporting ⟨hlined, hk⟩
    exact ⟨hlined.note _, hk.note _⟩
  · rintro k k' begun result ⟨hlined, hk⟩ -
    exact ⟨hlined.remember rule begun result, hk.remember rule begun result⟩

/-! ### Results -/

/-- The place of an error has its line and column with it, or they are counted from the beginning.
-/
theorem LinedBeside.error_eq (hk : LinedBeside text k k') : k.state.error = k'.state.error := by
  obtain ⟨hlined, hk⟩ := hk
  have hlines : ∀ c : Cursor, c.Within true text → c.uncounted.position.lineColumn.getD
      (Position.lineColumnAt text c.offset) =
        c.position.lineColumn.getD (Position.lineColumnAt text c.offset) := by
    intro c hc
    obtain ⟨lines, hcounted, hown⟩ := hc.exists_lineColumn
    rw [hown, Position.lineColumnAt, hcounted]
    rfl
  unfold State.error
  rw [hk.text_eq, hk.cursor, hk.failure, hk.expected, hlined.text_eq, Cursor.offset_uncounted,
    Cursor.offset_uncounted]
  split_ifs
  · dsimp only
    rw [Cursor.offset_uncounted, Cursor.ahead_uncounted, hlines _ hlined.cursor]
  · dsimp only
    rw [Cursor.offset_uncounted, Cursor.ahead_uncounted, hlines _ hlined.failure]

theorem LinedBeside.finish_eq (hk : LinedBeside text k k') (result : Option Value) :
    k.state.finish result = k'.state.finish result := by
  unfold State.finish State.atEnd
  rw [hk.error_eq, hk.2.cursor, Cursor.ahead_uncounted]

theorem linedBeside_initialCourse (cache : Bool) (text : List Char) :
    LinedBeside text (Grammar.initialCourse { cache, trackLines := true } text)
      (Grammar.initialCourse { cache, trackLines := false } text) := by
  refine ⟨lined_initialCourse cache text, rfl, rfl, rfl, rfl, rfl, rfl, ?_, rfl⟩
  intro key
  cases cache with
  | false => rfl
  | true => simp [Grammar.initialCourse, State.start, State.remembered?]

namespace Grammar

variable (g : Grammar) (cache : Bool) (fuel : Nat) (input : String) (start : Option String)

/-- With a count of lines and without, an evaluation has one result. -/
theorem evaluate_uncounted {h : Actions} (hh : h.IgnoresLines) :
    (g.evaluate h { cache, trackLines := true } fuel input start).result =
      (g.evaluate h { cache, trackLines := false } fuel input start).result := by
  have hpairs := g.outcome_pairs_self (inStep_linedBeside input.toList hh)
    (remembers_linedBeside input.toList) fuel (start.getD g.start)
  unfold evaluate
  dsimp only
  split
  · exact (hpairs (linedBeside_initialCourse cache _)).verdict_eq fun _ _ hk => hk.finish_eq
  · rfl

/-- A host that gets lines and columns gets those of the offset, counted from the beginning. -/
theorem lines_of_evaluate (h : Actions) :
    ∀ call ∈ (g.evaluate h { cache, trackLines := true } fuel input start).calls, ∃ lines,
      (Position.at? input.toList call.context.offset).bind Position.lineColumn = some lines ∧
        call.context.lineColumn = some lines := by
  have hpairs := g.outcome_pairs_self (inStep_linedSelf input.toList h)
    (remembers_linedSelf input.toList) fuel (start.getD g.start)
  unfold evaluate
  dsimp only
  split
  · intro call hcall
    have hends := (hpairs ⟨rfl, lined_initialCourse cache input.toList⟩).finalCourse
    exact hends.2.calls call (List.mem_reverse.mp hcall)
  · nofun

end Grammar

/-- What a code block sees is one of the calls that the host sees. -/
theorem Matcher.exists_hostCall {m : Matcher} {journal : List Event} {site : Nat} {cx : Context}
    (h : .called site cx ∈ journal) : ∃ call ∈ journal.filterMap m.hostCall?, call.context = cx :=
  ⟨_, List.mem_filterMap.mpr ⟨_, h, rfl⟩, rfl⟩

/-- A matcher that counts lines and one that does not have the same results, with any fuel, if the
host does not look at lines and columns. Whether it does or not, the lines and columns it gets are
those of the offset. -/
theorem buildMatcher_untracked {grammar : String} {h : Actions} {cache : Bool} {m : Matcher}
    (hm : buildMatcher grammar h { cache, trackLines := true } = .ok m) :
    ∃ m', buildMatcher grammar h { cache, trackLines := false } = .ok m' ∧
      (h.IgnoresLines →
        (∀ fuel input start,
          (m.parse fuel input start).result = (m'.parse fuel input start).result) ∧
        ∀ input start r, m.Gives input start r ↔ m'.Gives input start r) ∧
      ∀ fuel input start site cx, .called site cx ∈ (m.parse fuel input start).journal → ∃ lines,
        (Position.at? input.toList cx.offset).bind Position.lineColumn = some lines ∧
          cx.lineColumn = some lines := by
  obtain ⟨m', hm'⟩ : ∃ m', buildMatcher grammar h { cache, trackLines := false } = .ok m' :=
    ⟨_, buildMatcher_options hm _⟩
  obtain ⟨g, hg, hoptions, hadequate⟩ := buildMatcher_adequate hm
  obtain ⟨g', hg', hoptions', hadequate'⟩ := buildMatcher_adequate hm'
  obtain rfl : g = g' := Except.ok.inj (hg.symm.trans hg')
  refine ⟨m', hm', fun hh => ?_, ?_⟩
  · have hresult : ∀ fuel input start,
        (m.parse fuel input start).result = (m'.parse fuel input start).result := by
      intro fuel input start
      rw [hadequate.result, hadequate'.result, hoptions, hoptions']
      exact g.removeProxies.1.evaluate_uncounted cache fuel input start hh
    refine ⟨hresult, fun input start r => ?_⟩
    simp only [Matcher.Gives, hresult]
  · intro fuel input start site cx hcalled
    obtain ⟨call, hcall, rfl⟩ := m.exists_hostCall hcalled
    rw [hadequate.calls, hoptions] at hcall
    exact g.removeProxies.1.lines_of_evaluate cache fuel input start h call hcall

theorem ignoresLines_passthrough : Actions.passthrough.IgnoresLines := by
  constructor
  · intro code f hf cx lineColumn
    obtain rfl := Option.some.inj hf
    rfl
  · intro code f hf cx lineColumn
    obtain rfl := Option.some.inj hf
    rfl

/-- The code block of the small grammar is called at the beginning, in line 1 and column 1. -/
theorem buildMatcher_untracked_small : ∃ m m',
    buildMatcher smallText .passthrough { cache := true, trackLines := true } = .ok m ∧
      buildMatcher smallText .passthrough { cache := true, trackLines := false } = .ok m' ∧
        Actions.passthrough.IgnoresLines ∧
          (m.parse 3 "x" none).result = (m'.parse 3 "x" none).result ∧
            ∃ site cx, .called site cx ∈ (m.parse 3 "x" none).journal ∧
              cx.lineColumn = some (1, 1) ∧ ∃ lines,
                (Position.at? ['x'] cx.offset).bind Position.lineColumn = some lines ∧
                  cx.lineColumn = some lines := by
  obtain ⟨source, hm⟩ := small_matcher { cache := true, trackLines := true }
  obtain ⟨m', hm', hsame, hlines⟩ := buildMatcher_untracked hm
  have hjournal : ((smallMatcher { cache := true, trackLines := true } source).parse 3 "x"
      none).journal = [.entered 0 0 true, .entered 1 0 true,
        .called 0 ⟨0, some (1, 1), [("a", .str "x")], .str "x", "x"⟩] := by
    cbv
  have hcalled : .called 0 ⟨0, some (1, 1), [("a", .str "x")], .str "x", "x"⟩ ∈
      ((smallMatcher { cache := true, trackLines := true } source).parse 3 "x" none).journal := by
    rw [hjournal]
    simp
  refine ⟨_, m', hm, hm', ignoresLines_passthrough, ?_, _, _, hcalled, rfl, ?_⟩
  · exact (hsame ignoresLines_passthrough).1 3 "x" none
  · exact hlines 3 "x" none _ _ hcalled

end Packrat
