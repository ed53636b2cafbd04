import Packrat.Proofs.ErrorReport

/-!
# The packrat guarantee

A parse that remembers results enters the body of a rule at most once for each key: rule, offset and
reporting. That a finished rule is not entered again is what the memory is for. But a result is
stored when the body is done, and inside of it the same rule might be tried once more at the place
where it began. It is not, if the parse ends. What a run without a memory enters depends on its key
alone, so a run with its own key inside enters at least as many bodies as it does in all, and one
more: such a run has no end.

The argument is about endings, not about what happens on the way, and therefore counts from a state
in the past. `Nested` and `Spared` say what was entered since then. They are kept by a call from
before its rule was entered once the call has returned, or was cut off by a halt.

The memory only skips. Calls of code blocks that a hit leaves out are those that the remembered run
has made before, and the calls that remain are made in the same order, so they are a sublist of the
calls of a parse without a memory.

## Main results

* `nested_leads`: without a memory, a run contains only runs that enter fewer bodies
* `not_mem_of_body`: inside its body, a rule is not entered again under its own key
* `frugal_leads`: a parse that remembers enters bodies for unknown keys only
* `parse_frugal`: the packrat guarantee for whole parses
-/

namespace Packrat

open Filter Run

variable {tracked : Bool} {text : List Char}

/-! ### Bodies that were entered -/

/-- The key of a rule whose body was entered. -/
def Event.entry? : Event → Option MemoKey
  | entered rule offset reporting => some ⟨rule, offset, reporting⟩
  | _ => none

namespace State

/-- The bodies that were entered, newest first. -/
def entries (s : State) : List MemoKey := s.journal.filterMap Event.entry?

/-- The key of a rule at the cursor. -/
def keyOf (s : State) (rule : Nat) : MemoKey := s.memoKey rule s.offset

theorem entries_entering (s : State) (rule : Nat) :
    (s.entering rule).entries = s.keyOf rule :: s.entries := rfl

/-- Events that were added may enter bodies. -/
theorem entries_of_journal {s t : State} {Δ : List Event} (h : s.journal = Δ ++ t.journal) :
    s.entries = Δ.filterMap Event.entry? ++ t.entries := by
  rw [entries, h, List.filterMap_append]
  rfl

theorem entries_failAt (s : State) (place : Cursor) (d : String) :
    (s.failAt place d).entries = s.entries := by
  rw [entries, journal_failAt]
  split <;> rfl

end State

/-- What is entered and what is remembered changes with calls of rules only. -/
theorem Steady.and {R : State → State → Prop} (hS : Steady R)
    (P : List MemoKey → Option Memory → List MemoKey → Prop) :
    Steady fun s t => R s t ∧ P s.entries s.memory t.entries where
  cursor h := hS.cursor h.1
  moveTo h hc := by
    obtain ⟨s, t, hst, rfl⟩ := hc
    exact ⟨hS.moveTo h.1 ⟨s, t, hst.1, rfl⟩, h.2⟩
  skip n h := ⟨hS.skip n h.1, h.2⟩
  failAt n d h := by
    refine ⟨hS.failAt n d h.1, ?_⟩
    rw [State.entries_failAt, State.memory_failAt, State.entries_failAt]
    exact h.2
  suspend h := ⟨hS.suspend h.1, h.2⟩
  resume h₀ h hs ht := ⟨hS.resume h₀.1 h.1 hs ht, h.2⟩
  called site cx h := ⟨hS.called site cx h.1, h.2⟩

/-! ### Runs without a memory -/

/-- A state without a memory, beside itself. -/
structure Alone (tracked : Bool) (text : List Char) (s t : State) : Prop where
  same : s = t
  forgetful : s.memory = none
  sound : s.Sound tracked text

theorem steady_alone : Steady (Alone tracked text) where
  cursor h := h.same ▸ rfl
  moveTo h hc := by
    obtain ⟨s, t, hst, rfl⟩ := hc
    exact ⟨h.same ▸ rfl, h.forgetful, h.sound.moveTo hst.sound.cursor⟩
  skip n h := ⟨h.same ▸ rfl, h.forgetful, h.sound.skip n⟩
  failAt {s t} n d h := by
    refine ⟨h.same ▸ rfl, ?_, h.sound.failAt (h.sound.cursor.skip n) d⟩
    rw [State.memory_failAt, h.forgetful]
  suspend h := ⟨h.same ▸ rfl, h.forgetful, h.sound.suspend _⟩
  resume _ h _ _ := ⟨h.same ▸ rfl, h.forgetful, h.sound.suspend _⟩
  called site cx h := ⟨h.same ▸ rfl, h.forgetful, h.sound.called ..⟩

section

variable {m : Matcher} {s s' t t' u : State} {n rule : Nat} {r : RuleProgram}
  {registers : Registers Cursor}

/-- How a run ends does not depend on the registers around it. -/
theorem endsIn_registers (h : EndsIn (m.call n rule ⟨s, registers⟩) t) (other : Registers Cursor) :
    EndsIn (m.call n rule ⟨s, other⟩) t := by
  rcases m.call_registers n rule s with ⟨result, u, hcall⟩ | ⟨e, u, hcall⟩
  · rw [hcall] at h ⊢
    cases h
    exact .ok
  · obtain ⟨last, hlast⟩ := hcall registers
    obtain ⟨last', hlast'⟩ := hcall other
    rw [hlast] at h
    rw [hlast']
    cases h
    exact .error ‹_›

/-- A run that ends does so with all larger amounts of fuel. -/
theorem endsIn_eventually (h : EndsIn (m.call n rule ⟨s, registers⟩) t) :
    ∀ᶠ n in atTop, EndsIn (m.call n rule ⟨s, registers⟩) t := by
  obtain ⟨_, rfl, hn⟩ := (call_leads_self m n rule (related_eq _)).endsIn le_rfl h
  exact hn

/-- Without a memory, a rule ends where its body ends. -/
theorem endsIn_of_body (hs : s.memory = none) (hr : m.program.rules[rule]? = some r)
    (ht : t.memory = none)
    (h : EndsIn (m.ruleBody (m.call n) n r ⟨s.entering rule, .blank r.registers⟩) t)
    (registers : Registers Cursor) : EndsIn (m.call (n + 1) rule ⟨s, registers⟩) t := by
  rw [Matcher.call_of_miss (State.lookUp_of_forgetful hs rule) hr]
  cases hbody : m.ruleBody (m.call n) n r ⟨s.entering rule, .blank r.registers⟩ with
  | ok result fr =>
    rw [hbody] at h
    cases h
    have hend : (⟨fr.state.remember rule s.cursor result, registers⟩ : Frame).state = fr.state :=
      State.remember_of_forgetful ht ..
    exact hend ▸ .ok
  | error e fr =>
    rw [hbody] at h
    cases h
    exact .error ‹_›

/-- What a run without a memory enters is settled by its key. -/
theorem entries_of_runs (hs : s.memory = none) (ht : t.memory = none)
    (hsound : s.Sound tracked text) (hsound' : t.Sound tracked text) (hoffset : s.offset = t.offset)
    (hreporting : s.reporting = t.reporting) {n' : Nat} {registers' : Registers Cursor}
    (hrun : EndsIn (m.call n rule ⟨s, registers⟩) s')
    (hrun' : EndsIn (m.call n' rule ⟨t, registers'⟩) t') :
    ∃ Δ, s'.entries = Δ ++ s.entries ∧ t'.entries = Δ ++ t.entries := by
  have hcursor : s.cursor = t.cursor := hsound.cursor.eq_of_offset hsound'.cursor hoffset
  have hstart := parallel_start hs ht hsound' hcursor hreporting
  obtain ⟨u, hu, hrun⟩ := (parallel_leads m s t n rule (related_blank hstart 0)).endsIn le_rfl
    (endsIn_registers hrun (.blank 0))
  obtain ⟨k, hk, hk'⟩ :=
    (hrun.and (endsIn_eventually (endsIn_registers hrun' (.blank 0)))).exists
  obtain rfl := hk.unique hk'
  obtain ⟨Δ, hΔ, hΔ'⟩ := hu.journal
  exact ⟨_, State.entries_of_journal hΔ, State.entries_of_journal hΔ'⟩

end

/-- Without a memory, the runs at a key enter at most so many bodies, their own among them. -/
def Fits (m : Matcher) (tracked : Bool) (text : List Char) (key : MemoKey) (count : Nat) : Prop :=
  ∀ (t t' : State) (n : Nat) (registers : Registers Cursor), t.memory = none →
    t.Sound tracked text → t.keyOf key.rule = key →
      EndsIn (m.call n key.rule ⟨t, registers⟩) t' →
        t'.entries.length ≤ count + t.entries.length

/-- Since `b`, runs were entered that fit into the number of bodies that were. -/
def Nested (m : Matcher) (tracked : Bool) (text : List Char) (b s t : State) : Prop :=
  Alone tracked text s t ∧
    ∃ Δ, s.entries = Δ ++ b.entries ∧ ∀ key ∈ Δ, Fits m tracked text key Δ.length

section

variable {m : Matcher} {b s t u : State} {n rule : Nat} {r : RuleProgram}
  {registers : Registers Cursor}

theorem Fits.mono {key : MemoKey} {count count' : Nat} (h : Fits m tracked text key count)
    (hle : count ≤ count') : Fits m tracked text key count' := by
  intro t t' n registers hmemory hsound hkey hrun
  have hfits := h t t' n registers hmemory hsound hkey hrun
  omega

theorem steady_nested (b : State) : Steady (Nested m tracked text b) :=
  steady_alone.and fun entries _ _ =>
    ∃ Δ, entries = Δ ++ b.entries ∧ ∀ key ∈ Δ, Fits m tracked text key Δ.length

theorem forgetful_nested (b : State) : Forgetful (Nested m tracked text b) where
  left h := h.1.forgetful
  right h := h.1.same ▸ h.1.forgetful

/-- From where a rule is entered, nothing has been entered yet. -/
theorem Alone.nested (h : Alone tracked text s t) : Nested m tracked text s s t :=
  ⟨h, [], rfl, nofun⟩

/-- A run fits into what it has entered, and so does all that was entered before. -/
theorem Nested.behind (h : Nested m tracked text b s s)
    (hbody : Nested m tracked text (s.entering rule) u u)
    (hrun : EndsIn (m.call n rule ⟨s, registers⟩) u) : Nested m tracked text b u u := by
  obtain ⟨hs, Δ, hΔ, hfits⟩ := h
  obtain ⟨hu, Δ', hΔ', hfits'⟩ := hbody
  rw [State.entries_entering, hΔ] at hΔ'
  refine ⟨hu, Δ' ++ s.keyOf rule :: Δ, by simpa using hΔ', ?_⟩
  intro key hkey
  rw [List.length_append, List.length_cons]
  obtain hkey | hkey := List.mem_append.mp hkey
  · exact (hfits' key hkey).mono (by omega)
  obtain rfl | hkey := List.mem_cons.mp hkey
  · intro t t' n' registers' hmemory hsound hkey hrun'
    have hoffset : s.offset = t.offset := congrArg MemoKey.offset hkey.symm
    have hreporting : s.reporting = t.reporting := congrArg MemoKey.reporting hkey.symm
    obtain ⟨Δ'', hsame, hsame'⟩ :=
      entries_of_runs hs.forgetful hmemory hs.sound hsound hoffset hreporting hrun hrun'
    have hlength := congrArg List.length hsame
    have hlength' := congrArg List.length hsame'
    have hlength'' := congrArg List.length hΔ'
    rw [hΔ] at hlength
    simp only [List.length_append, List.length_cons] at hlength hlength' hlength''
    omega
  · exact (hfits key hkey).mono (by omega)

/-- Without a memory, a run contains only runs that enter fewer bodies. -/
theorem nested_leads (m : Matcher) (b : State) (fuel rule : Nat) :
    Leads (Nested m tracked text b) (Nested m tracked text b) (m.call fuel rule)
      (fun n => m.call n rule) := by
  induction fuel generalizing rule b with
  | zero => exact .outOfFuel _
  | succ fuel ih =>
    cases hr : m.program.rules[rule]? with
    | none => exact call_leads_of_missing le_rfl (forgetful_nested b) hr hr
    | some r =>
      rintro ⟨s, registers⟩ ⟨t, _⟩ hR
      obtain rfl : registers = _ := hR.registers
      have hst : Nested m tracked text b s t := hR.state
      obtain rfl : s = t := hst.1.same
      have hmiss := Matcher.call_of_miss (State.lookUp_of_forgetful hst.1.forgetful rule) hr
      have hentered : Alone tracked text (s.entering rule) (s.entering rule) :=
        ⟨rfl, hst.1.forgetful, hst.1.sound.entered ..⟩
      have hbody := ruleBody_leads_self m le_rfl (steady_nested (s.entering rule))
        (ih (s.entering rule)) r (related_blank hentered.nested r.registers)
      have hbehind {u : State} (hu : Nested m tracked text (s.entering rule) u u)
          (hrun : EndsIn (m.ruleBody (m.call fuel) fuel r
            ⟨s.entering rule, .blank r.registers⟩) u) : Nested m tracked text b u u :=
        hst.behind hu (endsIn_of_body hst.1.forgetful hr hu.1.forgetful hrun registers)
      refine Follows.succ ?_
      simp only [hmiss]
      refine hbody.after _ _ ?_ ?_
      · intro result after after' hR' hs ht hrun _
        obtain ⟨u, registers'⟩ := after
        obtain ⟨_, _⟩ := after'
        obtain rfl : u = _ := hR'.state.1.same
        have hu : Nested m tracked text (s.entering rule) u u := hR'.state
        rw [State.remember_of_forgetful hu.1.forgetful]
        exact ⟨hR.withState (hbehind hu (.of_ok hrun)), hs, ht⟩
      · intro u _ hu hrun _
        obtain rfl := hu.1.same
        exact hbehind hu hrun

/-- The body of a rule that ends has not entered the rule again under its own key. -/
theorem not_mem_of_body (hs : s.memory = none) (hsound : s.Sound tracked text)
    (hr : m.program.rules[rule]? = some r)
    (hrun : EndsIn (m.ruleBody (m.call n) n r ⟨s.entering rule, .blank r.registers⟩) u)
    {Δ : List MemoKey} (hΔ : u.entries = Δ ++ (s.entering rule).entries) : s.keyOf rule ∉ Δ := by
  have hentered : Alone tracked text (s.entering rule) (s.entering rule) :=
    ⟨rfl, hs, hsound.entered ..⟩
  have hbody := ruleBody_leads_self m le_rfl (steady_nested (s.entering rule))
    (nested_leads m (s.entering rule) n) r (related_blank hentered.nested r.registers)
  obtain ⟨_, ⟨hu, Δ', hΔ', hfits⟩, -⟩ := hbody.endsIn le_rfl hrun
  obtain rfl : Δ' = Δ := List.append_cancel_right (hΔ'.symm.trans hΔ)
  intro hmem
  -- The rule would fit into what its body has entered, but it has entered itself besides.
  have hfit := hfits _ hmem s u (n + 1) (.blank 0) hs hsound rfl
    (endsIn_of_body hs hr hu.forgetful hrun _)
  rw [hΔ, State.entries_entering, List.length_append, List.length_cons] at hfit
  omega

end

/-! ### Runs that remember -/

/-- The memory has a result for the key. -/
def Knows (memory : Option Memory) (key : MemoKey) : Prop :=
  ∃ known, memory = some known ∧ key ∈ known

namespace State

variable {s : State} {rule : Nat}

theorem lookUp_eq_none_iff : s.lookUp rule = none ↔ ¬Knows s.memory (s.keyOf rule) := by
  unfold lookUp Knows keyOf
  cases s.memory with
  | none => simp
  | some known =>
    simp only [Option.bind_eq_bind, Option.bind_some, Option.pure_def, Option.some.injEq,
      exists_eq_left', Std.HashMap.mem_iff_isSome_getElem?]
    cases known[s.memoKey rule s.offset]? <;> simp

theorem knows_remember (h : s.memory.isSome) (begun : Cursor) (result : Option Value)
    (key : MemoKey) : Knows (s.remember rule begun result).memory key ↔
      key = s.memoKey rule begun.offset ∨ Knows s.memory key := by
  obtain ⟨known, hknown⟩ := Option.isSome_iff_exists.mp h
  simp only [Knows, remember, hknown, Option.map_some, Option.some.injEq, exists_eq_left',
    Std.HashMap.mem_insert, beq_iff_eq]
  exact or_congr_left eq_comm

end State

/-- Since `b`, bodies were entered one by one, none of them for what `b` knew. Since `c`, a parse
without a memory entered those bodies as well. -/
structure Spared (b c : State) (Δ entries entries' : List MemoKey) : Prop where
  left : entries = Δ ++ b.entries
  right : ∃ Δ', entries' = Δ' ++ c.entries ∧ Δ ⊆ Δ'
  nodup : Δ.Nodup
  unknown : ∀ key ∈ Δ, ¬Knows b.memory key

/-- The results of all these bodies, and those that `b` knew, are known. -/
structure Learned (b : State) (Δ : List MemoKey) (memory : Option Memory) : Prop where
  remembers : memory.isSome
  knows : ∀ key, key ∈ Δ ∨ Knows b.memory key → Knows memory key

/-- A parse that remembers beside one that does not, since `b` and `c`. -/
def Frugal (m : Matcher) (tracked : Bool) (text : List Char) (b c s t : State) : Prop :=
  Caching m tracked text s t ∧ ∃ Δ, Spared b c Δ s.entries t.entries ∧ Learned b Δ s.memory

/-- The same behind a halt, where the results of the bodies that it left are missing. -/
def Halted (m : Matcher) (tracked : Bool) (text : List Char) (b c s t : State) : Prop :=
  Caching m tracked text s t ∧ ∃ Δ, Spared b c Δ s.entries t.entries

section

variable {m : Matcher} {b c s t u v : State} {Δ Δ₀ entries entries' : List MemoKey} {n rule : Nat}
  {r : RuleProgram} {result : Option Value}

theorem steady_frugal (b c : State) : Steady (Frugal m tracked text b c) :=
  (steady_caching m).and fun entries memory entries' =>
    ∃ Δ, Spared b c Δ entries entries' ∧ Learned b Δ memory

theorem frugal_le_halted (b c : State) :
    Frugal m tracked text b c ≤ Halted m tracked text b c :=
  fun _ _ h => ⟨h.1, h.2.imp fun _ hΔ => hΔ.1⟩

/-- From where a rule is entered, nothing has been entered yet. -/
theorem Caching.frugal (h : Caching m tracked text s t) (hs : s.memory.isSome) :
    Frugal m tracked text s t s t :=
  ⟨h, [], ⟨rfl, ⟨[], rfl, List.Subset.refl _⟩, .nil, nofun⟩,
    ⟨hs, fun _ hkey => hkey.resolve_left nofun⟩⟩

theorem Caching.keyOf (h : Caching m tracked text s t) (rule : Nat) :
    s.keyOf rule = t.keyOf rule := by
  rw [State.keyOf, State.keyOf, State.memoKey, State.memoKey, State.offset, State.offset, h.cursor,
    h.reporting]

/-- The parse without a memory may do more. -/
theorem Spared.skip (h : Spared b c Δ entries entries') (more : List MemoKey) :
    Spared b c Δ entries (more ++ entries') := by
  obtain ⟨Δ', hΔ', hsub⟩ := h.right
  exact { h with right := ⟨more ++ Δ', by rw [hΔ', List.append_assoc],
    List.subset_append_of_subset_right _ hsub⟩ }

/-- What a body has entered adds to what was entered before, and so does the body itself. -/
theorem Spared.behind (h₀ : Spared b c Δ₀ s.entries t.entries) (hlearned : Learned b Δ₀ s.memory)
    (hkey : s.keyOf rule = t.keyOf rule) (hmiss : ¬Knows s.memory (s.keyOf rule))
    (h : Spared (s.entering rule) (t.entering rule) Δ entries entries')
    (hnot : s.keyOf rule ∉ Δ) : Spared b c (Δ ++ s.keyOf rule :: Δ₀) entries entries' := by
  obtain ⟨Δ₀', hΔ₀', hsub₀⟩ := h₀.right
  obtain ⟨Δ', hΔ', hsub⟩ := h.right
  refine ⟨?_, ⟨Δ' ++ s.keyOf rule :: Δ₀', ?_, ?_⟩, ?_, ?_⟩
  · rw [h.left, State.entries_entering, h₀.left]
    simp
  · rw [hΔ', State.entries_entering, ← hkey, hΔ₀']
    simp
  · exact List.append_subset.mpr ⟨List.subset_append_of_subset_left _ hsub,
      List.subset_append_of_subset_right _ (List.cons_subset_cons _ hsub₀)⟩
  · have hnew : s.keyOf rule ∉ Δ₀ := fun hmem => hmiss (hlearned.knows _ (.inl hmem))
    refine h.nodup.append (h₀.nodup.cons hnew) fun key hmem hmem₀ => ?_
    obtain rfl | hmem₀ := List.mem_cons.mp hmem₀
    · exact hnot hmem
    · exact h.unknown key hmem (hlearned.knows key (.inl hmem₀))
  · intro key hmem hknown
    have hknown' : Knows s.memory key := hlearned.knows key (.inr hknown)
    obtain hmem | hmem := List.mem_append.mp hmem
    · exact h.unknown key hmem hknown'
    obtain rfl | hmem := List.mem_cons.mp hmem
    · exact hmiss hknown'
    · exact h₀.unknown key hmem hknown

/-- A body does not enter its rule again where it began, since the parse without a memory would have
no end there. -/
theorem Spared.not_mem (h : Spared (s.entering rule) (t.entering rule) Δ entries u.entries)
    (hst : Caching m tracked text s t) (hr : m.program.rules[rule]? = some r)
    (hrun : EndsIn (m.ruleBody (m.call n) n r ⟨t.entering rule, .blank r.registers⟩) u) :
    s.keyOf rule ∉ Δ := by
  obtain ⟨Δ', hΔ', hsub⟩ := h.right
  intro hmem
  refine not_mem_of_body hst.forgetful hst.soundRight hr hrun hΔ' ?_
  rw [← hst.keyOf]
  exact hsub hmem

/-- Behind a body, its result is learned as well. -/
theorem Learned.remember (h₀ : Learned b Δ₀ s.memory) (h : Learned (s.entering rule) Δ u.memory)
    (hsuspended : u.suspended = s.suspended) (result : Option Value) :
    Learned b (Δ ++ s.keyOf rule :: Δ₀) (u.remember rule s.cursor result).memory := by
  have hkey : u.memoKey rule s.cursor.offset = s.keyOf rule := by
    simp only [State.keyOf, State.memoKey, State.reporting, hsuspended]
    rfl
  refine ⟨by simp [State.remember, h.remembers], ?_⟩
  intro key hmem
  rw [State.knows_remember h.remembers, hkey]
  rw [List.mem_append, List.mem_cons] at hmem
  obtain (hmem | rfl | hmem) | hknown := hmem
  · exact .inr (h.knows key (.inl hmem))
  · exact .inl rfl
  · exact .inr (h.knows key (.inr (h₀.knows key (.inl hmem))))
  · exact .inr (h.knows key (.inr (h₀.knows key (.inr hknown))))

end

/-- A parse that remembers enters a body only for a key that is not known, and a parse without a
memory enters it too. -/
theorem frugal_leads (m : Matcher) (b c : State) (fuel rule : Nat) :
    Leads (Frugal m tracked text b c) (Halted m tracked text b c) (m.call fuel rule)
      (fun n => m.call n rule) := by
  induction fuel generalizing rule b c with
  | zero => exact .outOfFuel _
  | succ fuel ih =>
    rintro ⟨s, registers⟩ ⟨t, _⟩ hR
    obtain rfl : registers = _ := hR.registers
    have hst : Frugal m tracked text b c s t := hR.state
    obtain ⟨hcaching, Δ₀, hspared, hlearned⟩ := id hst
    cases hs : s.lookUp rule with
    | some hit =>
      obtain ⟨result, u⟩ := hit
      obtain ⟨t', hrun, hut, hsuspended, Δ, hΔ⟩ := hcaching.hit hs
      obtain ⟨_, _, _, _, _, rfl⟩ := State.lookUp_eq_some_iff.mp hs
      have hspared' := State.entries_of_journal hΔ ▸ hspared.skip (Δ.filterMap Event.entry?)
      rw [Matcher.call_of_hit hs]
      refine .ok (hR.withState ⟨hut, Δ₀, hspared', hlearned⟩) ?_ hsuspended (hrun registers)
      exact hut.suspended.trans (hsuspended.trans hcaching.suspended.symm)
    | none =>
      refine Follows.succ ?_
      have ht := State.lookUp_of_forgetful hcaching.forgetful rule
      cases hr : m.program.rules[rule]? with
      | none =>
        simp only [Matcher.call_of_missing ht hr, Matcher.call_of_missing hs hr]
        exact .error nofun (frugal_le_halted b c _ _ hst) (.of_forall fun _ => ⟨_, rfl⟩)
      | some r =>
        simp only [Matcher.call_of_miss ht hr, Matcher.call_of_miss hs hr]
        have hentering := (hcaching.entering rule).frugal hlearned.remembers
        have hbody := ruleBody_leads_self m (frugal_le_halted _ _) (steady_frugal ..)
          (ih (s.entering rule) (t.entering rule)) r
        have hbehind {u v : State} {Δ : List MemoKey}
            (h : Spared (s.entering rule) (t.entering rule) Δ u.entries v.entries)
            (hrun : ∀ᶠ n in atTop,
              EndsIn (m.ruleBody (m.call n) n r ⟨t.entering rule, .blank r.registers⟩) v) :
            Spared b c (Δ ++ s.keyOf rule :: Δ₀) u.entries v.entries := by
          obtain ⟨n, hn⟩ := hrun.exists
          exact hspared.behind hlearned (hcaching.keyOf rule) (State.lookUp_eq_none_iff.mp hs) h
            (h.not_mem hcaching hr hn)
        refine (hbody (related_blank hentering r.registers)).after _ _ ?_ ?_
        · intro result after after' hR' hs' ht' _ hn
          obtain ⟨hafter, Δ, hspared', hlearned'⟩ := hR'.state
          have hspared'' := hbehind hspared' (hn.mono fun _ => .of_ok)
          obtain ⟨n, hn⟩ := hn.exists
          have hstored := hcaching.storeBoth hr hafter hs' hn
          have hlearned'' := hlearned.remember hlearned' hs' result
          exact ⟨hR.withState ⟨hstored, _, hspared'', hlearned''⟩, hs', ht'⟩
        · rintro u v ⟨huv, Δ, hspared'⟩ _ hn
          exact ⟨huv, _, hbehind hspared' hn⟩

/-! ### Whole parses -/

section

variable {m m' : Matcher} {fuel rule : Nat} {input : String} {start : Option String} {s : State}

theorem EndsIn.result_parse (hstart : m.startIndex start = .ok rule)
    (h : EndsIn (m.runRule fuel input.toList rule) s) :
    (m.parse fuel input start).result ≠ .error .outOfFuel := by
  rw [Matcher.result_parse hstart]
  cases hrun : m.runRule fuel input.toList rule with
  | ok result fr =>
    rw [Matcher.verdict]
    cases fr.state.finish result <;> rintro ⟨⟩
  | error halt fr =>
    rw [hrun] at h
    cases h
    cases halt with
    | outOfFuel => contradiction
    | action _ | fault _ => rintro ⟨⟩

/-- A parse that ends shows the journal of the state in which its rule ended. -/
theorem exists_endsIn_of_parse (hstart : m.startIndex start = .ok rule)
    (h : (m.parse fuel input start).result ≠ .error .outOfFuel) :
    ∃ s, EndsIn (m.runRule fuel input.toList rule) s ∧
      (m.parse fuel input start).journal = s.journal.reverse := by
  rw [Matcher.result_parse hstart] at h
  rw [journal_parse hstart rfl]
  refine ⟨_, ?_, rfl⟩
  cases hrun : m.runRule fuel input.toList rule with
  | ok result fr => exact .ok
  | error halt fr =>
    refine .error fun hhalt => h ?_
    rw [hrun, hhalt]
    rfl

variable (hprogram : m.program = m'.program) (hbindings : m.bindings = m'.bindings)
  (htracked : m.options.trackLines = m'.options.trackLines) (hcache : m.options.cache = true)
  (hforget : m'.options.cache = false)

include hprogram hbindings htracked hcache hforget

/-- Where a run that remembers ends, a run without a memory ends as well, with no fewer calls. -/
theorem frugal_of_runRule {text : List Char} (hs : EndsIn (m.runRule fuel text rule) s) :
    s.entries.Nodup ∧ ∃ t, (∀ᶠ n in atTop, EndsIn (m'.runRule n text rule) t) ∧
      s.calls.Sublist t.calls := by
  have hcall := call_congr hprogram hbindings
  have hstart := (caching_start m m.options.trackLines true text).frugal rfl
  rw [Matcher.runRule, Matcher.initialFrame, hcache] at hs
  obtain ⟨t, ⟨hcaching, Δ, hspared⟩, ht⟩ :=
    (frugal_leads m _ _ fuel rule (related_blank hstart 0)).endsIn (frugal_le_halted _ _) hs
  have hentries : s.entries = Δ ++ [] := hspared.left
  rw [hentries, List.append_nil]
  refine ⟨hspared.nodup, t, ?_, hcaching.calls⟩
  filter_upwards [ht] with n hn
  rwa [Matcher.runRule, Matcher.initialFrame, hforget, ← htracked, ← hcall]

theorem Matcher.frugal_of_forgetful
    (h : (m.parse fuel input start).result ≠ .error .outOfFuel) :
    ((m.parse fuel input start).journal.filterMap Event.entry?).Nodup ∧
      (∃ fuel', (m'.parse fuel' input start).result ≠ .error .outOfFuel) ∧
        ∀ fuel', (m'.parse fuel' input start).result ≠ .error .outOfFuel →
          ((m.parse fuel input start).journal.filterMap Event.call?).Sublist
            ((m'.parse fuel' input start).journal.filterMap Event.call?) := by
  have hindex : m.startIndex start = m'.startIndex start := by
    unfold startIndex
    rw [hprogram]
  cases hstart : m.startIndex start with
  | error e =>
    have hstart' := hindex ▸ hstart
    simp [parse, hstart, hstart']
  | ok rule =>
    have hstart' := hindex ▸ hstart
    obtain ⟨s, hs, hjournal⟩ := exists_endsIn_of_parse hstart h
    obtain ⟨hnodup, t, ht, hcalls⟩ :=
      frugal_of_runRule hprogram hbindings htracked hcache hforget hs
    rw [hjournal, List.filterMap_reverse, List.filterMap_reverse, List.nodup_reverse]
    refine ⟨hnodup, ht.exists.imp fun n hn => hn.result_parse hstart', ?_⟩
    intro fuel' h'
    obtain ⟨t', ht', hjournal'⟩ := exists_endsIn_of_parse hstart' h'
    obtain ⟨n, hn, hn'⟩ := (ht.and (endsIn_eventually ht')).exists
    obtain rfl := hn.unique hn'
    rw [hjournal', List.filterMap_reverse]
    exact hcalls.reverse

end

/-- The packrat guarantee. A parse that remembers and ends has entered no body of a rule twice from
one offset with one reporting. The parse without a memory ends as well, and its calls of code blocks
contain those of the parse that remembers, in their order. -/
theorem parse_frugal {grammar : String} {h : Actions} {trackLines : Bool} {m : Matcher}
    (hm : buildMatcher grammar h { cache := true, trackLines } = .ok m) :
    ∃ m', buildMatcher grammar h { cache := false, trackLines } = .ok m' ∧
      ∀ fuel input start, (m.parse fuel input start).result ≠ .error .outOfFuel →
        ((m.parse fuel input start).journal.filterMap Event.entry?).Nodup ∧
          (∃ fuel', (m'.parse fuel' input start).result ≠ .error .outOfFuel) ∧
            ∀ fuel', (m'.parse fuel' input start).result ≠ .error .outOfFuel →
              ((m.parse fuel input start).journal.filterMap Event.call?).Sublist
                ((m'.parse fuel' input start).journal.filterMap Event.call?) := by
  have hm' := buildMatcher_options hm { cache := false, trackLines }
  have hoptions := options_of_buildMatcher hm
  refine ⟨_, hm', fun fuel input start hends => Matcher.frugal_of_forgetful ?_ ?_ ?_ ?_ ?_ hends⟩
  · rfl
  · rfl
  · rw [hoptions]
  · rw [hoptions]
  · rfl

/-- A rule that is tried twice at the same place. -/
def twiceText : String := "s=u'x'/u;u=.\x7ba\x7d"

theorem twice_program : ((checkedGrammar twiceText).toOption.bind fun g =>
    g.removeProxies.1.assignSlots.lower.toOption) = some
      { initializer := none
        rules := #[
          ⟨"s", 4, .choice 0 [.sequence 0 1 [.call 2 1, .literal 3 "x" false "\"x\""], .call 0 1]⟩,
          ⟨"u", 2, .action 0 1 0 [] (.any 0)⟩]
        start := 0
        code := #[⟨.action, "a", []⟩] } := by
  have hparse : Grammar.parse twiceText = .ok ⟨none, [
      ⟨⟨0, 9⟩, "s", .choice ⟨⟨2, 8⟩, none, none⟩ [
        .sequence ⟨⟨2, 6⟩, none, none⟩ [.ruleRef ⟨⟨2, 3⟩, none, none⟩ "u",
          .literal ⟨⟨3, 6⟩, none, none⟩ "x" false],
        .ruleRef ⟨⟨7, 8⟩, none, none⟩ "u"], 0⟩,
      ⟨⟨9, 15⟩, "u", .action ⟨⟨11, 15⟩, none, none⟩ "a" [] (.any ⟨⟨11, 12⟩, none, none⟩), 0⟩],
      "s"⟩ := by
    decide +kernel
  rw [checkedGrammar, hparse]
  cbv

/-- The second time its result is remembered, so its code block is called once and not twice. -/
theorem twice_calls (cache : Bool) :
    ∃ m, buildMatcher twiceText .passthrough { cache, trackLines := false } = .ok m ∧
      (m.parse 2 "c" none).result ≠ .error .outOfFuel ∧
        ((m.parse 2 "c" none).journal.filterMap Event.call?).length = bif cache then 1 else 2 := by
  obtain ⟨source, hm⟩ := buildMatcher_of_program (h := .passthrough) twice_program rfl
    { cache, trackLines := false }
  refine ⟨_, hm, ?_⟩
  cases cache with
  | true => exact ⟨by cbv; rintro ⟨⟩, by cbv⟩
  | false => exact ⟨by cbv; rintro ⟨⟩, by cbv⟩

theorem parse_frugal_twice :
    ∃ m, buildMatcher twiceText .passthrough { cache := true, trackLines := false } = .ok m ∧
      ∃ m', buildMatcher twiceText .passthrough { cache := false, trackLines := false } = .ok m' ∧
        ((m.parse 2 "c" none).journal.filterMap Event.entry?).Nodup ∧
          ((m.parse 2 "c" none).journal.filterMap Event.call?).Sublist
            ((m'.parse 2 "c" none).journal.filterMap Event.call?) ∧
              ((m.parse 2 "c" none).journal.filterMap Event.call?).length = 1 ∧
                ((m'.parse 2 "c" none).journal.filterMap Event.call?).length = 2 := by
  obtain ⟨m, hm, hends, hlength⟩ := twice_calls true
  obtain ⟨m', hm', hends', hlength'⟩ := twice_calls false
  obtain ⟨m'', hm'', hfrugal⟩ := parse_frugal hm
  obtain rfl := Except.ok.inj (hm'.symm.trans hm'')
  obtain ⟨hnodup, -, hcalls⟩ := hfrugal 2 "c" none hends
  exact ⟨m, hm, m', hm', hnodup, hcalls 2 hends', hlength, hlength'⟩

end Packrat
