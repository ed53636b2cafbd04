import Mathlib.Order.Filter.AtTopBot.Basic
import Packrat.Proofs.Run

/-!
# Runs that follow one another

Several facts about a run have one shape: whatever it does, another run does too, if only it gets
enough fuel. The other run may have more fuel (an ending does not depend on the fuel that was left
over), start in another state (an outcome depends on the cursor alone), remember results, or run the
program of another grammar. What differs is the relation between the states of the two.

This module proves the shape once. `Leads R E x y` says that from frames with the same registers and
states related by `R`, whenever `x` ends, the family `y` ends in the same way from some amount of
fuel on, and in frames related by `R` again, or by `E` where a halt cut the run off. `Steady R` says
that the primitive steps of a parse keep `R`. Then `eval_leads` goes through the operations: two
renumberings of an operation follow one another as soon as the outcomes of their rules do. Running
out of fuel is followed by anything, and a broken rule of use is followed like any other ending. For
most purposes `E` is `R`; it is weaker where `R` speaks of calls that have returned.

## Main results

* `Leads.bind`: sequential composition
* `eval_leads`: an operation follows whatever its rules follow
-/

namespace Packrat

/-- Gives every call the number that `f` has for its rule. -/
def Op.renumber (f : Nat → Nat) : Op → Op
  | .named r d body => .named r d (body.renumber f)
  | .choice r items => .choice r (items.map (renumber f))
  | .action r place site slots body => .action r place site slots (body.renumber f)
  | .sequence r place items => .sequence r place (items.map (renumber f))
  | .lookahead r place negated body => .lookahead r place negated (body.renumber f)
  | .predicate r negated site slots => .predicate r negated site slots
  | .optional r body => .optional r (body.renumber f)
  | .repeated r nonempty body => .repeated r nonempty (body.renumber f)
  | .call r rule => .call r (f rule)
  | .literal r value ignoreCase d => .literal r value ignoreCase d
  | .charClass r members d => .charClass r members d
  | .any r => .any r

theorem Op.renumber_id (o : Op) : o.renumber id = o := by
  induction o using Op.inductionOn with
  | choice r items ih | sequence r _ items ih =>
    rw [renumber, List.map_congr_left ih, List.map_id']
  | named _ _ _ ih | action _ _ _ _ _ ih | lookahead _ _ _ _ ih | optional _ _ ih
  | repeated _ _ _ ih => rw [renumber, ih]
  | _ => simp [renumber]

@[simp] theorem Op.result_renumber (f : Nat → Nat) (o : Op) : (o.renumber f).result = o.result := by
  cases o <;> simp [renumber, result]

open Filter Run

variable {α β : Type} {R E : State → State → Prop}

/-! ### Relations of states -/

/-- A cursor that some related state has had. -/
def Met (R : State → State → Prop) (c : Cursor) : Prop := ∃ s t, R s t ∧ s.cursor = c

/-- The primitive steps of a parse keep the relation. -/
structure Steady (R : State → State → Prop) : Prop where
  cursor {s t : State} : R s t → s.cursor = t.cursor
  moveTo {s t : State} {c : Cursor} : R s t → Met R c → R (s.moveTo c) (t.moveTo c)
  skip {s t : State} (n : Nat) : R s t →
    R (s.moveTo (s.cursor.skip n)) (t.moveTo (s.cursor.skip n))
  failAt {s t : State} (n : Nat) (d : String) : R s t →
    R (s.failAt (s.cursor.skip n) d) (t.failAt (s.cursor.skip n) d)
  suspend {s t : State} : R s t → R s.suspend t.suspend
  /-- What holds under a suspension holds behind it, where the suspension is as before it. -/
  resume {s₀ t₀ s t : State} : R s₀ t₀ → R s t → s.suspended = s₀.suspended + 1 →
    t.suspended = t₀.suspended + 1 → R s.resume t.resume
  called {s t : State} (site : Nat) (cx : Context) : R s t →
    R (s.note (.called site cx)) (t.note (.called site cx))

theorem Steady.fail (hS : Steady R) {s t : State} (d : String) (h : R s t) :
    R (s.fail d) (t.fail d) := by
  rw [State.fail, State.fail, ← hS.cursor h]
  exact hS.failAt 0 d h

theorem Steady.flip (hS : Steady R) : Steady (flip R) where
  cursor h := (hS.cursor h).symm
  moveTo h hc := by
    obtain ⟨s, t, hst, rfl⟩ := hc
    exact hS.moveTo h ⟨t, s, hst, hS.cursor hst⟩
  skip n h := by
    have hskip := hS.skip n h
    rwa [hS.cursor h] at hskip
  failAt n d h := by
    have hfail := hS.failAt n d h
    rwa [hS.cursor h] at hfail
  suspend h := hS.suspend h
  resume h₀ h hs ht := hS.resume h₀ h ht hs
  called site cx h := hS.called site cx h

/-- Frames in related states and with the same registers, whose places are cursors of the parse. -/
structure Related (R : State → State → Prop) (fr fr' : Frame) : Prop where
  state : R fr.state fr'.state
  registers : fr.registers = fr'.registers
  places : ∀ slot c, fr.registers.get? slot = .ok (.place c) → Met R c

theorem Related.withState {fr fr' : Frame} (h : Related R fr fr') {s t : State} (hst : R s t) :
    Related R { fr with state := s } { fr' with state := t } :=
  ⟨hst, h.registers, h.places⟩

/-- The family ends as the first ending does, in a related frame, once its index is large. A regular
ending leaves the suspension of reporting as it was in the frames `fr₀` and `fr₀'`. Behind a halt,
registers are of no more use, and only the states are related, by `E`: calls that the halt cut off
were not finished there, so less may be known than by `R`. -/
inductive Follows (R E : State → State → Prop) (fr₀ fr₀' : Frame) :
    Ending α → (Nat → Ending α) → Prop
  | ok {a : α} {fr fr' : Frame} {f : Nat → Ending α} :
      Related R fr fr' → fr.state.suspended = fr₀.state.suspended →
        fr'.state.suspended = fr₀'.state.suspended → (∀ᶠ n in atTop, f n = .ok a fr') →
          Follows R E fr₀ fr₀' (.ok a fr) f
  | error {e : Halt} {fr : Frame} {t : State} {f : Nat → Ending α} :
      e ≠ .outOfFuel → E fr.state t →
        (∀ᶠ n in atTop, ∃ registers, f n = .error e ⟨t, registers⟩) →
          Follows R E fr₀ fr₀' (.error e fr) f
  | outOfFuel {fr : Frame} {f : Nat → Ending α} : Follows R E fr₀ fr₀' (.error .outOfFuel fr) f

/-- From related frames, the family does what the run does. -/
def Leads (R E : State → State → Prop) (x : Run α) (y : Nat → Run α) : Prop :=
  ∀ ⦃fr fr'⦄, Related R fr fr' → Follows R E fr fr' (x fr) (fun n => y n fr')

/-! ### Composition -/

theorem Follows.congr {fr₀ fr₀' : Frame} {r : Ending α} {f f' : Nat → Ending α}
    (h : Follows R E fr₀ fr₀' r f) (he : ∀ᶠ n in atTop, f n = f' n) :
    Follows R E fr₀ fr₀' r f' := by
  cases h with
  | ok hR hs ht hf =>
    exact .ok hR hs ht (by filter_upwards [hf, he] with n hn hn' using hn' ▸ hn)
  | error hne hR hf =>
    exact .error hne hR (by filter_upwards [hf, he] with n hn hn' using hn' ▸ hn)
  | outOfFuel => exact .outOfFuel

/-- Changes behind two endings that follow one another, if they lead to related frames. -/
theorem Follows.after {R' E' : State → State → Prop} {fr₀ fr₀' fr₁ fr₁' : Frame} {r : Ending α}
    {f : Nat → Ending α} (h : Follows R E fr₁ fr₁' r f) (u v : α → Frame → Frame)
    (hok : ∀ a fr fr', Related R fr fr' → fr.state.suspended = fr₁.state.suspended →
      fr'.state.suspended = fr₁'.state.suspended → r = .ok a fr →
        (∀ᶠ n in atTop, f n = .ok a fr') →
          Related R' (u a fr) (v a fr') ∧ (u a fr).state.suspended = fr₀.state.suspended ∧
            (v a fr').state.suspended = fr₀'.state.suspended)
    (herror : ∀ s t, E s t → EndsIn r s → (∀ᶠ n in atTop, EndsIn (f n) t) → E' s t) :
    Follows R' E' fr₀ fr₀' (r.after u) (fun n => (f n).after v) := by
  cases h with
  | ok hR hs ht hf =>
    obtain ⟨hR', hs', ht'⟩ := hok _ _ _ hR hs ht rfl hf
    exact .ok hR' hs' ht' (by filter_upwards [hf] with n hn using by rw [hn]; rfl)
  | error hne hR hf =>
    refine .error hne (herror _ _ hR (.error hne) ?_) ?_
    all_goals
      filter_upwards [hf] with n hn
      obtain ⟨registers, hn⟩ := hn
      rw [hn]
    · exact .error hne
    · exact ⟨registers, rfl⟩
  | outOfFuel => exact .outOfFuel

/-- What follows from frames with the suspension of others follows from those. -/
theorem Follows.of_suspended {fr₀ fr₀' fr₁ fr₁' : Frame} {r : Ending α} {f : Nat → Ending α}
    (h : Follows R E fr₁ fr₁' r f) (hs : fr₁.state.suspended = fr₀.state.suspended)
    (ht : fr₁'.state.suspended = fr₀'.state.suspended) : Follows R E fr₀ fr₀' r f := by
  simpa using h.after (fun _ fr => fr) (fun _ fr => fr)
    (fun _ _ _ hR hs' ht' _ _ => ⟨hR, hs'.trans hs, ht'.trans ht⟩) (fun _ _ hR _ _ => hR)

/-- Where a run ends, the family ends. -/
theorem Follows.endsIn {fr₀ fr₀' : Frame} {r : Ending α} {f : Nat → Ending α}
    (h : Follows R E fr₀ fr₀' r f) (hE : R ≤ E) {s : State} (hs : EndsIn r s) :
    ∃ t, E s t ∧ ∀ᶠ n in atTop, EndsIn (f n) t := by
  cases h with
  | @ok a fr fr' _ hR _ _ hf =>
    cases hs
    exact ⟨fr'.state, hE _ _ hR.state, hf.mono fun _ => .of_ok⟩
  | @error _ _ t _ hne hR hf =>
    cases hs
    refine ⟨t, hR, ?_⟩
    filter_upwards [hf] with n hn
    obtain ⟨registers, hn⟩ := hn
    exact hn ▸ .error hne
  | outOfFuel => cases hs; contradiction

/-- Behind a halt nothing is run any more, on either side. -/
theorem Follows.bind_of_error {fr₀ fr₀' fr₁ fr₁' fr fr' : Frame} {e : Halt} {y : Nat → Run α}
    (h : Follows R E fr₀ fr₀' (.error e fr) fun n => y n fr') (g : Nat → α → Run β) :
    Follows R E fr₁ fr₁' (.error e fr) fun n => (y n >>= g n) fr' := by
  cases h with
  | error hne hR hy =>
    refine .error hne hR ?_
    filter_upwards [hy] with n hn
    obtain ⟨registers, hn⟩ := hn
    exact ⟨registers, Run.bind_of_error hn _⟩
  | outOfFuel => exact .outOfFuel

/-- The family may lag behind. -/
theorem Follows.lag {fr₀ fr₀' : Frame} {r : Ending α} {f : Nat → Ending α}
    (h : Follows R E fr₀ fr₀' r f) (d : Nat) : Follows R E fr₀ fr₀' r (fun n => f (n - d)) := by
  have hlag : Tendsto (fun n => n - d) atTop atTop :=
    tendsto_atTop_atTop.mpr fun b => ⟨b + d, fun n hn => by omega⟩
  cases h with
  | ok hR hs ht hf => exact .ok hR hs ht (hlag.eventually hf)
  | error hne hR hf => exact .error hne hR (hlag.eventually hf)
  | outOfFuel => exact .outOfFuel

theorem Leads.congr {x : Run α} {y y' : Nat → Run α} (h : Leads R E x y)
    (he : ∀ᶠ n in atTop, y n = y' n) : Leads R E x y' := by
  intro fr fr' hR
  exact (h hR).congr (by filter_upwards [he] with n hn using by rw [hn])

theorem Leads.pure (a : α) : Leads R E (pure a : Run α) (fun _ => pure a) :=
  fun _ _ hR => .ok hR rfl rfl (.of_forall fun _ => rfl)

theorem Leads.outOfFuel (y : Nat → Run α) : Leads R E (throw .outOfFuel) y :=
  fun _ _ _ => .outOfFuel

theorem Leads.throw (hE : R ≤ E) {e : Halt} (he : e ≠ .outOfFuel) :
    Leads R E (throw e : Run α) (fun _ => throw e) :=
  fun _ _ hR => .error he (hE _ _ hR.state) (.of_forall fun _ => ⟨_, rfl⟩)

theorem Leads.bind {x : Run α} {y : Nat → Run α} {f : α → Run β} {g : Nat → α → Run β}
    (hx : Leads R E x y) (hf : ∀ a, Leads R E (f a) (fun n => g n a)) :
    Leads R E (x >>= f) (fun n => y n >>= g n) := by
  intro fr fr' hR
  have hxfr := hx hR
  cases hfr : x fr with
  | ok a fr₁ =>
    obtain ⟨hR', hs, ht, hy⟩ | _ | _ := hfr ▸ hxfr
    rw [bind_of_ok hfr]
    refine ((hf a hR').of_suspended hs ht).congr ?_
    filter_upwards [hy] with n hn
    rw [bind_of_ok hn]
  | error e fr₁ =>
    rw [bind_of_error hfr]
    exact (hfr ▸ hxfr).bind_of_error _

theorem Leads.ite {x x' : Run α} {y y' : Nat → Run α} (c : Prop) [Decidable c]
    (h : Leads R E x y) (h' : Leads R E x' y') :
    Leads R E (if c then x else x') (fun n => if c then y n else y' n) := by
  split
  · exact h
  · exact h'

/-! ### Primitive steps -/

/-- Reading the cursor gives one that was met. -/
theorem Leads.cursor_bind (hS : Steady R) {f : Cursor → Run β} {g : Nat → Cursor → Run β}
    (hf : ∀ c, Met R c → Leads R E (f c) (fun n => g n c)) :
    Leads R E (Run.cursor >>= f) (fun n => Run.cursor >>= g n) := by
  intro fr fr' hR
  have hc := hf fr.state.cursor ⟨_, _, hR.state, rfl⟩ hR
  have hg : ∀ n, (Run.cursor >>= g n) fr' = g n fr.state.cursor fr' := by
    intro n
    rw [bind_of_ok (cursor_apply fr'), hS.cursor hR.state]
  simp only [hg]
  exact hc

theorem Leads.change {f : State → State} (hf : ∀ ⦃s t⦄, R s t → R (f s) (f t))
    (hs : ∀ s, (f s).suspended = s.suspended) : Leads R E (Run.change f) (fun _ => Run.change f) :=
  fun _ _ hR => .ok (hR.withState (hf hR.state)) (hs _) (hs _) (.of_forall fun _ => rfl)

theorem Leads.moveTo (hS : Steady R) {c : Cursor} (hc : Met R c) :
    Leads R E (Run.moveTo c) (fun _ => Run.moveTo c) :=
  .change (fun _ _ h => hS.moveTo h hc) fun _ => rfl

theorem Leads.fail (hS : Steady R) (d : String) :
    Leads R E (Run.change (·.fail d)) (fun _ => Run.change (·.fail d)) :=
  .change (fun _ _ h => hS.fail d h) fun _ => State.suspended_failAt ..

/-- What a step does is settled by the cursor: it moves on, or it reports a failure further on. -/
def Terminal {α : Type} (f : State → α × State) : Prop :=
  ∀ c : Cursor,
    (∃ a n, ∀ s : State, s.cursor = c → f s = (a, s.moveTo (c.skip n))) ∨
    (∃ a n d, ∀ s : State, s.cursor = c → f s = (a, s.failAt (c.skip n) d))

/-- What a step does is settled by the text ahead. -/
def Foreseen {α : Type} (f : State → α × State) : Prop :=
  ∀ ahead : List Char,
    (∃ a n, ∀ s : State, s.cursor.ahead = ahead → f s = (a, s.moveTo (s.cursor.skip n))) ∨
    (∃ a n d, ∀ s : State, s.cursor.ahead = ahead → f s = (a, s.failAt (s.cursor.skip n) d))

theorem foreseen_literal (value : String) (ignoreCase : Bool) (d : String) :
    Foreseen (State.literal · value ignoreCase d) := by
  intro ahead
  let n := State.agreement (State.agree ignoreCase) ahead value.toList
  by_cases hn : n = value.toList.length
  · refine .inl ⟨some (.str (String.ofList (ahead.take n))), n, ?_⟩
    rintro s rfl
    exact if_pos hn
  · refine .inr ⟨none, n, d, ?_⟩
    rintro s rfl
    exact if_neg hn

theorem foreseen_charValue (p : Char → Bool) (d : String) :
    Foreseen (State.charValue · p d) := by
  rintro (_ | ⟨ch, rest⟩)
  · refine .inr ⟨none, 0, d, ?_⟩
    intro s hs
    simp [State.charValue, State.charWhere, hs, State.fail]
  · by_cases hp : p ch
    · refine .inl ⟨some (.str (String.singleton ch)), 1, ?_⟩
      intro s hs
      simp [State.charValue, State.charWhere, hs, hp, Cursor.step, Cursor.skip]
    · refine .inr ⟨none, 0, d, ?_⟩
      intro s hs
      simp [State.charValue, State.charWhere, hs, hp, State.fail]

theorem Foreseen.terminal {f : State → α × State} (hf : Foreseen f) : Terminal f := by
  intro c
  rcases hf c.ahead with ⟨a, n, hs⟩ | ⟨a, n, d, hs⟩
  · refine .inl ⟨a, n, ?_⟩
    rintro s rfl
    exact hs s rfl
  · refine .inr ⟨a, n, d, ?_⟩
    rintro s rfl
    exact hs s rfl

theorem terminal_literal (value : String) (ignoreCase : Bool) (d : String) :
    Terminal (State.literal · value ignoreCase d) :=
  (foreseen_literal value ignoreCase d).terminal

theorem terminal_charValue (p : Char → Bool) (d : String) : Terminal (State.charValue · p d) :=
  (foreseen_charValue p d).terminal

theorem Leads.step (hS : Steady R) {f : State → α × State} (hf : Terminal f) :
    Leads R E (Run.step f) (fun _ => Run.step f) := by
  intro fr fr' hR
  have hcursor := hS.cursor hR.state
  rcases hf fr.state.cursor with ⟨a, n, hs⟩ | ⟨a, n, d, hs⟩
  · simp only [step_apply, hs fr.state rfl, hs fr'.state hcursor.symm]
    exact .ok (hR.withState (hS.skip n hR.state)) rfl rfl (.of_forall fun _ => rfl)
  · simp only [step_apply, hs fr.state rfl, hs fr'.state hcursor.symm]
    exact .ok (hR.withState (hS.failAt n d hR.state)) (State.suspended_failAt ..)
      (State.suspended_failAt ..) (.of_forall fun _ => rfl)

/-! ### Registers -/

/-- A step that only reads registers. -/
theorem Leads.of_reading (hE : R ≤ E) {x : Run α} (f : Registers Cursor → Except Fault α)
    (hx : ∀ fr, x fr = Run.ofStep fr ((f fr.registers).map fun a => (a, fr))) :
    Leads R E x (fun _ => x) := by
  intro fr fr' hR
  simp only [hx, ← hR.registers]
  cases f fr.registers with
  | error e => exact .error nofun (hE _ _ hR.state) (.of_forall fun _ => ⟨_, rfl⟩)
  | ok a => exact .ok hR rfl rfl (.of_forall fun _ => rfl)

theorem Leads.isMatch (hE : R ≤ E) (slot : Nat) :
    Leads R E (Run.isMatch slot) (fun _ => Run.isMatch slot) :=
  .of_reading hE (·.isMatch? slot) (isMatch_apply slot)

theorem Leads.value (hE : R ≤ E) (slot : Nat) :
    Leads R E (Run.value slot) (fun _ => Run.value slot) :=
  .of_reading hE (·.value? slot) (value_apply slot)

theorem Leads.values (hE : R ≤ E) (slots : List Nat) :
    Leads R E (Run.values slots) (fun _ => Run.values slots) := by
  induction slots with
  | nil => exact .pure _
  | cons slot slots ih => exact (Leads.value hE slot).bind fun _ => ih.bind fun _ => .pure _

/-- A place in a slot is a cursor that was met. -/
theorem Leads.place_bind (hE : R ≤ E) {slot : Nat} {f : Cursor → Run β} {g : Nat → Cursor → Run β}
    (hf : ∀ c, Met R c → Leads R E (f c) (fun n => g n c)) :
    Leads R E (Run.place slot >>= f) (fun n => Run.place slot >>= g n) := by
  intro fr fr' hR
  simp only [bind_apply, place_apply, ← hR.registers]
  cases hp : fr.registers.place? slot with
  | error e => exact .error nofun (hE _ _ hR.state) (.of_forall fun _ => ⟨_, rfl⟩)
  | ok c => exact hf c (hR.places slot c (Registers.place?_eq_ok_iff.mp hp)) hR

/-- Only places that were met may be stored. -/
theorem Related.put {fr fr' : Frame} (hR : Related R fr fr') {slot : Nat} {c : Register Cursor}
    {r : Registers Cursor} (hput : fr.registers.put? slot c = .ok r)
    (hc : ∀ p, c = .place p → Met R p) :
    Related R { fr with registers := r } { fr' with registers := r } := by
  refine ⟨hR.state, rfl, ?_⟩
  intro i p hp
  rcases Registers.place_of_put? hput hp with h | h
  · exact hc p h
  · exact hR.places i p h

theorem Leads.savePlace (hE : R ≤ E) (hS : Steady R) (slot : Nat) :
    Leads R E (Run.savePlace slot) (fun _ => Run.savePlace slot) := by
  intro fr fr' hR
  simp only [savePlace_apply, ← hR.registers, ← hS.cursor hR.state, Registers.setPlace?]
  cases hput : fr.registers.put? slot (.place fr.state.cursor) with
  | error e => exact .error nofun (hE _ _ hR.state) (.of_forall fun _ => ⟨_, rfl⟩)
  | ok r =>
    refine .ok (hR.put hput ?_) rfl rfl (.of_forall fun _ => rfl)
    rintro p hp
    exact ⟨_, _, hR.state, Register.place.inj hp⟩

theorem Leads.setOutcome (hE : R ≤ E) (slot : Nat) (result : Option Value) :
    Leads R E (Run.setOutcome slot result) (fun _ => Run.setOutcome slot result) := by
  intro fr fr' hR
  simp only [setOutcome_apply, ← hR.registers, Registers.set?]
  cases hput : fr.registers.put? slot (.outcome result) with
  | error e => exact .error nofun (hE _ _ hR.state) (.of_forall fun _ => ⟨_, rfl⟩)
  | ok r => exact .ok (hR.put hput nofun) rfl rfl (.of_forall fun _ => rfl)

theorem Leads.take (hE : R ≤ E) (slot : Nat) :
    Leads R E (Run.take slot) (fun _ => Run.take slot) := by
  intro fr fr' hR
  simp only [take_apply, ← hR.registers]
  cases htake : fr.registers.take? slot with
  | error e => exact .error nofun (hE _ _ hR.state) (.of_forall fun _ => ⟨_, rfl⟩)
  | ok p =>
    obtain ⟨result, r⟩ := p
    obtain ⟨_, _, _, hput⟩ := Registers.take?_eq_ok_iff.mp htake
    exact .ok (hR.put hput nofun) rfl rfl (.of_forall fun _ => rfl)

/-- Behind a silent run, reporting is suspended as often as before. -/
theorem Leads.silently (hS : Steady R) {x : Run Unit} {y : Nat → Run Unit} (h : Leads R E x y) :
    Leads R E (Run.silently x) (fun n => Run.silently (y n)) := by
  intro fr fr' hR
  have hx := h (hR.withState (hS.suspend hR.state))
  have happly : ∀ (z : Run Unit) (fr : Frame), Run.silently z fr =
      (z >>= fun _ => Run.resume) { fr with state := fr.state.suspend } := fun _ _ => rfl
  simp only [happly]
  cases hz : x { fr with state := fr.state.suspend } with
  | ok u fr₁ =>
    obtain ⟨hR', hs, ht, hy⟩ | _ | _ := hz ▸ hx
    rw [bind_of_ok hz]
    rw [resume_of_suspended (hs ▸ Nat.succ_ne_zero _)]
    refine .ok (hR'.withState (hS.resume hR.state hR'.state hs ht)) ?_ ?_ ?_
    · exact Nat.sub_eq_of_eq_add hs
    · exact Nat.sub_eq_of_eq_add ht
    · filter_upwards [hy] with n hn
      rw [bind_of_ok hn, resume_of_suspended (ht ▸ Nat.succ_ne_zero _)]
  | error e fr₁ =>
    rw [bind_of_error hz]
    exact (hz ▸ hx).bind_of_error _

/-! ### Code blocks -/

section

variable {m m' : Matcher}

theorem Leads.callCode (hE : R ≤ E) (hS : Steady R) (site : Nat) (cx : Context) (h : Handler α) :
    Leads R E (Matcher.callCode site cx h) (fun _ => Matcher.callCode site cx h) := by
  refine (Leads.change (fun _ _ hst => hS.called site cx hst) fun _ => rfl).bind fun _ => ?_
  split
  · exact .pure _
  · exact .throw hE nofun

theorem Leads.context (hE : R ≤ E) (hcode : m.program.code = m'.program.code) (hS : Steady R)
    (site : Nat) (slots : List Nat) (begun : Cursor) (v : Value) :
    Leads R E (m.context site slots begun v) (fun _ => m'.context site slots begun v) := by
  unfold Matcher.context
  rw [← hcode]
  split
  · exact .throw hE nofun
  · exact .cursor_bind hS fun _ _ => (Leads.values hE slots).bind fun _ => .pure _

theorem Leads.runAction (hE : R ≤ E) (hbindings : m.bindings = m'.bindings) (hS : Steady R)
    (site : Nat) (cx : Context) :
    Leads R E (m.runAction site cx) (fun _ => m'.runAction site cx) := by
  unfold Matcher.runAction
  rw [← hbindings]
  split
  · exact .callCode hE hS site cx _
  · exact .throw hE nofun

theorem Leads.runPredicate (hE : R ≤ E) (hcode : m.program.code = m'.program.code)
    (hbindings : m.bindings = m'.bindings) (hS : Steady R) (site : Nat) (slots : List Nat) :
    Leads R E (m.runPredicate site slots) (fun _ => m'.runPredicate site slots) := by
  unfold Matcher.runPredicate
  rw [← hbindings]
  refine .cursor_bind hS fun here _ => ?_
  refine (Leads.context hE hcode hS site slots here .null).bind fun cx => ?_
  split
  · exact .callCode hE hS site cx _
  · exact .throw hE nofun

end

/-! ### Repetitions -/

/-- The family may lag behind here, because each pass of a repetition uses up fuel. -/
theorem Leads.collect_lag (hE : R ≤ E) (hS : Steady R) {x : Run Unit} {y : Nat → Run Unit}
    (h : Leads R E x y) (slot fuel d : Nat) : Leads R E (Matcher.collect x slot fuel)
      (fun n => Matcher.collect (y n) slot (n - d)) := by
  induction fuel generalizing d with
  | zero => exact .outOfFuel _
  | succ fuel ih =>
    have pass : Leads R E (Matcher.collect x slot (fuel + 1))
        (fun n => Matcher.collect (y n) slot (n - (d + 1) + 1)) := by
      refine .cursor_bind hS fun begun _ => .bind h fun _ => .bind (.take hE slot) fun item => ?_
      cases item with
      | none => exact .pure _
      | some v => exact .cursor_bind hS fun _ _ => .ite _ (.pure _) ((ih _).bind fun _ => .pure _)
    refine pass.congr ?_
    filter_upwards [eventually_gt_atTop d] with n hn
    rw [show n - (d + 1) + 1 = n - d by omega]

theorem Leads.collect (hE : R ≤ E) (hS : Steady R) {x : Run Unit} {y : Nat → Run Unit}
    (h : Leads R E x y) (slot fuel : Nat) : Leads R E (Matcher.collect x slot fuel)
      (fun n => Matcher.collect (y n) slot n) :=
  h.collect_lag hE hS slot fuel 0

/-! ### Operations -/

section

variable {m m' : Matcher} {call : Nat → Run (Option Value)}
  {follow : Nat → Nat → Run (Option Value)} (σ ρ : Nat → Nat)

/-- Alternatives follow one another when their operations do. -/
theorem firstMatch_leads (hE : R ≤ E) {fuel slot : Nat} {items : List Op}
    (ih : ∀ o ∈ items, Leads R E (m.eval call fuel (o.renumber σ))
      (fun n => m'.eval (follow n) n (o.renumber ρ))) :
    Leads R E (m.firstMatch call fuel slot (items.map (Op.renumber σ)))
      (fun n => m'.firstMatch (follow n) n slot (items.map (Op.renumber ρ))) := by
  induction items with
  | nil =>
    simp only [List.map_nil, Matcher.firstMatch]
    exact .pure _
  | cons o os ihos =>
    simp only [List.map_cons, Matcher.firstMatch]
    refine (ih o List.mem_cons_self).bind fun _ => (Leads.isMatch hE slot).bind fun b => ?_
    exact .ite _ (.pure _) (ihos fun o ho => ih o (List.mem_cons_of_mem _ ho))

/-- The elements of a sequence follow one another when their operations do. -/
theorem allMatch_leads (hE : R ≤ E) {fuel : Nat} {items : List Op}
    (ih : ∀ o ∈ items, Leads R E (m.eval call fuel (o.renumber σ))
      (fun n => m'.eval (follow n) n (o.renumber ρ))) :
    Leads R E (m.allMatch call fuel (items.map (Op.renumber σ)))
      (fun n => m'.allMatch (follow n) n (items.map (Op.renumber ρ))) := by
  induction items with
  | nil =>
    simp only [List.map_nil, Matcher.allMatch]
    exact .pure _
  | cons o os ihos =>
    simp only [List.map_cons, Matcher.allMatch, Op.result_renumber]
    refine (ih o List.mem_cons_self).bind fun _ => (Leads.isMatch hE _).bind fun b => ?_
    exact .ite _ (ihos fun o ho => ih o (List.mem_cons_of_mem _ ho)) (.pure _)

theorem map_result_renumber (f : Nat → Nat) (items : List Op) :
    (items.map (Op.renumber f)).map Op.result = items.map Op.result := by
  simp

/-- Two renumberings of an operation follow one another when the outcomes of their rules do. -/
theorem eval_leads (hE : R ≤ E) (hcode : m.program.code = m'.program.code)
    (hbindings : m.bindings = m'.bindings) (hS : Steady R)
    (hcall : ∀ rule, Leads R E (call (σ rule)) (fun n => follow n (ρ rule))) (fuel : Nat) (o : Op) :
    Leads R E (m.eval call fuel (o.renumber σ)) (fun n => m'.eval (follow n) n (o.renumber ρ)) := by
  induction o using Op.inductionOn with
  | named r d body ih =>
    simp only [Op.renumber, Matcher.eval]
    refine (Leads.silently hS ih).bind fun _ => (Leads.isMatch hE r).bind fun b => ?_
    exact .ite _ (.fail hS d) (.pure _)
  | choice r items ih =>
    simp only [Op.renumber, Matcher.eval]
    exact firstMatch_leads σ ρ hE ih
  | action r place site slots body ih =>
    simp only [Op.renumber, Matcher.eval]
    refine (Leads.savePlace hE hS place).bind fun _ => ih.bind fun _ => ?_
    refine (Leads.isMatch hE r).bind fun b => ?_
    refine .ite _ (.place_bind hE fun begun hbegun => (Leads.value hE r).bind fun v => ?_) (.pure _)
    refine (Leads.context hE hcode hS site slots begun v).bind fun cx => ?_
    refine (Leads.runAction hE hbindings hS site cx).bind fun answer => ?_
    exact .ite _ ((Leads.setOutcome hE r none).bind fun _ => .moveTo hS hbegun) (.setOutcome hE r _)
  | sequence r place items ih =>
    simp only [Op.renumber, Matcher.eval, map_result_renumber]
    refine (Leads.savePlace hE hS place).bind fun _ => (allMatch_leads σ ρ hE ih).bind fun b => ?_
    refine .ite _ ((Leads.values hE _).bind fun vs => .setOutcome hE r _) ?_
    exact (Leads.setOutcome hE r none).bind fun _ => .place_bind hE fun c hc => .moveTo hS hc
  | lookahead r place negated body ih =>
    simp only [Op.renumber, Matcher.eval]
    refine (Leads.savePlace hE hS place).bind fun _ => (Leads.silently hS ih).bind fun _ => ?_
    refine (Leads.isMatch hE r).bind fun b => .ite _ ?_ (.setOutcome hE r _)
    exact (Leads.setOutcome hE r _).bind fun _ => .place_bind hE fun c hc => .moveTo hS hc
  | predicate r negated site slots =>
    simp only [Op.renumber, Matcher.eval]
    exact (Leads.runPredicate hE hcode hbindings hS site slots).bind fun _ => .setOutcome hE r _
  | optional r body ih =>
    simp only [Op.renumber, Matcher.eval]
    exact ih.bind fun _ => (Leads.isMatch hE r).bind fun b => .ite _ (.setOutcome hE r _) (.pure _)
  | repeated r nonempty body ih =>
    simp only [Op.renumber, Matcher.eval, Op.result_renumber]
    exact (Leads.collect hE hS ih _ fuel).bind fun _ => .setOutcome hE r _
  | call r rule =>
    simp only [Op.renumber, Matcher.eval]
    exact (hcall rule).bind fun _ => .setOutcome hE r _
  | literal r value ignoreCase d =>
    simp only [Op.renumber, Matcher.eval]
    exact (Leads.step hS (terminal_literal value ignoreCase d)).bind fun _ => .setOutcome hE r _
  | charClass r members d =>
    simp only [Op.renumber, Matcher.eval]
    exact (Leads.step hS (terminal_charValue _ d)).bind fun _ => .setOutcome hE r _
  | any r =>
    simp only [Op.renumber, Matcher.eval]
    exact (Leads.step hS (terminal_charValue _ _)).bind fun _ => .setOutcome hE r _

end

end Packrat
