import Packrat.Proofs.Meaning
import Packrat.Proofs.Failures
import Packrat.Proofs.Simulation

/-!
# Runs that mirror a parse

The matcher works on registers and numbers its code sites; the meaning of a grammar knows neither.
Apart from that the two take the same steps, at the same fuel. `Matcher.course` forgets what only
the matcher knows of a state, and `Tracks m regs P x y` says that, begun on the registers `regs`,
the run `x` goes the course of the parse `y`: both end regularly, with results and registers as `P`
has them, or both end with the same error of a code block, or both are out of fuel. A run that
tracks a parse breaks no rule of use.

Beside it goes what is needed to know that a label never stands for `null`: no remembered value is
`null`, and no label was when it was handed to a code block (`Course.Clean`).

## Main results

* `Tracks.bind`: sequential composition
* `Tracks.silently`, `Tracks.collect`: suspensions and repetitions
* `Tracks.ask`: a code block sees the same and answers the same
-/

namespace Packrat

/-! ### Courses -/

/-- Whether an event is the call of a code block. -/
def Event.isCall : Event → Bool
  | .called .. => true
  | _ => false

namespace Matcher

variable {m : Matcher} {s : State}

/-- The call that an event records, as the host sees it. A site that is none would go by an empty
text; there are no calls of such sites. -/
def hostCall? (m : Matcher) : Event → Option HostCall
  | .called site cx =>
    let code := m.program.code.getD site ⟨.action, "", []⟩
    some ⟨code.kind, code.code, cx⟩
  | _ => none

/-- What a parse knows of a state: code blocks go by their texts and not by their numbers. -/
def course (m : Matcher) (s : State) : Course where
  state := s.keeping (!·.isCall)
  calls := s.journal.filterMap m.hostCall?

theorem course_called {site : Nat} {code : CodeSite} (h : m.program.code[site]? = some code)
    (s : State) (cx : Context) :
    m.course (s.note (.called site cx)) = (m.course s).asked ⟨code.kind, code.code, cx⟩ := by
  have hcall : m.hostCall? (.called site cx) = some ⟨code.kind, code.code, cx⟩ := by
    simp [hostCall?, h]
  rw [course, State.note, List.filterMap_cons, hcall]
  rfl

theorem course_failAt (m : Matcher) (s : State) (place : Cursor) (d : String) :
    m.course (s.failAt place d) = (m.course s).update (·.failAt place d) := by
  have hcalls : (s.failAt place d).journal.filterMap m.hostCall? =
      s.journal.filterMap m.hostCall? := by
    by_cases hr : s.reporting
    · rw [State.failAt_of_reporting hr]
      rfl
    · rw [State.failAt, if_neg hr]
  rw [course, hcalls, ← State.failAt_keeping (fun _ _ => rfl)]
  rfl

theorem lookUp_course (m : Matcher) (s : State) (rule : Nat) :
    (m.course s).state.lookUp rule =
      (s.lookUp rule).map fun (result, t) => (result, (m.course t).state) :=
  s.lookUp_keeping _ rule

end Matcher

/-- No remembered value is `null`, and no label was when it was handed out. -/
structure Course.Clean (k : Course) : Prop where
  memory (memory : Memory) : k.state.memory = some memory → ∀ (key : MemoKey) (entry : MemoEntry),
    memory[key]? = some entry → entry.result ≠ some .null
  calls (call : HostCall) : call ∈ k.calls → ∀ label ∈ call.context.labels, label.2 ≠ .null

theorem Course.Clean.update {k : Course} (h : k.Clean) {f : State → State}
    (hf : (f k.state).memory = k.state.memory) : (k.update f).Clean :=
  ⟨fun memory hmemory => h.memory memory (hf ▸ hmemory), h.calls⟩

theorem Course.Clean.asked {k : Course} (h : k.Clean) {call : HostCall}
    (hcall : ∀ label ∈ call.context.labels, label.2 ≠ .null) : (k.asked call).Clean := by
  refine ⟨h.memory, ?_⟩
  intro other hother
  rcases List.mem_cons.mp hother with rfl | hother
  · exact hcall
  · exact h.calls other hother

theorem Course.Clean.remember {k : Course} (h : k.Clean) (rule : Nat) (begun : Cursor)
    {result : Option Value} (hresult : result ≠ some .null) :
    (k.update (·.remember rule begun result)).Clean := by
  refine ⟨?_, h.calls⟩
  intro memory hmemory key entry hentry
  obtain ⟨-, rfl⟩ | ⟨old, hold, hentry⟩ := State.entry_of_remember hmemory hentry
  · exact hresult
  · exact h.memory old hold key entry hentry

/-! ### Tracking -/

open Run

variable {α β α' β' : Type}

/-- The two endings are the same but for what only the matcher knows. -/
inductive Mirrors (m : Matcher) (suspended : Nat) (P : α → β → Registers Cursor → Prop) :
    Ending α → EStateM.Result Stop Course β → Prop
  | ok {a : α} {b : β} {s : State} {r : Registers Cursor} : P a b r → s.suspended = suspended →
      (m.course s).Clean → Mirrors m suspended P (.ok a ⟨s, r⟩) (.ok b (m.course s))
  | raised {text : String} {s : State} {r : Registers Cursor} : (m.course s).Clean →
      Mirrors m suspended P (.error (.action text) ⟨s, r⟩) (.error (.raised text) (m.course s))
  | outOfFuel {s : State} {r : Registers Cursor} : (m.course s).Clean →
      Mirrors m suspended P (.error .outOfFuel ⟨s, r⟩) (.error .outOfFuel (m.course s))

/-- Begun on these registers, the run goes the course of the parse. -/
def Tracks (m : Matcher) (regs : Registers Cursor) (P : α → β → Registers Cursor → Prop)
    (x : Run α) (y : Parse β) : Prop :=
  ∀ s, (m.course s).Clean → Mirrors m s.suspended P (x ⟨s, regs⟩) (y (m.course s))

section

variable {m : Matcher} {regs regs' : Registers Cursor} {P : α → β → Registers Cursor → Prop}
  {Q : α' → β' → Registers Cursor → Prop}

theorem Parse.bind_apply (y : Parse β) (g : β → Parse β') (k : Course) :
    (y >>= g) k = match y k with
      | .ok b k' => g b k'
      | .error e k' => .error e k' := by
  change EStateM.bind y g k = _
  unfold EStateM.bind
  cases y k <;> rfl

theorem Parse.get_bind_apply (g : Course → Parse β) (k : Course) : (get >>= g) k = g k k := rfl

theorem Parse.remembered_of_hit {rule : Nat} {body : Parse (Option Value)} {result : Option Value}
    {k : Course} {s : State} (h : k.state.lookUp rule = some (result, s)) :
    remembered rule body k = .ok result { k with state := s } := by
  rw [remembered, get_bind_apply, h]
  rfl

theorem Parse.remembered_of_miss {rule : Nat} {k : Course} (body : Parse (Option Value))
    (h : k.state.lookUp rule = none) : remembered rule body k = (body >>= fun result => do
      Parse.change (·.remember rule k.state.cursor result)
      return result) (k.update (·.note (.entered rule k.state.offset k.state.reporting))) := by
  rw [remembered, get_bind_apply, h]
  rfl

theorem Tracks.mono {P' : α → β → Registers Cursor → Prop} {x : Run α} {y : Parse β}
    (h : Tracks m regs P x y) (hP : ∀ a b r, P a b r → P' a b r) : Tracks m regs P' x y := by
  intro s hs
  have hxy := h s hs
  generalize x ⟨s, regs⟩ = ending, y (m.course s) = ending' at hxy ⊢
  cases hxy with
  | ok hp hsuspended hclean => exact .ok (hP _ _ _ hp) hsuspended hclean
  | raised hclean => exact .raised hclean
  | outOfFuel hclean => exact .outOfFuel hclean

theorem Tracks.pure {a : α} {b : β} (h : P a b regs) : Tracks m regs P (pure a) (pure b) :=
  fun _ hs => .ok h rfl hs

theorem Tracks.outOfFuel :
    Tracks m regs P (throw .outOfFuel : Run α) (throw .outOfFuel : Parse β) :=
  fun _ hs => .outOfFuel hs

theorem Tracks.bind {x : Run α} {y : Parse β} {f : α → Run α'} {g : β → Parse β'}
    (h : Tracks m regs P x y) (hf : ∀ a b r, P a b r → Tracks m r Q (f a) (g b)) :
    Tracks m regs Q (x >>= f) (y >>= g) := by
  intro s hs
  have hxy := h s hs
  rw [Run.bind_apply, Parse.bind_apply]
  generalize x ⟨s, regs⟩ = ending, y (m.course s) = ending' at hxy
  cases hxy with
  | @ok a b t r hp hsuspended hclean =>
    have hrest := hf a b r hp t hclean
    rwa [hsuspended] at hrest
  | raised hclean => exact .raised hclean
  | outOfFuel hclean => exact .outOfFuel hclean

/-- A step that concerns registers only. -/
theorem Tracks.left {a : α} {x : Run α} {f : α → Run α'} {y : Parse β'}
    (hx : ∀ s, x ⟨s, regs⟩ = .ok a ⟨s, regs'⟩) (h : Tracks m regs' Q (f a) y) :
    Tracks m regs Q (x >>= f) y := by
  intro s hs
  rw [bind_of_ok (hx s)]
  exact h s hs

/-- A last step that concerns registers only. -/
theorem Tracks.last {a : α} {b : β} {x : Run α} (hx : ∀ s, x ⟨s, regs⟩ = .ok a ⟨s, regs'⟩)
    (hP : P a b regs') : Tracks m regs P x (Pure.pure b) := by
  intro s hs
  rw [hx s]
  exact .ok hP rfl hs

/-- A last step of the parse that only prepares its result. -/
theorem Tracks.map_right {P : α → β → Registers Cursor → Prop}
    {Q : α → β' → Registers Cursor → Prop} {x : Run α} {y : Parse β} {g : β → β'}
    (h : Tracks m regs P x y)
    (hQ : ∀ a b r, P a b r → Q a (g b) r) : Tracks m regs Q x (y >>= fun b => Pure.pure (g b)) := by
  intro s hs
  have hxy := h s hs
  rw [Parse.bind_apply]
  generalize x ⟨s, regs⟩ = ending, y (m.course s) = ending' at hxy ⊢
  cases hxy with
  | ok hp hsuspended hclean => exact .ok (hQ _ _ _ hp) hsuspended hclean
  | raised hclean => exact .raised hclean
  | outOfFuel hclean => exact .outOfFuel hclean

/-! ### Steps on registers -/

theorem setOutcome_put {slot : Nat} (h : slot < regs.size) (v : Option Value) (s : State) :
    Run.setOutcome slot v ⟨s, regs⟩ = .ok () ⟨s, regs.put slot (.outcome v)⟩ := by
  rw [setOutcome_apply, Registers.set?, Registers.put?_eq h]
  rfl

theorem isMatch_matchAt {slot : Nat} (h : slot < regs.size) (s : State) :
    Run.isMatch slot ⟨s, regs⟩ = .ok (regs.matchAt slot).isSome ⟨s, regs⟩ := by
  rw [isMatch_apply, Registers.isMatch?_eq h]
  rfl

theorem value_matchAt {slot : Nat} (h : slot < regs.size) (s : State) :
    Run.value slot ⟨s, regs⟩ = .ok ((regs.matchAt slot).getD .null) ⟨s, regs⟩ := by
  rw [value_apply, Registers.value?_eq h]
  rfl

theorem values_matchAt {slots : List Nat} (h : ∀ slot ∈ slots, slot < regs.size) (s : State) :
    Run.values slots ⟨s, regs⟩ =
      .ok (slots.map fun slot => (regs.matchAt slot).getD .null) ⟨s, regs⟩ := by
  induction slots with
  | nil => rfl
  | cons slot slots ih =>
    rw [Run.values, bind_of_ok (value_matchAt (h slot List.mem_cons_self) s),
      bind_of_ok (ih fun slot hslot => h slot (List.mem_cons_of_mem _ hslot))]
    rfl

theorem take_matchAt {slot : Nat} (h : slot < regs.size) (s : State) :
    Run.take slot ⟨s, regs⟩ = .ok (regs.matchAt slot) ⟨s, regs.put slot .blank⟩ := by
  rw [take_apply, Registers.take?_eq h]
  rfl

theorem place_content {slot : Nat} {c : Cursor} (h : slot < regs.size)
    (hc : regs.content slot = .place c) (s : State) :
    Run.place slot ⟨s, regs⟩ = .ok c ⟨s, regs⟩ := by
  have hplace : regs.place? slot = .ok c := by
    rw [Registers.place?_eq_ok_iff, Registers.get?_eq h, hc]
  rw [place_apply, hplace]
  rfl

/-! ### Steps of a parse -/

/-- The parse reads the cursor, and the run goes on as it would from there. -/
theorem Tracks.of_cursor {P : α → β → Registers Cursor → Prop} {x : Run α} {f : Cursor → Run α}
    {g : Cursor → Parse β} (hx : ∀ s, x ⟨s, regs⟩ = f s.cursor ⟨s, regs⟩)
    (h : ∀ c, Tracks m regs P (f c) (g c)) : Tracks m regs P x (Parse.cursor >>= g) := by
  intro s hs
  rw [hx s]
  exact h s.cursor s hs

/-- What the run makes of the cursor, the parse makes of it later. -/
theorem Tracks.read {a : Cursor → α} {x : Run α} {f : α → Run α'} {g : Cursor → Parse β'}
    (hx : ∀ s, x ⟨s, regs⟩ = .ok (a s.cursor) ⟨s, regs⟩)
    (h : ∀ c, Tracks m regs Q (f (a c)) (g c)) :
    Tracks m regs Q (x >>= f) (Parse.cursor >>= g) :=
  .of_cursor (f := fun c => f (a c)) (fun s => bind_of_ok (hx s) f) h

theorem Tracks.cursor {f : Cursor → Run α'} {g : Cursor → Parse β'}
    (h : ∀ c, Tracks m regs Q (f c) (g c)) :
    Tracks m regs Q (Run.cursor >>= f) (Parse.cursor >>= g) :=
  .read (a := id) (fun _ => rfl) h

/-- The run keeps the cursor in a slot where the parse has it in a variable. -/
theorem Tracks.savePlace {slot : Nat} (hslot : slot < regs.size) {f : Unit → Run α'}
    {g : Cursor → Parse β'} (h : ∀ c, Tracks m (regs.put slot (.place c)) Q (f ()) (g c)) :
    Tracks m regs Q (Run.savePlace slot >>= f) (Parse.cursor >>= g) := by
  intro s hs
  have hsave : Run.savePlace slot ⟨s, regs⟩ = .ok () ⟨s, regs.put slot (.place s.cursor)⟩ := by
    rw [savePlace_apply, Registers.setPlace?, Registers.put?_eq hslot]
    rfl
  rw [bind_of_ok hsave]
  exact h s.cursor s hs

theorem Tracks.change {f : State → State} (hf : ∀ s, m.course (f s) = (m.course s).update f)
    (hsuspended : ∀ s, (f s).suspended = s.suspended) (hmemory : ∀ s, (f s).memory = s.memory) :
    Tracks m regs (fun _ _ r => r = regs) (Run.change f) (Parse.change f) := by
  intro s hs
  have hy : Parse.change f (m.course s) = .ok () (m.course (f s)) := by
    rw [hf]
    rfl
  rw [change_apply, hy]
  refine .ok rfl (hsuspended s) ?_
  change (m.course (f s)).Clean
  rw [hf]
  exact hs.update (hmemory _)

theorem Tracks.moveTo (c : Cursor) :
    Tracks m regs (fun _ _ r => r = regs) (Run.moveTo c) (Parse.moveTo c) :=
  .change (fun _ => rfl) (fun _ => rfl) fun _ => rfl

theorem Tracks.fail (d : String) : Tracks m regs (fun _ _ r => r = regs)
    (Run.change (·.fail d)) (Parse.change (·.fail d)) :=
  .change (fun s => Matcher.course_failAt m s s.cursor d) (fun _ => State.suspended_failAt ..)
    fun _ => State.memory_failAt ..

/-- A terminal gives the same value on both sides, and it is not `null`. -/
theorem Tracks.step {f : State → Option Value × State} (hf : Terminal f)
    (hnull : ∀ s, (f s).1 ≠ some .null) :
    Tracks m regs (fun a b r => a = b ∧ a ≠ some .null ∧ r = regs) (Run.step f) (Parse.step f) := by
  intro s hs
  rcases hf s.cursor with ⟨a, n, ha⟩ | ⟨a, n, d, ha⟩
  · have hrun := ha s rfl
    have hparse := ha (m.course s).state rfl
    have hy : Parse.step f (m.course s) = .ok a (m.course (s.moveTo (s.cursor.skip n))) := by
      change EStateM.Result.ok (f (m.course s).state).1 ((m.course s).update fun s => (f s).2) = _
      rw [Course.update, hparse]
      rfl
    rw [step_apply, hrun, hy]
    refine .ok ⟨rfl, by simpa [hrun] using hnull s, rfl⟩ rfl ?_
    exact hs.update (f := (·.moveTo (s.cursor.skip n))) rfl
  · have hrun := ha s rfl
    have hparse := ha (m.course s).state rfl
    have hy : Parse.step f (m.course s) = .ok a (m.course (s.failAt (s.cursor.skip n) d)) := by
      change EStateM.Result.ok (f (m.course s).state).1 ((m.course s).update fun s => (f s).2) = _
      rw [Course.update, hparse, Matcher.course_failAt]
      rfl
    rw [step_apply, hrun, hy]
    refine .ok ⟨rfl, by simpa [hrun] using hnull s, rfl⟩
      (State.suspended_failAt ..) ?_
    rw [Matcher.course_failAt]
    exact hs.update (State.memory_failAt ..)

/-- Behind a silent run, the suspension is as it was, whichever way it is ended. -/
theorem Tracks.silently {P : Unit → β → Registers Cursor → Prop} {x : Run Unit} {y : Parse β}
    (h : Tracks m regs P x y) : Tracks m regs P (Run.silently x) (Parse.silently y) := by
  intro s hs
  have hxy := h s.suspend (hs.update (f := State.suspend) rfl)
  have hrun : Run.silently x ⟨s, regs⟩ = (x >>= fun _ => Run.resume) ⟨s.suspend, regs⟩ := rfl
  have hparse : Parse.silently y (m.course s) = (y >>= fun b => do
      Parse.change fun t => { t with suspended := s.suspended }
      return b) (m.course s.suspend) := rfl
  rw [hrun, hparse, Run.bind_apply, Parse.bind_apply]
  generalize x ⟨s.suspend, regs⟩ = ending, y (m.course s.suspend) = ending' at hxy
  cases hxy with
  | @ok a b t r hp hsuspended hclean =>
    have hresume : t.resume = { t with suspended := s.suspended } := by
      rw [State.resume, hsuspended]
      rfl
    have hne : (⟨t, r⟩ : Frame).state.suspended ≠ 0 := hsuspended ▸ Nat.succ_ne_zero _
    dsimp only
    rw [resume_of_suspended hne, hresume]
    exact .ok hp rfl
      (hclean.update (f := fun t => { t with suspended := s.suspended }) rfl)
  | raised hclean => exact .raised hclean
  | outOfFuel hclean => exact .outOfFuel hclean

/-- A code block sees the same on both sides, and answers the same. -/
theorem Tracks.ask {site : Nat} {code : CodeSite} (hsite : m.program.code[site]? = some code)
    (f : Handler α) {cx : Context} (hcx : ∀ label ∈ cx.labels, label.2 ≠ .null) :
    Tracks m regs (fun a b r => a = b ∧ r = regs) (Matcher.callCode site cx f)
      (Parse.ask ⟨code.kind, code.code, cx⟩ (f.run cx)) := by
  intro s hs
  have hcalled := Matcher.course_called hsite s cx
  have hclean : (m.course (s.note (.called site cx))).Clean := by
    rw [hcalled]
    exact hs.asked hcx
  cases hanswer : f.run cx with
  | ok a =>
    have hrun : Matcher.callCode site cx f ⟨s, regs⟩ = .ok a ⟨s.note (.called site cx), regs⟩ := by
      unfold Matcher.callCode
      rw [hanswer]
      rfl
    have hparse : Parse.ask ⟨code.kind, code.code, cx⟩ (.ok a) (m.course s) =
        .ok a (m.course (s.note (.called site cx))) := by
      rw [hcalled]
      rfl
    rw [hrun, hparse]
    exact .ok ⟨rfl, rfl⟩ rfl hclean
  | error text =>
    have hrun : Matcher.callCode site cx f ⟨s, regs⟩ =
        .error (.action text) ⟨s.note (.called site cx), regs⟩ := by
      unfold Matcher.callCode
      rw [hanswer]
      rfl
    have hparse : Parse.ask ⟨code.kind, code.code, cx⟩ (.error text : Except String α)
        (m.course s) = .error (.raised text) (m.course (s.note (.called site cx))) := by
      rw [hcalled]
      rfl
    rw [hrun, hparse]
    exact .raised hclean

/-- The passes of a repetition keep `I`, and so does taking their items. -/
theorem Tracks.collect {I : Registers Cursor → Prop} {slot : Nat} {x : Run Unit}
    {y : Parse (Option Value)}
    (hpass : ∀ r, I r → Tracks m r
      (fun _ b r' => slot < r'.size ∧ r'.matchAt slot = b ∧ I (r'.put slot .blank)) x y)
    (hregs : I regs) (fuel : Nat) : Tracks m regs (fun a b r => a = b ∧ I r)
      (Matcher.collect x slot fuel) (Parse.collect y fuel) := by
  induction fuel generalizing regs with
  | zero => exact .outOfFuel
  | succ fuel ih =>
    refine .cursor fun before => .bind (hpass regs hregs) ?_
    rintro _ b r ⟨hslot, hmatch, hI⟩
    refine .left (take_matchAt hslot) ?_
    rw [hmatch]
    cases b with
    | none => exact .pure ⟨rfl, hI⟩
    | some item =>
      refine .cursor fun after => ?_
      split
      · exact .pure ⟨rfl, hI⟩
      · refine .bind (ih hI) ?_
        rintro items _ r' ⟨rfl, hI'⟩
        exact .pure ⟨rfl, hI'⟩

end

end Packrat
