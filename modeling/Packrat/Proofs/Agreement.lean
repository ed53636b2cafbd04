import Packrat.Proofs.Execution
import Packrat.Proofs.Failures
import Packrat.Proofs.Simulation

/-!
# Runs that statements carry out

A run of the matcher and an execution of statements work on the same states and registers, with the
same calls. Two things tell them apart. The matcher notes in its journal which rules it entered and
which code blocks it called, and emitted functions do not: `State.bare` leaves these notes out. And
an execution has variables.

`Carries x y locals P` says that `y`, begun with the variables `locals`, does what `x` does: both
end regularly, with results and variables as `P` has them, on states that differ in those notes only
and on the same registers; or both end with the same error and on such states.

The relation holds on frames that suit the options (`Frame.Suits`). A parser that tracks lines knows
them at every place that it may ever go back to, one that does not remember results has no memory,
and all registers of a rule are there.

## Main results

* `Carries.bind`, `Carries.use`: sequential composition, calls on the state and the registers
* `Carries.inBlock`: a block forgets its variables
-/

namespace Packrat

variable {α β α' β' : Type}

/-! ### Without the notes of rules and code blocks -/

/-- Whether an event is a failure. -/
def Event.isFailure : Event → Bool
  | .failed .. => true
  | _ => false

/-- The state without the notes of rules and code blocks. -/
def State.bare (s : State) : State := s.keeping Event.isFailure

/-- The frame without the notes of rules and code blocks. -/
def Frame.bare (fr : Frame) : Frame := { fr with state := fr.state.bare }

/-- The ending without the notes of rules and code blocks. -/
def Ending.bare : Ending α → Ending α
  | .ok a fr => .ok a fr.bare
  | .error e fr => .error e fr.bare

theorem State.bare_failAt (s : State) (place : Cursor) (d : String) :
    (s.failAt place d).bare = s.bare.failAt place d :=
  (failAt_keeping (fun _ _ => rfl) s place d).symm

theorem State.lookUp_bare (s : State) (rule : Nat) :
    s.bare.lookUp rule = (s.lookUp rule).map fun (result, t) => (result, t.bare) :=
  lookUp_keeping Event.isFailure s rule

/-! ### Frames that suit the options -/

/-- A cursor knows its line and column if they are tracked, and otherwise not. -/
def Cursor.Suits (options : Options) (c : Cursor) : Prop :=
  c.position.lineColumn.isSome = options.trackLines

/-- The state is as a parser with these options has it. -/
structure State.Suits (options : Options) (s : State) : Prop where
  cursor : s.cursor.Suits options
  forgetful : options.cache = false → s.memory = none
  memory (memory : Memory) : s.memory = some memory → ∀ (key : MemoKey) (entry : MemoEntry),
    memory[key]? = some entry → entry.after.Suits options

/-- The frame is as a parser with these options has it in a rule with so many registers. -/
structure Frame.Suits (options : Options) (count : Nat) (fr : Frame) : Prop where
  state : fr.state.Suits options
  size : fr.registers.size = count
  places (slot : Nat) (c : Cursor) : fr.registers.get? slot = .ok (.place c) → c.Suits options

section

variable {options : Options} {count : Nat} {s : State} {fr : Frame}

theorem Cursor.Suits.skip {c : Cursor} (h : c.Suits options) (n : Nat) :
    (c.skip n).Suits options := by
  have hlines : ∀ p : Position, p.lineColumn.isSome = p.lines.isSome := by
    intro p
    simp [Position.lineColumn]
  rw [Suits, hlines] at h ⊢
  rw [← h]
  simp [Cursor.skip, Position.lines_advance]

theorem Cursor.suits_start (options : Options) (text : List Char) :
    (Cursor.start options.trackLines text).Suits options := by
  cases h : options.trackLines <;>
    simp [Suits, Cursor.start, Position.start, Position.lineColumn, h]

theorem State.suits_start (options : Options) (text : List Char) :
    (State.start options.trackLines options.cache text).Suits options := by
  refine ⟨Cursor.suits_start options text, ?_, ?_⟩
  · intro h
    simp [State.start, h]
  · intro memory hmemory key entry hentry
    have hempty : memory = ∅ := by
      cases hcache : options.cache <;> simp_all [State.start]
    simp [hempty] at hentry

/-- Only the cursor and the memory matter. -/
theorem State.Suits.congr {t : State} (h : s.Suits options) (hcursor : t.cursor.Suits options)
    (hmemory : t.memory = s.memory) : t.Suits options :=
  ⟨hcursor, fun hcache => hmemory.trans (h.forgetful hcache),
    fun memory heq => h.memory memory (hmemory ▸ heq)⟩

theorem State.Suits.failAt (h : s.Suits options) (place : Cursor) (d : String) :
    (s.failAt place d).Suits options := by
  refine h.congr ?_ (memory_failAt ..)
  rw [cursor_failAt]
  exact h.cursor

theorem State.Suits.remember (h : s.Suits options) (rule : Nat) (begun : Cursor)
    (result : Option Value) : (s.remember rule begun result).Suits options := by
  refine ⟨h.cursor, ?_, ?_⟩
  · intro hcache
    show s.memory.map _ = none
    rw [h.forgetful hcache]
    rfl
  · intro memory hmemory key entry hentry
    obtain ⟨-, rfl⟩ | ⟨old, hold, hentry⟩ := State.entry_of_remember hmemory hentry
    · exact h.cursor
    · exact h.memory old hold key entry hentry

theorem Frame.Suits.withState (h : fr.Suits options count) (hs : s.Suits options) :
    ({ fr with state := s } : Frame).Suits options count := ⟨hs, h.size, h.places⟩

/-- Writing to a register keeps the frame suitable if a place that is written does. -/
theorem Frame.Suits.put (h : fr.Suits options count) {slot : Nat} {c : Register Cursor}
    {registers : Registers Cursor} (hput : fr.registers.put? slot c = .ok registers)
    (hc : ∀ place, c = .place place → place.Suits options) :
    ({ fr with registers } : Frame).Suits options count := by
  refine ⟨h.state, (Registers.size_of_put? hput).trans h.size, ?_⟩
  intro i place hi
  rcases Registers.place_of_put? hput hi with heq | hold
  · exact hc place heq
  · exact h.places i place hold

end

/-! ### Calls on the state and the registers -/

open Run

/-- A call that neither sees nor takes notes, and keeps a frame suitable. -/
def Plain (options : Options) (count : Nat) (x : Run α) (P : α → Prop) : Prop :=
  ∀ fr, fr.Suits options count → x fr.bare = Ending.bare (x fr) ∧
    ∀ a fr', x fr = .ok a fr' → fr'.Suits options count ∧ P a

section

variable {options : Options} {count : Nat}

theorem Plain.pure {a : α} {P : α → Prop} (h : P a) : Plain options count (pure a) P := by
  intro fr hfr
  refine ⟨rfl, ?_⟩
  rintro _ _ ⟨⟩
  exact ⟨hfr, h⟩

theorem Plain.bind {x : Run α} {f : α → Run β} {P : α → Prop} {Q : β → Prop}
    (h : Plain options count x P) (hf : ∀ a, P a → Plain options count (f a) Q) :
    Plain options count (x >>= f) Q := by
  intro fr hfr
  obtain ⟨hbare, hok⟩ := h fr hfr
  rw [bind_apply, bind_apply, hbare]
  cases hx : x fr with
  | ok a fr' =>
    obtain ⟨hfr', ha⟩ := hok a fr' hx
    exact hf a ha fr' hfr'
  | error e fr' => exact ⟨rfl, nofun⟩

/-- A call that only reads registers. -/
theorem Plain.of_reading {x : Run α} {P : α → Prop} (f : Registers Cursor → Except Fault α)
    (hx : ∀ fr, x fr = Run.ofStep fr ((f fr.registers).map fun a => (a, fr)))
    (hP : ∀ fr : Frame, fr.Suits options count → ∀ a, f fr.registers = .ok a → P a) :
    Plain options count x P := by
  intro fr hfr
  have hregisters : fr.bare.registers = fr.registers := rfl
  rw [hx, hx, hregisters]
  cases hf : f fr.registers with
  | error e => exact ⟨rfl, nofun⟩
  | ok a =>
    refine ⟨rfl, ?_⟩
    rintro _ _ ⟨⟩
    exact ⟨hfr, hP fr hfr a hf⟩

theorem plain_isMatch (slot : Nat) : Plain options count (isMatch slot) fun _ => True :=
  .of_reading (·.isMatch? slot) (isMatch_apply slot) fun _ _ _ _ => trivial

theorem plain_value (slot : Nat) : Plain options count (value slot) fun _ => True :=
  .of_reading (·.value? slot) (value_apply slot) fun _ _ _ _ => trivial

theorem plain_values (slots : List Nat) :
    Plain options count (values slots) fun vs => vs.length = slots.length := by
  induction slots with
  | nil => exact .pure rfl
  | cons slot slots ih =>
    refine .bind (plain_value slot) fun v _ => .bind ih fun vs hvs => .pure ?_
    rw [List.length_cons, List.length_cons, hvs]

theorem plain_place (slot : Nat) : Plain options count (place slot) (Cursor.Suits options) := by
  refine .of_reading (·.place? slot) (place_apply slot) ?_
  intro fr hfr c hc
  exact hfr.places slot c (Registers.place?_eq_ok_iff.mp hc)

theorem plain_cursor : Plain options count cursor (Cursor.Suits options) := by
  intro fr hfr
  refine ⟨rfl, ?_⟩
  rintro _ _ ⟨⟩
  exact ⟨hfr, hfr.state.cursor⟩

/-- A call that writes to a register. -/
theorem Plain.of_put {x : Run Unit} (slot : Nat) (c : Frame → Register Cursor)
    (hx : ∀ fr, x fr = Run.ofStep fr
      ((fr.registers.put? slot (c fr)).map fun r => ((), { fr with registers := r })))
    (hbare : ∀ fr : Frame, c fr.bare = c fr)
    (hc : ∀ fr : Frame, fr.Suits options count → ∀ place, c fr = .place place →
      place.Suits options) :
    Plain options count x fun _ => True := by
  intro fr hfr
  have hregisters : fr.bare.registers = fr.registers := rfl
  rw [hx, hx, hregisters, hbare]
  cases hput : fr.registers.put? slot (c fr) with
  | error e => exact ⟨rfl, nofun⟩
  | ok registers =>
    refine ⟨rfl, ?_⟩
    rintro _ _ ⟨⟩
    exact ⟨hfr.put hput (hc fr hfr), trivial⟩

theorem plain_savePlace (slot : Nat) : Plain options count (savePlace slot) fun _ => True := by
  refine .of_put slot (fun fr => .place fr.state.cursor) (savePlace_apply slot) (fun _ => rfl) ?_
  intro fr hfr place heq
  obtain rfl := Register.place.inj heq
  exact hfr.state.cursor

theorem plain_setOutcome (slot : Nat) (result : Option Value) :
    Plain options count (setOutcome slot result) fun _ => True :=
  .of_put slot (fun _ => .outcome result) (setOutcome_apply slot result) (fun _ => rfl) nofun

theorem plain_take (slot : Nat) : Plain options count (take slot) fun _ => True := by
  intro fr hfr
  have hregisters : fr.bare.registers = fr.registers := rfl
  rw [take_apply, take_apply, hregisters]
  cases htake : fr.registers.take? slot with
  | error e => exact ⟨rfl, nofun⟩
  | ok p =>
    obtain ⟨result, registers⟩ := p
    obtain ⟨c, -, -, hput⟩ := Registers.take?_eq_ok_iff.mp htake
    refine ⟨rfl, ?_⟩
    rintro _ _ ⟨⟩
    exact ⟨hfr.put hput nofun, trivial⟩

theorem plain_change {f : State → State} (hbare : ∀ s : State, f s.bare = (f s).bare)
    (hsuits : ∀ s : State, s.Suits options → (f s).Suits options) :
    Plain options count (change f) fun _ => True := by
  intro fr hfr
  refine ⟨?_, ?_⟩
  · rw [change_apply, change_apply]
    exact congrArg (fun s => EStateM.Result.ok () (⟨s, fr.registers⟩ : Frame)) (hbare fr.state)
  · rintro _ _ ⟨⟩
    exact ⟨hfr.withState (hsuits _ hfr.state), trivial⟩

theorem plain_moveTo {c : Cursor} (hc : c.Suits options) :
    Plain options count (moveTo c) fun _ => True :=
  plain_change (fun _ => rfl) fun _ hs => hs.congr hc rfl

theorem plain_fail (d : String) : Plain options count (change (·.fail d)) fun _ => True :=
  plain_change (fun s => (s.bare_failAt s.cursor d).symm) fun _ hs => hs.failAt _ d

theorem plain_suspend : Plain options count suspend fun _ => True :=
  plain_change (fun _ => rfl) fun _ hs => hs.congr hs.cursor rfl

theorem plain_resume : Plain options count resume fun _ => True := by
  intro fr hfr
  rw [resume_apply, resume_apply]
  by_cases h : fr.state.suspended = 0
  · have h' : fr.bare.state.suspended = 0 := h
    rw [State.resume?, State.resume?, if_pos h, if_pos h']
    exact ⟨rfl, by rintro _ _ ⟨⟩⟩
  · have h' : ¬ fr.bare.state.suspended = 0 := h
    rw [State.resume?, State.resume?, if_neg h, if_neg h']
    refine ⟨rfl, ?_⟩
    rintro _ _ ⟨⟩
    exact ⟨hfr.withState (hfr.state.congr hfr.state.cursor rfl), trivial⟩

theorem plain_step {f : State → α × State} (hf : Terminal f) :
    Plain options count (Run.step f) fun _ => True := by
  intro fr hfr
  rcases hf fr.state.cursor with ⟨a, n, ha⟩ | ⟨a, n, d, ha⟩
  · have hrun := ha fr.state rfl
    have hbare := ha fr.bare.state rfl
    rw [step_apply, step_apply, hrun, hbare]
    refine ⟨rfl, ?_⟩
    rintro _ _ ⟨⟩
    exact ⟨hfr.withState (hfr.state.congr (hfr.state.cursor.skip n) rfl), trivial⟩
  · have hrun := ha fr.state rfl
    have hbare := ha fr.bare.state rfl
    rw [step_apply, step_apply, hrun, hbare]
    refine ⟨?_, ?_⟩
    · exact congrArg (fun s => EStateM.Result.ok a (⟨s, fr.registers⟩ : Frame))
        (fr.state.bare_failAt _ d).symm
    · rintro _ _ ⟨⟩
      exact ⟨hfr.withState (hfr.state.failAt _ d), trivial⟩

end

/-! ### Carrying out -/

namespace Emit

open Exec

variable {options : Options} {count : Nat} {locals locals' : Locals}

/-- The machine on a frame, without the notes. -/
def machine (fr : Frame) (locals : Locals) : Machine := ⟨fr.state.bare, some fr.registers, locals⟩

/-- The two endings are the same but for notes and variables. Behind an error, only the state
counts. -/
inductive Agrees (options : Options) (count : Nat) (P : α → β → Locals → Prop) :
    Ending α → EStateM.Result Abort Machine β → Prop
  | ok {a : α} {b : β} (fr : Frame) (locals : Locals) : P a b locals → fr.Suits options count →
      Agrees options count P (.ok a fr) (.ok b (machine fr locals))
  | error {e : Halt} {fr : Frame} {mc : Machine} : mc.state = fr.state.bare →
      Agrees options count P (.error e fr) (.error (.halt e) mc)

/-- Begun with these variables, the execution does what the run does. -/
def Carries (options : Options) (count : Nat) (x : Run α) (y : Exec β) (locals : Locals)
    (P : α → β → Locals → Prop) : Prop :=
  ∀ fr : Frame, fr.Suits options count → Agrees options count P (x fr) (y (machine fr locals))

variable {P : α → β → Locals → Prop} {Q : α' → β' → Locals → Prop} {x : Run α} {y : Exec β}

theorem exec_get_bind_apply (g : Machine → Exec β) (mc : Machine) :
    (get >>= g) mc = g mc mc := rfl

theorem exec_bind_apply (y : Exec β) (g : β → Exec β') (mc : Machine) :
    (y >>= g) mc = match y mc with
      | .ok b mc' => g b mc'
      | .error e mc' => .error e mc' := by
  show EStateM.bind y g mc = _
  unfold EStateM.bind
  cases y mc <;> rfl

theorem Carries.mono {P' : α → β → Locals → Prop} (h : Carries options count x y locals P)
    (hP : ∀ a b l, P a b l → P' a b l) : Carries options count x y locals P' := by
  intro fr hfr
  have hxy := h fr hfr
  generalize x fr = ending, y (machine fr locals) = ending' at hxy ⊢
  cases hxy with
  | ok fr' l hp hfr' => exact .ok fr' l (hP _ _ _ hp) hfr'
  | error hstate => exact .error hstate

theorem Carries.pure {a : α} {b : β} (h : P a b locals) :
    Carries options count (pure a) (pure b) locals P := fun fr hfr => .ok fr locals h hfr

theorem Carries.outOfFuel :
    Carries options count (throw .outOfFuel : Run α) (throw (.halt .outOfFuel) : Exec β) locals P :=
  fun _ _ => .error rfl

theorem Carries.bind {f : α → Run α'} {g : β → Exec β'} (h : Carries options count x y locals P)
    (hf : ∀ a b l, P a b l → Carries options count (f a) (g b) l Q) :
    Carries options count (x >>= f) (y >>= g) locals Q := by
  intro fr hfr
  have hxy := h fr hfr
  rw [Run.bind_apply, exec_bind_apply]
  generalize x fr = ending, y (machine fr locals) = ending' at hxy
  cases hxy with
  | ok fr' l hp hfr' => exact hf _ _ l hp fr' hfr'
  | error hstate => exact .error hstate

/-- A step of the run that needs no counterpart. -/
theorem Carries.left {A : α → Prop} {f : α → Run α'} {y : Exec β'}
    (hx : ∀ fr : Frame, fr.Suits options count → ∃ a, x fr = .ok a fr ∧ A a)
    (h : ∀ a, A a → Carries options count (f a) y locals Q) :
    Carries options count (x >>= f) y locals Q := by
  intro fr hfr
  obtain ⟨a, ha, hA⟩ := hx fr hfr
  rw [bind_of_ok ha]
  exact h a hA fr hfr

/-- A step of the execution that concerns variables only. -/
theorem Carries.right {b : β} {x : Run α'} {g : β → Exec β'}
    (hy : ∀ fr, y (machine fr locals) = .ok b (machine fr locals'))
    (h : Carries options count x (g b) locals' Q) : Carries options count x (y >>= g) locals Q := by
  intro fr hfr
  rw [exec_bind_apply, hy]
  exact h fr hfr

/-- A last step of the execution that only prepares its result. -/
theorem Carries.map_right {Q : α → β' → Locals → Prop} {g : β → β'}
    (h : Carries options count x y locals P) (hQ : ∀ a b l, P a b l → Q a (g b) l) :
    Carries options count x (y >>= fun b => Pure.pure (g b)) locals Q := by
  rw [← bind_pure x]
  exact .bind h fun a b l hP => .pure (hQ a b l hP)

/-- A last step of the run that only prepares its result. -/
theorem Carries.map_left {Q : α' → β → Locals → Prop} {f : α → α'}
    (h : Carries options count x y locals P) (hQ : ∀ a b l, P a b l → Q (f a) b l) :
    Carries options count (x >>= fun a => Pure.pure (f a)) y locals Q := by
  rw [← bind_pure y]
  exact .bind h fun a b l hP => .pure (hQ a b l hP)

/-- The same call on both sides. -/
theorem Carries.use {A : α → Prop} (hx : Plain options count x A) :
    Carries options count x (use x) locals fun a b l => a = b ∧ A a ∧ l = locals := by
  intro fr hfr
  obtain ⟨hbare, hok⟩ := hx fr hfr
  have hmachine : x ⟨fr.state.bare, fr.registers⟩ = _ := hbare
  rw [Exec.use]
  dsimp only [machine]
  rw [hmachine]
  cases hrun : x fr with
  | ok a fr' =>
    obtain ⟨hfr', hA⟩ := hok a fr' hrun
    exact .ok fr' locals ⟨rfl, hA, rfl⟩ hfr'
  | error e fr' => exact .error rfl

/-- The same call on both sides, and what comes behind it. -/
theorem Carries.use_bind {A : α → Prop} {f : α → Run α'} {g : α → Exec β'}
    (hx : Plain options count x A) (h : ∀ a, A a → Carries options count (f a) (g a) locals Q) :
    Carries options count (x >>= f) (Exec.use x >>= g) locals Q := by
  refine .bind (.use hx) ?_
  rintro a _ _ ⟨rfl, hA, rfl⟩
  exact h a hA

/-! ### Variables -/

theorem declare_apply (x : Variable) (c : Content) (fr : Frame) (locals : Locals) :
    declare x c (machine fr locals) = .ok () (machine fr ((x, c) :: locals)) := rfl

theorem assign_apply (x : Variable) (c : Content) (fr : Frame) (locals : Locals) :
    assign x c (machine fr locals) = .ok () (machine fr (locals.replace x c)) := rfl

theorem read_apply {x : Variable} {c : Content} {as? : Content → Option α} {a : α}
    (hx : locals.lookup x = some c) (hc : as? c = some a) (fr : Frame) :
    read x as? (machine fr locals) = .ok a (machine fr locals) := by
  have hlocals : (machine fr locals).locals = locals := rfl
  unfold Exec.read
  rw [exec_get_bind_apply, hlocals, hx]
  dsimp only
  rw [hc]
  rfl

/-- Variables of other names do not hide a variable. -/
theorem lookup_append_of_notMem {x : Variable} {new : Locals} (h : x ∉ new.map Prod.fst)
    (locals : Locals) : (new ++ locals).lookup x = locals.lookup x := by
  induction new with
  | nil => rfl
  | cons entry new ih =>
    obtain ⟨y, c⟩ := entry
    rw [List.map_cons, List.mem_cons, not_or] at h
    have hne : (x == y) = false := beq_eq_false_iff_ne.mpr h.1
    rw [List.cons_append, List.lookup_cons, hne]
    exact ih h.2

theorem replace_append_of_notMem {x : Variable} {new : Locals} (h : x ∉ new.map Prod.fst)
    (c : Content) (locals : Locals) :
    (new ++ locals : Locals).replace x c = new ++ locals.replace x c := by
  induction new with
  | nil => rfl
  | cons entry new ih =>
    obtain ⟨y, d⟩ := entry
    rw [List.map_cons, List.mem_cons, not_or] at h
    rw [List.cons_append, Locals.replace, if_neg (Ne.symm h.1), ih h.2, List.cons_append]

/-- A block forgets its variables; those around it may have changed. -/
theorem Carries.inBlock_of_length
    (h : Carries options count x y locals fun a b l =>
      ∃ new l', l = new ++ l' ∧ l'.length = locals.length ∧ P a b l') :
    Carries options count x (inBlock y) locals P := by
  intro fr hfr
  have hxy := h fr hfr
  have hblock : Exec.inBlock y (machine fr locals) = (y >>= fun b => do
      modify fun mc => { mc with locals := mc.locals.drop (mc.locals.length - locals.length) }
      return b) (machine fr locals) := rfl
  rw [hblock, exec_bind_apply]
  generalize x fr = ending, y (machine fr locals) = ending' at hxy
  cases hxy with
  | ok fr' l hp hfr' =>
    obtain ⟨new, l', rfl, hlength, hP⟩ := hp
    have hdrop : (new ++ l').drop ((new ++ l').length - locals.length) = l' := by
      simp [← hlength]
    exact .ok fr' ((new ++ l').drop _) (hdrop.symm ▸ hP) hfr'
  | error hstate => exact .error hstate

/-- A block forgets its variables. -/
theorem Carries.inBlock {P : α → β → Prop}
    (h : Carries options count x y locals fun a b l => P a b ∧ ∃ new, l = new ++ locals) :
    Carries options count x (inBlock y) locals fun a b l => P a b ∧ l = locals := by
  refine .inBlock_of_length (.mono h ?_)
  rintro a b _ ⟨hP, new, rfl⟩
  exact ⟨new, locals, rfl, rfl, hP, rfl⟩

end Emit

end Packrat
