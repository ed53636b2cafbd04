import Packrat.Matcher

/-!
# The primitive computations of a matcher, as equations

What each primitive computation does to a frame, written as one equation. Everything about
operations is derived from these, so no other proof looks inside `EStateM`.
-/

namespace Packrat

/-- How a run ends. -/
abbrev Ending (α : Type) := EStateM.Result Halt Frame α

variable {α β : Type}

/-- Changes the frame behind a regular ending. -/
def Ending.after (u : α → Frame → Frame) : Ending α → Ending α
  | .ok a fr => .ok a (u a fr)
  | .error e fr => .error e fr

@[simp] theorem Ending.after_id (r : Ending α) : r.after (fun _ fr => fr) = r := by
  cases r <;> rfl

theorem Ending.after_eq_ok_iff {u : α → Frame → Frame} {r : Ending α} {a : α} {fr : Frame} :
    r.after u = .ok a fr ↔ ∃ fr', r = .ok a fr' ∧ u a fr' = fr := by
  cases r with
  | ok b fr' =>
    constructor
    · rintro ⟨⟩
      exact ⟨fr', rfl, rfl⟩
    · rintro ⟨_, ⟨⟩, rfl⟩
      rfl
  | error e fr' => exact ⟨nofun, nofun⟩

/-- The run ended, other than for want of fuel, and left the state behind. -/
inductive EndsIn : Ending α → State → Prop
  | ok {a : α} {fr : Frame} : EndsIn (.ok a fr) fr.state
  | error {e : Halt} {fr : Frame} : e ≠ .outOfFuel → EndsIn (.error e fr) fr.state

theorem EndsIn.unique {r : Ending α} {s t : State} (h : EndsIn r s) (h' : EndsIn r t) :
    s = t := by
  cases h <;> cases h' <;> rfl

theorem EndsIn.of_ok {r : Ending α} {a : α} {fr : Frame} (h : r = .ok a fr) : EndsIn r fr.state :=
  h ▸ .ok

namespace Run

theorem bind_apply (x : Run α) (f : α → Run β) (fr : Frame) :
    (x >>= f) fr = match x fr with
      | .ok a fr' => f a fr'
      | .error e fr' => .error e fr' := by
  change EStateM.bind x f fr = _
  unfold EStateM.bind
  cases x fr <;> rfl

theorem get_bind_apply (f : Frame → Run α) (fr : Frame) : (get >>= f) fr = f fr fr := rfl

theorem bind_of_ok {x : Run α} {fr fr' : Frame} {a : α} (h : x fr = .ok a fr') (f : α → Run β) :
    (x >>= f) fr = f a fr' := by
  rw [bind_apply, h]

theorem bind_of_error {x : Run α} {fr fr' : Frame} {e : Halt} (h : x fr = .error e fr')
    (f : α → Run β) : (x >>= f) fr = .error e fr' := by
  rw [bind_apply, h]

/-- The ending of a step that may break a rule of use. -/
def ofStep (fr : Frame) : Except Fault (α × Frame) → Ending α
  | .ok (a, fr') => .ok a fr'
  | .error f => .error (.fault f) fr

theorem cursor_apply (fr : Frame) : cursor fr = .ok fr.state.cursor fr := rfl

theorem change_apply (f : State → State) (fr : Frame) :
    change f fr = .ok () { fr with state := f fr.state } := rfl

theorem step_apply (f : State → α × State) (fr : Frame) :
    Run.step f fr = .ok (f fr.state).1 { fr with state := (f fr.state).2 } := rfl

theorem savePlace_apply (slot : Nat) (fr : Frame) :
    savePlace slot fr = ofStep fr
      ((fr.registers.setPlace? slot fr.state.cursor).map fun r =>
        ((), { fr with registers := r })) := by
  change (ofFault (fr.registers.setPlace? slot fr.state.cursor) >>= fun registers =>
    set { fr with registers }) fr = _
  cases fr.registers.setPlace? slot fr.state.cursor <;> rfl

theorem setOutcome_apply (slot : Nat) (result : Option Value) (fr : Frame) :
    setOutcome slot result fr = ofStep fr
      ((fr.registers.set? slot result).map fun r => ((), { fr with registers := r })) := by
  change (ofFault (fr.registers.set? slot result) >>= fun registers =>
    set { fr with registers }) fr = _
  cases fr.registers.set? slot result <;> rfl

theorem place_apply (slot : Nat) (fr : Frame) :
    place slot fr = ofStep fr ((fr.registers.place? slot).map fun c => (c, fr)) := by
  change (ofFault (fr.registers.place? slot)) fr = _
  cases fr.registers.place? slot <;> rfl

theorem isMatch_apply (slot : Nat) (fr : Frame) :
    isMatch slot fr = ofStep fr ((fr.registers.isMatch? slot).map fun b => (b, fr)) := by
  change (ofFault (fr.registers.isMatch? slot)) fr = _
  cases fr.registers.isMatch? slot <;> rfl

theorem value_apply (slot : Nat) (fr : Frame) :
    value slot fr = ofStep fr ((fr.registers.value? slot).map fun v => (v, fr)) := by
  change (ofFault (fr.registers.value? slot)) fr = _
  cases fr.registers.value? slot <;> rfl

theorem take_apply (slot : Nat) (fr : Frame) :
    take slot fr = ofStep fr
      ((fr.registers.take? slot).map fun (v, r) => (v, { fr with registers := r })) := by
  change (ofFault (fr.registers.take? slot) >>= fun p => (do
    set { fr with registers := p.2 }; return p.1 : Run (Option Value))) fr = _
  cases fr.registers.take? slot <;> rfl

theorem resume_apply (fr : Frame) :
    resume fr = ofStep fr (fr.state.resume?.map fun s => ((), { fr with state := s })) := by
  change (ofFault fr.state.resume? >>= fun state => set { fr with state }) fr = _
  cases fr.state.resume? <;> rfl

theorem resume_of_suspended {fr : Frame} (h : fr.state.suspended ≠ 0) :
    resume fr = .ok () { fr with state := fr.state.resume } := by
  rw [resume_apply, State.resume?, if_neg h]
  rfl

end Run

end Packrat
