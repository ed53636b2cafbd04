import Packrat.Error
import Packrat.Value

/-!
# Registers of a rule

Each call of a rule owns a row of numbered slots. A slot serves several expressions one after the
other, so it may hold the place to go back to now and the outcome of a match later. Reading a slot
as a match is always possible and finds no match in a slot that holds none; reading it as a place is
not, and neither is touching a slot that does not exist.
-/

namespace Packrat

/-- Contents of a slot; `π` is the type of places. -/
inductive Register (π : Type) where
  | blank
  | place (p : π)
  /-- The outcome of a match, with `none` for a failed one. -/
  | outcome (result : Option Value)

/-- The match in a slot, if there is one. -/
def Register.match? {π : Type} : Register π → Option Value
  | outcome result => result
  | _ => none

/-- The slots of one call of a rule. -/
structure Registers (π : Type) where
  slots : Array (Register π)

namespace Registers

variable {π : Type}

/-- Slots without contents. -/
def blank (count : Nat) : Registers π := ⟨Array.replicate count .blank⟩

/-- Number of slots. -/
def size (r : Registers π) : Nat := r.slots.size

/-- Contents of a slot. -/
def get? (r : Registers π) (slot : Nat) : Except Fault (Register π) :=
  match r.slots[slot]? with
  | some c => .ok c
  | none => .error (.noSuchSlot slot)

/-- Replaces the contents of a slot. -/
def put? (r : Registers π) (slot : Nat) (c : Register π) : Except Fault (Registers π) :=
  if h : slot < r.slots.size then .ok ⟨r.slots.set slot c h⟩ else .error (.noSuchSlot slot)

/-- Stores a place to go back to. -/
def setPlace? (r : Registers π) (slot : Nat) (p : π) : Except Fault (Registers π) :=
  r.put? slot (.place p)

/-- The stored place. -/
def place? (r : Registers π) (slot : Nat) : Except Fault π := do
  match ← r.get? slot with
  | .place p => .ok p
  | _ => .error (.noPosition slot)

/-- Stores the outcome of a match. -/
def set? (r : Registers π) (slot : Nat) (result : Option Value) : Except Fault (Registers π) :=
  r.put? slot (.outcome result)

/-- The match in a slot, if there is one. -/
def match? (r : Registers π) (slot : Nat) : Except Fault (Option Value) := do
  return (← r.get? slot).match?

/-- Whether a slot holds a match. -/
def isMatch? (r : Registers π) (slot : Nat) : Except Fault Bool := do
  return (← r.match? slot).isSome

/-- The value of a label's slot, `null` when the slot holds no match. -/
def value? (r : Registers π) (slot : Nat) : Except Fault Value := do
  return (← r.match? slot).getD .null

/-- The match in a slot, which is left blank. -/
def take? (r : Registers π) (slot : Nat) : Except Fault (Option Value × Registers π) := do
  let result ← r.match? slot
  return (result, ← r.put? slot .blank)

/-! ## What the operations keep -/

@[simp] theorem size_blank (count : Nat) : (blank count : Registers π).size = count := by
  simp [blank, size]

/-- Fresh registers hold no place. -/
theorem get?_blank_ne_place (count slot : Nat) (p : π) :
    (blank count : Registers π).get? slot ≠ .ok (.place p) := by
  intro h
  simp only [get?, blank, Array.getElem?_replicate] at h
  split at h
  · next heq =>
    split at heq
    · obtain rfl := Option.some.inj heq
      nomatch h
    · nomatch heq
  · nomatch h

theorem size_of_put? {r r' : Registers π} {slot : Nat} {c : Register π}
    (h : r.put? slot c = .ok r') : r'.size = r.size := by
  unfold put? at h
  split at h
  · obtain rfl := Except.ok.inj h
    simp [size]
  · nomatch h

/-- A slot that was written holds what was put there, and no other slot changes. -/
theorem get?_of_put? {r r' : Registers π} {slot : Nat} {c : Register π}
    (h : r.put? slot c = .ok r') (i : Nat) :
    r'.get? i = if i = slot then .ok c else r.get? i := by
  unfold put? at h
  split at h
  · next hs =>
    obtain rfl := Except.ok.inj h
    simp only [get?, Array.getElem?_set]
    by_cases hi : i = slot
    · simp [hi]
    · simp [hi, Ne.symm hi]
  · nomatch h

theorem place?_eq_ok_iff {r : Registers π} {slot : Nat} {p : π} :
    r.place? slot = .ok p ↔ r.get? slot = .ok (.place p) := by
  unfold place?
  cases h : r.get? slot with
  | error e => simp [bind, Except.bind]
  | ok c => cases c <;> simp [bind, Except.bind]

/-- A place behind a write is the one that was written, or it was there before. -/
theorem place_of_put? {r r' : Registers π} {slot i : Nat} {c : Register π} {p : π}
    (h : r.put? slot c = .ok r') (hp : r'.get? i = .ok (.place p)) :
    c = .place p ∨ r.get? i = .ok (.place p) := by
  rw [get?_of_put? h] at hp
  split at hp
  · exact .inl (Except.ok.inj hp)
  · exact .inr hp

theorem take?_eq_ok_iff {r r' : Registers π} {slot : Nat} {result : Option Value} :
    r.take? slot = .ok (result, r') ↔
      ∃ c, r.get? slot = .ok c ∧ c.match? = result ∧ r.put? slot .blank = .ok r' := by
  unfold take? match?
  cases r.get? slot with
  | error e => simp [bind, Except.bind]
  | ok c =>
    cases r.put? slot .blank with
    | error e => simp [bind, Except.bind, pure, Except.pure]
    | ok r₁ => simp [bind, Except.bind, pure, Except.pure]

/-! ## Slots that are there

Where a slot is known to be there, reading and writing cannot break a rule of use. -/

section

variable {r : Registers π} {slot : Nat}

/-- Contents of a slot, blank if there is no such slot. -/
def content (r : Registers π) (slot : Nat) : Register π := r.slots.getD slot .blank

/-- The match in a slot, if there is one. -/
def matchAt (r : Registers π) (slot : Nat) : Option Value := (r.content slot).match?

/-- The registers with other contents of one slot. -/
def put (r : Registers π) (slot : Nat) (c : Register π) : Registers π :=
  ⟨r.slots.setIfInBounds slot c⟩

@[simp] theorem size_put (r : Registers π) (slot : Nat) (c : Register π) :
    (r.put slot c).size = r.size := by
  simp [put, size]

theorem content_put (h : slot < r.size) (c : Register π) (x : Nat) :
    (r.put slot c).content x = if x = slot then c else r.content x := by
  have hlt : slot < r.slots.size := h
  by_cases hx : x = slot
  · subst hx
    simp [content, put, hlt]
  · simp [content, put, hx, Ne.symm hx]

theorem matchAt_put (h : slot < r.size) (c : Register π) (x : Nat) :
    (r.put slot c).matchAt x = if x = slot then c.match? else r.matchAt x := by
  rw [matchAt, content_put h]
  split
  · rfl
  · rfl

/-- There is a match only where there is a slot. -/
theorem lt_of_content (h : r.content slot ≠ .blank) : slot < r.size := by
  refine Nat.lt_of_not_le fun hle => h ?_
  have hnone : r.slots[slot]? = none := Array.getElem?_eq_none hle
  rw [content, Array.getD_eq_getD_getElem?, hnone]
  rfl

theorem lt_of_matchAt {v : Value} (h : r.matchAt slot = some v) : slot < r.size := by
  refine lt_of_content fun hblank => ?_
  rw [matchAt, hblank] at h
  nomatch h

theorem get?_eq (h : slot < r.size) : r.get? slot = .ok (r.content slot) := by
  have hlt : slot < r.slots.size := h
  simp [get?, content, hlt]

theorem put?_eq (h : slot < r.size) (c : Register π) : r.put? slot c = .ok (r.put slot c) := by
  have hlt : slot < r.slots.size := h
  simp [put?, put, Array.setIfInBounds, hlt]

theorem match?_eq (h : slot < r.size) : r.match? slot = .ok (r.matchAt slot) := by
  rw [match?, get?_eq h]
  rfl

theorem isMatch?_eq (h : slot < r.size) : r.isMatch? slot = .ok (r.matchAt slot).isSome := by
  rw [isMatch?, match?_eq h]
  rfl

theorem value?_eq (h : slot < r.size) : r.value? slot = .ok ((r.matchAt slot).getD .null) := by
  rw [value?, match?_eq h]
  rfl

theorem take?_eq (h : slot < r.size) :
    r.take? slot = .ok (r.matchAt slot, r.put slot .blank) := by
  rw [take?, match?_eq h, put?_eq h]
  rfl

end

end Registers

end Packrat
