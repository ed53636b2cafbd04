import Packrat.Proofs.Tenure

/-!
# The contract of an operation

An operation that ends regularly either puts a match into its slot, and the cursor stands behind
what it consumed, or puts none there, and the cursor is back where it was. It resumes reporting as
often as it suspends it, and writes to no slots but those it touches. This module proves that of
every orderly operation, for runs with a memory and without.

Together with the contract goes whatever values say about the text they stand for. A relation of
texts and values is kept by a matcher (`Matcher.Describes`) if it holds of terminals, passes from
items to lists and survives the actions. It then holds of every match and the text between its two
cursors. The remembered results of rules are part of the invariant, since a hit in the memory moves
the cursor without running anything.

## Main results

* `Run.of_bind` to `Run.of_silently`: what a regular ending says about the steps of a run
* `eval_contract`: every orderly operation keeps the contract, if calls of rules do
* `call_contract`: calls of rules keep the contract
-/

namespace Packrat

/-! ### Regular endings -/

namespace Registers

variable {r r' : Registers Cursor} {slot : Nat} {c : Register Cursor}

theorem of_get? (h : r.get? slot = .ok c) : slot < r.size ∧ r.content slot = c := by
  have hlt : slot < r.size := by
    unfold get? at h
    split at h
    · next hget => exact (Array.getElem?_eq_some_iff.mp hget).1
    · nomatch h
  rw [get?_eq hlt] at h
  exact ⟨hlt, Except.ok.inj h⟩

theorem of_put? (h : r.put? slot c = .ok r') : slot < r.size ∧ r' = r.put slot c := by
  have hlt : slot < r.size := by
    unfold put? at h
    split at h
    · assumption
    · nomatch h
  rw [put?_eq hlt] at h
  exact ⟨hlt, (Except.ok.inj h).symm⟩

theorem of_match? {v : Option Value} (h : r.match? slot = .ok v) :
    slot < r.size ∧ r.matchAt slot = v := by
  obtain ⟨c, hget, heq⟩ := bind_eq_ok_iff.mp h
  obtain ⟨hlt, hcontent⟩ := of_get? hget
  rw [matchAt, hcontent]
  exact ⟨hlt, Except.ok.inj heq⟩

end Registers

namespace Run

variable {α β : Type} {fr fr' : Frame} {slot : Nat}

theorem of_bind {x : Run α} {f : α → Run β} {b : β} (h : (x >>= f) fr = .ok b fr') :
    ∃ a fr₁, x fr = .ok a fr₁ ∧ f a fr₁ = .ok b fr' := by
  rw [bind_apply] at h
  cases hx : x fr with
  | ok a fr₁ =>
    rw [hx] at h
    exact ⟨a, fr₁, rfl, h⟩
  | error e fr₁ =>
    rw [hx] at h
    nomatch h

theorem of_ofStep {x : Except Fault (α × Frame)} {a : α} (h : ofStep fr x = .ok a fr') :
    x = .ok (a, fr') := by
  cases x with
  | error f => nomatch h
  | ok p =>
    obtain ⟨rfl, rfl⟩ := EStateM.Result.ok.inj h
    rfl

theorem of_map {ε : Type} {x : Except ε α} {f : α → β} {b : β} (h : x.map f = .ok b) :
    ∃ a, x = .ok a ∧ f a = b := by
  cases x with
  | error e => nomatch h
  | ok a => exact ⟨a, rfl, Except.ok.inj h⟩

theorem of_savePlace (h : savePlace slot fr = .ok () fr') : slot < fr.registers.size ∧
    fr' = { fr with registers := fr.registers.put slot (.place fr.state.cursor) } := by
  rw [savePlace_apply] at h
  obtain ⟨r, hr, heq⟩ := of_map (of_ofStep h)
  obtain ⟨hlt, rfl⟩ := Registers.of_put? hr
  exact ⟨hlt, (Prod.mk.inj heq).2.symm⟩

theorem of_setOutcome {v : Option Value} (h : setOutcome slot v fr = .ok () fr') :
    slot < fr.registers.size ∧
      fr' = { fr with registers := fr.registers.put slot (.outcome v) } := by
  rw [setOutcome_apply] at h
  obtain ⟨r, hr, heq⟩ := of_map (of_ofStep h)
  obtain ⟨hlt, rfl⟩ := Registers.of_put? hr
  exact ⟨hlt, (Prod.mk.inj heq).2.symm⟩

theorem of_place {c : Cursor} (h : place slot fr = .ok c fr') :
    fr.registers.content slot = .place c ∧ fr = fr' := by
  rw [place_apply] at h
  obtain ⟨_, hr, heq⟩ := of_map (of_ofStep h)
  obtain ⟨rfl, rfl⟩ := Prod.mk.inj heq
  exact ⟨(Registers.of_get? (Registers.place?_eq_ok_iff.mp hr)).2, rfl⟩

/-- Something is read off an outcome slot. -/
theorem of_read {f : Option Value → α} {a : α}
    (h : ofStep fr ((fr.registers.match? slot >>= fun v => .ok (f v)).map fun a => (a, fr)) =
      .ok a fr') : f (fr.registers.matchAt slot) = a ∧ fr = fr' := by
  obtain ⟨_, hr, heq⟩ := of_map (of_ofStep h)
  obtain ⟨rfl, rfl⟩ := Prod.mk.inj heq
  obtain ⟨v, hv, heq⟩ := bind_eq_ok_iff.mp hr
  obtain ⟨-, rfl⟩ := Registers.of_match? hv
  exact ⟨Except.ok.inj heq, rfl⟩

theorem of_isMatch {b : Bool} (h : isMatch slot fr = .ok b fr') :
    (fr.registers.matchAt slot).isSome = b ∧ fr = fr' := by
  rw [isMatch_apply] at h
  exact of_read h

/-- A run that asks whether there is a match goes on in one of two ways. -/
theorem of_bind_isMatch {f : Bool → Run β} {b : β} (h : (isMatch slot >>= f) fr = .ok b fr') :
    (∃ v, fr.registers.matchAt slot = some v ∧ f true fr = .ok b fr') ∨
      fr.registers.matchAt slot = none ∧ f false fr = .ok b fr' := by
  obtain ⟨answer, _, hmatch, h⟩ := of_bind h
  obtain ⟨rfl, rfl⟩ := of_isMatch hmatch
  cases hv : fr.registers.matchAt slot with
  | some v => exact .inl ⟨v, rfl, by rwa [hv] at h⟩
  | none => exact .inr ⟨rfl, by rwa [hv] at h⟩

theorem of_value {v : Value} (h : value slot fr = .ok v fr') :
    (fr.registers.matchAt slot).getD .null = v ∧ fr = fr' := by
  rw [value_apply] at h
  exact of_read (f := fun v => v.getD .null) h

theorem of_values {slots : List Nat} {vs : List Value} (h : values slots fr = .ok vs fr') :
    (slots.map fun slot => (fr.registers.matchAt slot).getD .null) = vs ∧ fr = fr' := by
  induction slots generalizing vs fr' with
  | nil =>
    obtain ⟨rfl, rfl⟩ := EStateM.Result.ok.inj h
    exact ⟨rfl, rfl⟩
  | cons slot slots ih =>
    obtain ⟨v, _, hv, h⟩ := of_bind h
    obtain ⟨rfl, rfl⟩ := of_value hv
    obtain ⟨vs, _, hvs, h⟩ := of_bind h
    obtain ⟨rfl, rfl⟩ := ih hvs
    obtain ⟨rfl, rfl⟩ := EStateM.Result.ok.inj h
    exact ⟨rfl, rfl⟩

theorem of_take {v : Option Value} (h : take slot fr = .ok v fr') :
    slot < fr.registers.size ∧ fr.registers.matchAt slot = v ∧
      fr' = { fr with registers := fr.registers.put slot .blank } := by
  rw [take_apply] at h
  obtain ⟨⟨w, r⟩, hr, heq⟩ := of_map (of_ofStep h)
  obtain ⟨rfl, rfl⟩ := Prod.mk.inj heq
  obtain ⟨c, hget, rfl, hput⟩ := Registers.take?_eq_ok_iff.mp hr
  obtain ⟨hlt, rfl⟩ := Registers.of_get? hget
  obtain ⟨-, rfl⟩ := Registers.of_put? hput
  exact ⟨hlt, rfl, rfl⟩

theorem of_silently {x : Run Unit} (h : silently x fr = .ok () fr') :
    ∃ fr₁, x { fr with state := fr.state.suspend } = .ok () fr₁ ∧
      fr' = { fr₁ with state := fr₁.state.resume } := by
  obtain ⟨_, _, hsuspend, h⟩ := of_bind h
  obtain ⟨rfl, rfl⟩ := EStateM.Result.ok.inj hsuspend
  obtain ⟨_, fr₁, hx, h⟩ := of_bind h
  refine ⟨fr₁, hx, ?_⟩
  by_cases hzero : fr₁.state.suspended = 0
  · rw [resume_apply, State.resume?, if_pos hzero] at h
    cases h
  · rw [resume_of_suspended hzero] at h
    exact (EStateM.Result.ok.inj h).2.symm

end Run

/-! ### Texts between cursors -/

namespace Cursor

/-- The text `cs` stands between two cursors. -/
structure Between (c : Cursor) (cs : List Char) (d : Cursor) : Prop where
  ahead : c.ahead = cs ++ d.ahead
  position : d.position = c.position.advance cs

variable {c d e : Cursor} {cs ds : List Char}

theorem Between.refl (c : Cursor) : c.Between [] c := ⟨rfl, rfl⟩

theorem Between.eq (h : c.Between [] d) : d = c := by
  obtain ⟨position, ahead⟩ := c
  obtain ⟨position', ahead'⟩ := d
  exact Cursor.mk.injEq .. ▸ ⟨h.position, h.ahead.symm⟩

theorem Between.trans (h : c.Between cs d) (h' : d.Between ds e) : c.Between (cs ++ ds) e where
  ahead := by rw [h.ahead, h'.ahead, List.append_assoc]
  position := by rw [h'.position, h.position, Position.advance_append]

theorem between_skip (c : Cursor) (n : Nat) : c.Between (c.ahead.take n) (c.skip n) :=
  ⟨(List.take_append_drop n c.ahead).symm, rfl⟩

theorem Between.within {tracked : Bool} {text : List Char} (h : c.Between cs d)
    (hc : c.Within tracked text) : d.Within tracked text := by
  obtain ⟨passed, htext, hposition⟩ := hc
  refine ⟨passed ++ cs, ?_, ?_⟩
  · rw [htext, h.ahead, List.append_assoc]
  · rw [h.position, hposition, Position.advance_append]

end Cursor

/-- What a match or a failure says about the cursors around it, with `Q` for what values say about
texts. -/
def Consumes (Q : List Char → Value → Prop) (c : Cursor) (d : Cursor) : Option Value → Prop
  | none => d = c
  | some v => ∃ cs, c.Between cs d ∧ Q cs v

/-! ### What is kept -/

variable {tracked : Bool} {text : List Char} {Q : List Char → Value → Prop}

/-- The cursor stands in its text, and remembered results are those of matches and failures. -/
structure State.Consistent (tracked : Bool) (text : List Char) (Q : List Char → Value → Prop)
    (s : State) : Prop where
  within : s.cursor.Within tracked text
  memory (memory : Memory) : s.memory = some memory → ∀ (key : MemoKey) (entry : MemoEntry),
    memory[key]? = some entry → ∃ begun : Cursor, begun.Within tracked text ∧
      begun.offset = key.offset ∧ Consumes Q begun entry.after entry.result

namespace State.Consistent

variable {s : State}

theorem moveTo (h : s.Consistent tracked text Q) {c : Cursor} (hc : c.Within tracked text) :
    (s.moveTo c).Consistent tracked text Q := ⟨hc, h.memory⟩

theorem note (h : s.Consistent tracked text Q) (e : Event) :
    (s.note e).Consistent tracked text Q := ⟨h.within, h.memory⟩

theorem suspended (h : s.Consistent tracked text Q) (n : Nat) :
    ({ s with suspended := n } : State).Consistent tracked text Q := ⟨h.within, h.memory⟩

theorem failAt (h : s.Consistent tracked text Q) (place : Cursor) (d : String) :
    (s.failAt place d).Consistent tracked text Q := by
  refine ⟨?_, ?_⟩
  · rw [cursor_failAt]
    exact h.within
  · rw [memory_failAt]
    exact h.memory

theorem remember (h : s.Consistent tracked text Q) (rule : Nat) {begun : Cursor}
    {result : Option Value} (hbegun : begun.Within tracked text)
    (hresult : Consumes Q begun s.cursor result) :
    (s.remember rule begun result).Consistent tracked text Q := by
  refine ⟨h.within, ?_⟩
  intro memory hmemory key entry hentry
  obtain ⟨rfl, rfl⟩ | ⟨old, hold, hentry⟩ := State.entry_of_remember hmemory hentry
  · exact ⟨begun, hbegun, rfl, hresult⟩
  · exact h.memory old hold key entry hentry

end State.Consistent

/-- What holds behind a run that may have written to the slots in `touched`. -/
structure Fulfils (tracked : Bool) (text : List Char) (Q : List Char → Value → Prop)
    (touched : Nat → Prop) (fr fr' : Frame) : Prop where
  consistent : fr'.state.Consistent tracked text Q
  suspended : fr'.state.suspended = fr.state.suspended
  kept (slot : Nat) : ¬ touched slot → fr'.registers.content slot = fr.registers.content slot

namespace Fulfils

variable {touched touched' : Nat → Prop} {fr fr' fr'' : Frame}

theorem refl (h : fr.state.Consistent tracked text Q) : Fulfils tracked text Q touched fr fr :=
  ⟨h, rfl, fun _ _ => rfl⟩

theorem trans (h : Fulfils tracked text Q touched fr fr')
    (h' : Fulfils tracked text Q touched fr' fr'') : Fulfils tracked text Q touched fr fr'' :=
  ⟨h'.consistent, h'.suspended.trans h.suspended,
    fun slot hslot => (h'.kept slot hslot).trans (h.kept slot hslot)⟩

theorem mono (h : Fulfils tracked text Q touched fr fr')
    (hsub : ∀ slot, touched slot → touched' slot) : Fulfils tracked text Q touched' fr fr' :=
  ⟨h.consistent, h.suspended,
    fun slot hslot => h.kept slot fun htouched => hslot (hsub slot htouched)⟩

theorem put (h : Fulfils tracked text Q touched fr fr') {slot : Nat}
    (hlt : slot < fr'.registers.size) (hslot : touched slot) (c : Register Cursor) :
    Fulfils tracked text Q touched fr { fr' with registers := fr'.registers.put slot c } := by
  refine ⟨h.consistent, h.suspended, fun x hx => ?_⟩
  have hne : x ≠ slot := fun heq => hx (heq ▸ hslot)
  exact (Registers.content_put hlt c x).trans ((if_neg hne).trans (h.kept x hx))

theorem moveTo (h : Fulfils tracked text Q touched fr fr') {c : Cursor}
    (hc : c.Within tracked text) :
    Fulfils tracked text Q touched fr { fr' with state := fr'.state.moveTo c } :=
  ⟨h.consistent.moveTo hc, h.suspended, h.kept⟩

end Fulfils

/-! ### Code blocks -/

open Run

namespace Matcher

variable {m : Matcher} {fr fr' : Frame} {site : Nat} {slots : List Nat} {cx : Context}

theorem of_context {begun : Cursor} {matched : Value}
    (h : m.context site slots begun matched fr = .ok cx fr') :
    (∃ code, m.program.code[site]? = some code) ∧ cx.matched = matched ∧ fr = fr' := by
  unfold context at h
  cases hcode : m.program.code[site]? with
  | none =>
    rw [hcode] at h
    nomatch h
  | some code =>
    rw [hcode] at h
    obtain ⟨here, _, hcursor, h⟩ := of_bind h
    obtain ⟨rfl, rfl⟩ := EStateM.Result.ok.inj hcursor
    obtain ⟨vs, _, hvalues, h⟩ := of_bind h
    obtain ⟨-, rfl⟩ := of_values hvalues
    obtain ⟨rfl, rfl⟩ := EStateM.Result.ok.inj h
    exact ⟨⟨code, rfl⟩, rfl, rfl⟩

theorem of_callCode {α : Type} {handler : Handler α} {a : α}
    (h : callCode site cx handler fr = .ok a fr') :
    handler.run cx = .ok a ∧ fr' = { fr with state := fr.state.note (.called site cx) } := by
  obtain ⟨_, _, hnote, h⟩ := of_bind h
  obtain ⟨rfl, rfl⟩ := EStateM.Result.ok.inj hnote
  cases hrun : handler.run cx with
  | error text =>
    rw [hrun] at h
    nomatch h
  | ok b =>
    rw [hrun] at h
    obtain ⟨rfl, rfl⟩ := EStateM.Result.ok.inj h
    exact ⟨rfl, rfl⟩

theorem of_runAction {v : Value} (h : m.runAction site cx fr = .ok v fr') :
    ∃ handler, m.bindings[site]? = some (.action handler) ∧ handler.run cx = .ok v ∧
      fr' = { fr with state := fr.state.note (.called site cx) } := by
  unfold runAction at h
  rcases hbinding : m.bindings[site]? with _ | ⟨handler | handler⟩
  · rw [hbinding] at h
    nomatch h
  · rw [hbinding] at h
    obtain ⟨hrun, rfl⟩ := of_callCode h
    exact ⟨handler, rfl, hrun, rfl⟩
  · rw [hbinding] at h
    nomatch h

theorem of_runPredicate {b : Bool} (h : m.runPredicate site slots fr = .ok b fr') :
    ∃ cx, fr' = { fr with state := fr.state.note (.called site cx) } := by
  obtain ⟨here, _, hcursor, h⟩ := of_bind h
  obtain ⟨rfl, rfl⟩ := EStateM.Result.ok.inj hcursor
  obtain ⟨cx, _, hcontext, h⟩ := of_bind h
  obtain ⟨-, -, rfl⟩ := of_context hcontext
  rcases hbinding : m.bindings[site]? with _ | ⟨handler | handler⟩
  · rw [hbinding] at h
    nomatch h
  · rw [hbinding] at h
    nomatch h
  · rw [hbinding] at h
    exact ⟨cx, (of_callCode h).2⟩

/-- A call that ends regularly has found a result in the memory, or it has run the body of the rule
in registers of its own and stored what it found. -/
theorem of_call {n rule : Nat} {result : Option Value}
    (h : m.call (n + 1) rule fr = .ok result fr') :
    (∃ t, fr.state.lookUp rule = some (result, t) ∧ fr' = { fr with state := t }) ∨
      ∃ r fr₁, m.program.rules[rule]? = some r ∧
        m.eval (m.call n) n r.body ⟨fr.state.entering rule, .blank r.registers⟩ = .ok () fr₁ ∧
          fr₁.registers.matchAt r.body.result = result ∧
            fr' = ⟨fr₁.state.remember rule fr.state.cursor result, fr.registers⟩ := by
  obtain ⟨s, registers⟩ := fr
  cases hlook : s.lookUp rule with
  | some hit =>
    obtain ⟨found, t⟩ := hit
    rw [call_of_hit hlook] at h
    obtain ⟨rfl, rfl⟩ := EStateM.Result.ok.inj h
    exact .inl ⟨t, rfl, rfl⟩
  | none =>
    cases hr : m.program.rules[rule]? with
    | none =>
      rw [call_of_missing hlook hr] at h
      nomatch h
    | some r =>
      rw [call_of_miss hlook hr] at h
      obtain ⟨fr₁, hbody, rfl⟩ := Ending.after_eq_ok_iff.mp h
      obtain ⟨_, fr₂, heval, htake⟩ := of_bind hbody
      obtain ⟨-, hresult, rfl⟩ := of_take htake
      exact .inr ⟨r, fr₂, rfl, heval, hresult, rfl⟩

/-- A relation of texts and values that holds of terminals, passes from items to lists and survives
the actions of a matcher. -/
structure Describes (m : Matcher) (Q : List Char → Value → Prop) : Prop where
  text (cs : List Char) : Q cs (.str (String.ofList cs))
  list (parts : List (List Char × Value)) : (∀ part ∈ parts, Q part.1 part.2) →
    Q (parts.flatMap Prod.fst) (.arr (parts.map Prod.snd))
  action {i : Nat} {site : CodeSite} {h : Handler Value} : m.program.code[i]? = some site →
    m.bindings[i]? = some (.action h) → ∀ (cx : Context) (v : Value) (cs : List Char),
      h.run cx = .ok v → Q cs cx.matched → Q cs v

end Matcher

/-- A terminal takes text and gives it as its value, or fails where it stands. -/
def Takes (f : State → Option Value × State) : Prop :=
  ∀ s : State, (∃ n, f s =
      (some (.str (String.ofList (s.cursor.ahead.take n))), s.moveTo (s.cursor.skip n))) ∨
    ∃ place d, f s = (none, s.failAt place d)

theorem takes_literal (value : String) (ignoreCase : Bool) (d : String) :
    Takes (State.literal · value ignoreCase d) := by
  intro s
  dsimp only [State.literal]
  split
  · exact .inl ⟨_, rfl⟩
  · exact .inr ⟨_, _, rfl⟩

theorem takes_charValue (p : Char → Bool) (d : String) : Takes (State.charValue · p d) := by
  intro s
  cases hahead : s.cursor.ahead with
  | nil =>
    refine .inr ⟨s.cursor, d, ?_⟩
    simp only [State.charValue, State.charWhere, hahead]
    rfl
  | cons c rest =>
    by_cases hp : p c
    · refine .inl ⟨1, ?_⟩
      have hstep : s.cursor.step = s.cursor.skip 1 := by
        rw [Cursor.step, Cursor.skip, hahead]
        rfl
      simp only [State.charValue, State.charWhere, hahead, hp, if_true, hstep]
      rfl
    · refine .inr ⟨s.cursor, d, ?_⟩
      simp only [State.charValue, State.charWhere, hahead, hp]
      rfl

/-! ### Operations -/

section

variable (tracked text Q)

/-- What an operation leaves that may write to the slots in `touched` and whose outcome goes to
`r`. -/
structure Lands (touched : Nat → Prop) (r : Nat) (fr fr' : Frame) : Prop
    extends Fulfils tracked text Q touched fr fr' where
  consumes : Consumes Q fr.state.cursor fr'.state.cursor (fr'.registers.matchAt r)

variable (m : Matcher) (call : Nat → Run (Option Value)) (fuel : Nat)

/-- An operation that keeps the contract. -/
def Contract (o : Op) : Prop :=
  ∀ {fr fr' : Frame}, m.eval call fuel o fr = .ok () fr' → fr.state.Consistent tracked text Q →
    Lands tracked text Q o.Touches o.result fr fr'

/-- Calls of rules that keep the contract. -/
def CallContract : Prop :=
  ∀ {rule : Nat} {fr fr' : Frame} {result : Option Value}, call rule fr = .ok result fr' →
    fr.state.Consistent tracked text Q → Fulfils tracked text Q (fun _ => False) fr fr' ∧
      Consumes Q fr.state.cursor fr'.state.cursor result

end

theorem consumes_empty {m : Matcher} (hm : m.Describes Q) (c : Cursor) :
    Consumes Q c c (some .empty) := ⟨[], .refl c, hm.text []⟩

theorem consumes_emptyIf {m : Matcher} (hm : m.Describes Q) (c : Cursor) (b : Bool) :
    Consumes Q c c (emptyIf b) := by
  cases b with
  | false => rfl
  | true => exact consumes_empty hm c

theorem Consumes.within {c d : Cursor} {v : Option Value} (h : Consumes Q c d v)
    (hc : c.Within tracked text) : d.Within tracked text := by
  cases v with
  | none => exact (show d = c from h) ▸ hc
  | some v =>
    obtain ⟨cs, hbetween, -⟩ := h
    exact hbetween.within hc

section

variable {m : Matcher} {call : Nat → Run (Option Value)} {fuel : Nat} {r place site : Nat}
  {slots : List Nat} {body o : Op} {items : List Op} {touched : Nat → Prop} {fr fr₁ fr' : Frame}

theorem Op.touches_of_child {o c : Op} (hc : c ∈ o.children) (slot : Nat) (h : c.Touches slot) :
    o.Touches slot := touches_iff.mpr (.inr ⟨c, hc, h⟩)

/-- An outcome is put into its slot. -/
theorem Fulfils.lands {v : Option Value} (hfulfils : Fulfils tracked text Q touched fr fr₁)
    (hr : touched r) (hv : Consumes Q fr.state.cursor fr₁.state.cursor v)
    (h : setOutcome r v fr₁ = .ok () fr') : Lands tracked text Q touched r fr fr' := by
  obtain ⟨hlt, rfl⟩ := of_setOutcome h
  refine ⟨hfulfils.put hlt hr _, ?_⟩
  rwa [Registers.matchAt_put hlt, if_pos rfl]

/-- An outcome that consumes nothing is put into its slot, and the cursor goes back. -/
theorem Fulfils.lands_back {v : Option Value} (hfulfils : Fulfils tracked text Q touched fr fr₁)
    (hr : touched r) (hlt : r < fr₁.registers.size) (hfr : fr.state.Consistent tracked text Q)
    (hv : Consumes Q fr.state.cursor fr.state.cursor v) :
    Lands tracked text Q touched r fr
      ⟨fr₁.state.moveTo fr.state.cursor, fr₁.registers.put r (.outcome v)⟩ := by
  refine ⟨(hfulfils.put hlt hr _).moveTo hfr.within, ?_⟩
  rwa [Registers.matchAt_put hlt, if_pos rfl]

/-- A place that was kept is found again behind a run that does not touch its slot. -/
theorem Fulfils.content_place (hlt : place < fr.registers.size) (hplace : ¬ touched place)
    {c : Cursor} (h : Fulfils tracked text Q touched
      { fr with registers := fr.registers.put place (.place c) } fr') :
    fr'.registers.content place = .place c := by
  rw [h.kept place hplace]
  exact (Registers.content_put hlt ..).trans (if_pos rfl)

theorem contract_terminal {f : State → Option Value × State} (hm : m.Describes Q) (hf : Takes f)
    (hr : touched r) (h : (Run.step f >>= setOutcome r) fr = .ok () fr')
    (hfr : fr.state.Consistent tracked text Q) : Lands tracked text Q touched r fr fr' := by
  obtain ⟨v, fr₁, hstep, h⟩ := of_bind h
  rw [step_apply] at hstep
  rcases hf fr.state with ⟨n, heq⟩ | ⟨at_, d, heq⟩
  · rw [heq] at hstep
    obtain ⟨rfl, rfl⟩ := EStateM.Result.ok.inj hstep
    have hunmoved : Fulfils tracked text Q touched fr fr := .refl hfr
    have hmoved := hunmoved.moveTo (hfr.within.skip n)
    refine hmoved.lands hr ?_ h
    exact ⟨_, Cursor.between_skip _ n, hm.text _⟩
  · rw [heq] at hstep
    obtain ⟨rfl, rfl⟩ := EStateM.Result.ok.inj hstep
    have hfailed : Fulfils tracked text Q touched fr { fr with state := fr.state.failAt at_ d } :=
      ⟨hfr.failAt at_ d, State.suspended_failAt .., fun _ _ => rfl⟩
    refine hfailed.lands hr ?_ h
    exact State.cursor_failAt ..

theorem contract_optional (hm : m.Describes Q) (hresult : body.result = r)
    (ih : Contract tracked text Q m call fuel body) :
    Contract tracked text Q m call fuel (.optional r body) := by
  intro fr fr' h hfr
  rw [Matcher.eval] at h
  obtain ⟨_, fr₁, hbody, h⟩ := of_bind h
  obtain ⟨hfulfils, hconsumes⟩ := ih hbody hfr
  have hfulfils := hfulfils.mono (Op.touches_of_child (o := .optional r body) List.mem_cons_self)
  rw [hresult] at hconsumes
  obtain ⟨v, -, h⟩ | ⟨hv, h⟩ := of_bind_isMatch h
  · obtain ⟨-, rfl⟩ := EStateM.Result.ok.inj h
    exact ⟨hfulfils, hconsumes⟩
  · rw [hv] at hconsumes
    have hback : fr₁.state.cursor = fr.state.cursor := hconsumes
    exact hfulfils.lands (Op.touches_result _) (hback ▸ consumes_empty hm _) h

theorem contract_call (hcall : CallContract tracked text Q call) {rule : Nat} :
    Contract tracked text Q m call fuel (.call r rule) := by
  intro fr fr' h hfr
  rw [Matcher.eval] at h
  obtain ⟨result, fr₁, hresult, h⟩ := of_bind h
  obtain ⟨hfulfils, hconsumes⟩ := hcall hresult hfr
  exact (hfulfils.mono fun _ => False.elim).lands (Op.touches_result (.call r rule)) hconsumes h

theorem contract_predicate (hm : m.Describes Q) {negated : Bool} :
    Contract tracked text Q m call fuel (.predicate r negated site slots) := by
  intro fr fr' h hfr
  rw [Matcher.eval] at h
  obtain ⟨answer, fr₁, hanswer, h⟩ := of_bind h
  obtain ⟨cx, rfl⟩ := Matcher.of_runPredicate hanswer
  have hcalled : Fulfils tracked text Q (Op.Touches (.predicate r negated site slots)) fr
      { fr with state := fr.state.note (.called site cx) } := ⟨hfr.note _, rfl, fun _ _ => rfl⟩
  exact hcalled.lands (Op.touches_result _) (consumes_emptyIf hm _ _) h

/-- Under suspended reporting the contract is the same. -/
theorem Contract.silently (ih : Contract tracked text Q m call fuel body)
    (h : Run.silently (m.eval call fuel body) fr = .ok () fr')
    (hfr : fr.state.Consistent tracked text Q) :
    Lands tracked text Q body.Touches body.result fr fr' := by
  obtain ⟨fr₁, hbody, rfl⟩ := of_silently h
  obtain ⟨⟨hconsistent, hsuspended, hkept⟩, hconsumes⟩ := ih hbody (hfr.suspended _)
  refine ⟨⟨hconsistent.suspended _, ?_, hkept⟩, hconsumes⟩
  exact (congrArg (· - 1) hsuspended).trans (Nat.add_sub_cancel ..)

theorem contract_named {description : String} (hresult : body.result = r)
    (ih : Contract tracked text Q m call fuel body) :
    Contract tracked text Q m call fuel (.named r description body) := by
  intro fr fr' h hfr
  rw [Matcher.eval] at h
  obtain ⟨_, fr₁, hbody, h⟩ := of_bind h
  obtain ⟨hfulfils, hconsumes⟩ := ih.silently hbody hfr
  have hfulfils := hfulfils.mono
    (Op.touches_of_child (o := .named r description body) List.mem_cons_self)
  rw [hresult] at hconsumes
  obtain ⟨v, -, h⟩ | ⟨-, h⟩ := of_bind_isMatch h
  · obtain ⟨-, rfl⟩ := EStateM.Result.ok.inj h
    exact ⟨hfulfils, hconsumes⟩
  · obtain ⟨-, rfl⟩ := EStateM.Result.ok.inj h
    refine ⟨⟨hfulfils.consistent.failAt _ _, ?_, hfulfils.kept⟩, ?_⟩
    · exact (State.suspended_failAt ..).trans hfulfils.suspended
    · exact (State.cursor_failAt fr₁.state _ _).symm ▸ hconsumes

/-- What a body leaves in front of which the cursor was kept in a slot that it does not touch. -/
theorem Lands.behind_place (hlt : place < fr.registers.size) (hown : place ∈ o.ownSlots)
    (hbody : body ∈ o.children) (hplace : ¬ body.Touches place)
    (hfr : fr.state.Consistent tracked text Q)
    (h : Lands tracked text Q body.Touches body.result
      { fr with registers := fr.registers.put place (.place fr.state.cursor) } fr') :
    Lands tracked text Q o.Touches body.result fr fr' ∧
      fr'.registers.content place = .place fr.state.cursor := by
  have hunsaved : Fulfils tracked text Q o.Touches fr fr := .refl hfr
  have hsaved := hunsaved.put hlt
    (Op.touches_iff.mpr (.inl hown)) (.place fr.state.cursor)
  refine ⟨⟨hsaved.trans (h.toFulfils.mono (Op.touches_of_child hbody)), h.consumes⟩, ?_⟩
  exact h.toFulfils.content_place hlt hplace

/-- A lookahead keeps the contract, and the cursor is back even if its body has matched. -/
theorem lookahead_lands (hm : m.Describes Q) {negated : Bool} (hresult : body.result = r)
    (hplace : ¬ body.Touches place) (ih : Contract tracked text Q m call fuel body)
    (h : m.eval call fuel (.lookahead r place negated body) fr = .ok () fr')
    (hfr : fr.state.Consistent tracked text Q) :
    Lands tracked text Q (Op.lookahead r place negated body).Touches r fr fr' ∧
      fr'.state.cursor = fr.state.cursor := by
  rw [Matcher.eval] at h
  obtain ⟨_, _, hsave, h⟩ := of_bind h
  obtain ⟨hlt, rfl⟩ := of_savePlace hsave
  obtain ⟨_, fr₁, hbody, h⟩ := of_bind h
  obtain ⟨⟨hfulfils, hconsumes⟩, hbegun⟩ := (ih.silently hbody hfr).behind_place
    (o := .lookahead r place negated body) hlt (List.mem_cons_of_mem _ List.mem_cons_self)
    List.mem_cons_self hplace hfr
  rw [hresult] at hconsumes
  obtain ⟨v, -, h⟩ | ⟨hv, h⟩ := of_bind_isMatch h
  · obtain ⟨_, _, hset, h⟩ := of_bind h
    obtain ⟨hr, rfl⟩ := of_setOutcome hset
    obtain ⟨begun, _, hread, h⟩ := of_bind h
    obtain ⟨hcontent, rfl⟩ := of_place hread
    obtain ⟨-, rfl⟩ := EStateM.Result.ok.inj h
    have hne : place ≠ r := fun heq => hplace (heq ▸ hresult ▸ body.touches_result)
    have heq := (Registers.content_put hr _ place).symm.trans hcontent
    rw [if_neg hne, hbegun] at heq
    obtain rfl := Register.place.inj heq
    exact ⟨hfulfils.lands_back (Op.touches_result _) hr hfr (consumes_emptyIf hm _ _), rfl⟩
  · rw [hv] at hconsumes
    have hback : fr₁.state.cursor = fr.state.cursor := hconsumes
    refine ⟨hfulfils.lands (Op.touches_result _) (hback ▸ consumes_emptyIf hm _ _) h, ?_⟩
    obtain ⟨-, rfl⟩ := of_setOutcome h
    exact hback

theorem contract_action (hm : m.Describes Q) (hresult : body.result = r)
    (hplace : ¬ body.Touches place) (ih : Contract tracked text Q m call fuel body) :
    Contract tracked text Q m call fuel (.action r place site slots body) := by
  intro fr fr' h hfr
  rw [Matcher.eval] at h
  obtain ⟨_, _, hsave, h⟩ := of_bind h
  obtain ⟨hlt, rfl⟩ := of_savePlace hsave
  obtain ⟨_, fr₁, hbody, h⟩ := of_bind h
  obtain ⟨⟨hfulfils, hconsumes⟩, hbegun⟩ := (ih hbody hfr).behind_place
    (o := .action r place site slots body) hlt (List.mem_cons_of_mem _ List.mem_cons_self)
    List.mem_cons_self hplace hfr
  rw [hresult] at hconsumes
  obtain ⟨v, hv, h⟩ | ⟨-, h⟩ := of_bind_isMatch h
  · rw [hv] at hconsumes
    obtain ⟨cs, hbetween, hQ⟩ := hconsumes
    obtain ⟨begun, _, hread, h⟩ := of_bind h
    obtain ⟨hcontent, rfl⟩ := of_place hread
    obtain rfl := Register.place.inj (hbegun.symm.trans hcontent)
    obtain ⟨matched, _, hvalue, h⟩ := of_bind h
    obtain ⟨hmatched, rfl⟩ := of_value hvalue
    rw [hv] at hmatched
    obtain rfl : v = matched := hmatched
    obtain ⟨cx, _, hcontext, h⟩ := of_bind h
    obtain ⟨⟨code, hcode⟩, hmatched, rfl⟩ := Matcher.of_context hcontext
    obtain ⟨answer, _, hanswer, h⟩ := of_bind h
    obtain ⟨handler, hbinding, hrun, rfl⟩ := Matcher.of_runAction hanswer
    have hcalled : Fulfils tracked text Q (Op.Touches (.action r place site slots body)) fr
        { fr₁ with state := fr₁.state.note (.called site cx) } :=
      ⟨hfulfils.consistent.note _, hfulfils.suspended, hfulfils.kept⟩
    by_cases hnull : answer.isNull
    · rw [if_pos hnull] at h
      obtain ⟨_, _, hset, h⟩ := of_bind h
      obtain ⟨hr, rfl⟩ := of_setOutcome hset
      obtain ⟨-, rfl⟩ := EStateM.Result.ok.inj h
      exact hcalled.lands_back (Op.touches_result _) hr hfr rfl
    · rw [if_neg hnull] at h
      refine hcalled.lands (Op.touches_result _) ?_ h
      exact ⟨cs, hbetween, hm.action hcode hbinding cx answer cs hrun (hmatched ▸ hQ)⟩
  · obtain ⟨-, rfl⟩ := EStateM.Result.ok.inj h
    exact ⟨hfulfils, hconsumes⟩

/-- The outcome of the alternative that was tried last is in the slot of all of them. -/
theorem firstMatch_lands (ih : ∀ o ∈ items, Contract tracked text Q m call fuel o)
    (hresult : ∀ o ∈ items, o.result = r)
    (hitems : ∀ o ∈ items, ∀ slot, o.Touches slot → touched slot)
    (hnone : items = [] → fr.registers.matchAt r = none)
    (h : m.firstMatch call fuel r items fr = .ok () fr')
    (hfr : fr.state.Consistent tracked text Q) : Lands tracked text Q touched r fr fr' := by
  induction items generalizing fr with
  | nil =>
    rw [Matcher.firstMatch] at h
    obtain ⟨-, rfl⟩ := EStateM.Result.ok.inj h
    refine ⟨.refl hfr, ?_⟩
    rw [hnone rfl]
    rfl
  | cons o os ihos =>
    rw [Matcher.firstMatch] at h
    obtain ⟨_, fr₁, hfirst, h⟩ := of_bind h
    obtain ⟨hfulfils, hconsumes⟩ := ih o List.mem_cons_self hfirst hfr
    have hfulfils := hfulfils.mono (hitems o List.mem_cons_self)
    rw [hresult o List.mem_cons_self] at hconsumes
    obtain ⟨v, -, h⟩ | ⟨hv, h⟩ := of_bind_isMatch h
    · obtain ⟨-, rfl⟩ := EStateM.Result.ok.inj h
      exact ⟨hfulfils, hconsumes⟩
    · rw [hv] at hconsumes
      obtain ⟨hrest, hlast⟩ := ihos (fun o ho => ih o (List.mem_cons_of_mem _ ho))
        (fun o ho => hresult o (List.mem_cons_of_mem _ ho))
        (fun o ho => hitems o (List.mem_cons_of_mem _ ho)) (fun _ => hv) h hfulfils.consistent
      have hback : fr₁.state.cursor = fr.state.cursor := hconsumes
      exact ⟨hfulfils.trans hrest, hback ▸ hlast⟩

theorem contract_choice (hitems : items ≠ []) (hresult : ∀ o ∈ items, o.result = r)
    (ih : ∀ o ∈ items, Contract tracked text Q m call fuel o) :
    Contract tracked text Q m call fuel (.choice r items) := by
  intro fr fr' h hfr
  rw [Matcher.eval] at h
  exact firstMatch_lands ih hresult (fun o ho => Op.touches_of_child (o := .choice r items) ho)
    (absurd · hitems) h hfr

/-- The values of consecutive texts between two cursors. -/
structure Spells (Q : List Char → Value → Prop) (c : Cursor) (parts : List (List Char × Value))
    (d : Cursor) : Prop where
  holds : ∀ part ∈ parts, Q part.1 part.2
  between : c.Between (parts.flatMap Prod.fst) d

theorem Spells.nil (c : Cursor) : Spells Q c [] c := ⟨nofun, .refl c⟩

theorem Spells.cons {c d e : Cursor} {cs : List Char} {v : Value} {parts : List (List Char × Value)}
    (hv : Q cs v) (hbetween : c.Between cs d) (h : Spells Q d parts e) :
    Spells Q c ((cs, v) :: parts) e :=
  ⟨List.forall_mem_cons.mpr ⟨hv, h.holds⟩, hbetween.trans h.between⟩

/-- The outcomes of elements that have matched stay where they are while later elements run. -/
theorem allMatch_spells (ih : ∀ o ∈ items, Contract tracked text Q m call fuel o)
    (hpairwise : items.Pairwise fun o later => ¬ later.Touches o.result) {b : Bool}
    (h : m.allMatch call fuel items fr = .ok b fr') (hfr : fr.state.Consistent tracked text Q) :
    Fulfils tracked text Q (fun slot => ∃ o ∈ items, o.Touches slot) fr fr' ∧
      (b = true → ∃ parts, Spells Q fr.state.cursor parts fr'.state.cursor ∧
        items.map (fun o => fr'.registers.matchAt o.result) =
          parts.map fun part => some part.2) := by
  induction items generalizing fr with
  | nil =>
    rw [Matcher.allMatch] at h
    obtain ⟨rfl, rfl⟩ := EStateM.Result.ok.inj h
    exact ⟨.refl hfr, fun _ => ⟨[], .nil _, rfl⟩⟩
  | cons o os ihos =>
    obtain ⟨hlater, hpairwise⟩ := List.pairwise_cons.mp hpairwise
    rw [Matcher.allMatch] at h
    obtain ⟨_, fr₁, hfirst, h⟩ := of_bind h
    obtain ⟨hfulfils, hconsumes⟩ := ih o List.mem_cons_self hfirst hfr
    have hfulfils : Fulfils tracked text Q (fun slot => ∃ x ∈ o :: os, x.Touches slot) fr fr₁ :=
      hfulfils.mono fun slot hslot => ⟨o, List.mem_cons_self, hslot⟩
    obtain ⟨v, hv, h⟩ | ⟨-, h⟩ := of_bind_isMatch h
    · rw [hv] at hconsumes
      obtain ⟨cs, hbetween, hQ⟩ := hconsumes
      obtain ⟨hrest, hparts⟩ := ihos (fun o ho => ih o (List.mem_cons_of_mem _ ho))
        hpairwise h hfulfils.consistent
      refine ⟨hfulfils.trans (hrest.mono fun slot hslot =>
        hslot.imp fun x hx => ⟨List.mem_cons_of_mem _ hx.1, hx.2⟩), fun hb => ?_⟩
      obtain ⟨parts, hspells, hvalues⟩ := hparts hb
      have huntouched : ¬ ∃ x ∈ os, x.Touches o.result := by
        rintro ⟨x, hx, hslot⟩
        exact hlater x hx hslot
      have hkept : fr'.registers.matchAt o.result = some v := by
        rw [Registers.matchAt, hrest.kept _ huntouched]
        exact hv
      exact ⟨(cs, v) :: parts, hspells.cons hQ hbetween, List.cons_eq_cons.mpr ⟨hkept, hvalues⟩⟩
    · obtain ⟨rfl, rfl⟩ := EStateM.Result.ok.inj h
      exact ⟨hfulfils, by rintro ⟨⟩⟩

theorem contract_sequence (hm : m.Describes Q) (hne : r ≠ place)
    (hplace : ∀ o ∈ items, ¬ o.Touches place)
    (hpairwise : items.Pairwise fun o later => ¬ later.Touches o.result)
    (ih : ∀ o ∈ items, Contract tracked text Q m call fuel o) :
    Contract tracked text Q m call fuel (.sequence r place items) := by
  intro fr fr' h hfr
  rw [Matcher.eval] at h
  obtain ⟨_, _, hsave, h⟩ := of_bind h
  obtain ⟨hlt, rfl⟩ := of_savePlace hsave
  obtain ⟨b, fr₁, hall, h⟩ := of_bind h
  obtain ⟨hfulfils, hparts⟩ := allMatch_spells ih hpairwise hall hfr
  have hbegun := hfulfils.content_place hlt (by
    rintro ⟨o, ho, hslot⟩
    exact hplace o ho hslot)
  have hunsaved : Fulfils tracked text Q (Op.sequence r place items).Touches fr fr := .refl hfr
  have hsaved := hunsaved.put hlt
    (Op.touches_iff.mpr (.inl (List.mem_cons_of_mem _ List.mem_cons_self)))
    (.place fr.state.cursor)
  have hfulfils := hsaved.trans (hfulfils.mono fun slot hslot => by
    obtain ⟨o, ho, hslot⟩ := hslot
    exact Op.touches_of_child (o := .sequence r place items) ho slot hslot)
  cases b with
  | false =>
    obtain ⟨_, _, hset, h⟩ := of_bind h
    obtain ⟨hr, rfl⟩ := of_setOutcome hset
    obtain ⟨begun, _, hread, h⟩ := of_bind h
    obtain ⟨hcontent, rfl⟩ := of_place hread
    obtain ⟨-, rfl⟩ := EStateM.Result.ok.inj h
    have heq := (Registers.content_put hr _ place).symm.trans hcontent
    rw [if_neg hne.symm, hbegun] at heq
    obtain rfl := Register.place.inj heq
    exact hfulfils.lands_back (Op.touches_result _) hr hfr rfl
  | true =>
    obtain ⟨parts, hspells, hmatches⟩ := hparts rfl
    obtain ⟨vs, _, hread, h⟩ := of_bind h
    obtain ⟨hvalues, rfl⟩ := of_values hread
    have hvs : vs = parts.map Prod.snd := by
      have hgot := congrArg (List.map fun v : Option Value => v.getD .null) hmatches
      rw [List.map_map, List.map_map] at hgot
      rw [List.map_map] at hvalues
      exact hvalues.symm.trans hgot
    refine hfulfils.lands (Op.touches_result _) ?_ h
    exact ⟨_, hspells.between, hvs ▸ hm.list parts hspells.holds⟩

/-- The items of a repetition are what its passes consume. -/
theorem collect_spells (ih : Contract tracked text Q m call fuel body) {count : Nat}
    {vs : List Value}
    (h : Matcher.collect (m.eval call fuel body) body.result count fr = .ok vs fr')
    (hfr : fr.state.Consistent tracked text Q) :
    Fulfils tracked text Q body.Touches fr fr' ∧
      ∃ parts, Spells Q fr.state.cursor parts fr'.state.cursor ∧ vs = parts.map Prod.snd := by
  induction count generalizing fr vs with
  | zero =>
    rw [Matcher.collect] at h
    nomatch h
  | succ count ihcount =>
    rw [Matcher.collect] at h
    obtain ⟨before, _, hcursor, h⟩ := of_bind h
    obtain ⟨rfl, rfl⟩ := EStateM.Result.ok.inj hcursor
    obtain ⟨_, fr₁, hbody, h⟩ := of_bind h
    obtain ⟨hfulfils, hconsumes⟩ := ih hbody hfr
    obtain ⟨taken, _, htake, h⟩ := of_bind h
    obtain ⟨hlt, htaken, rfl⟩ := of_take htake
    rw [htaken] at hconsumes
    have hfulfils := hfulfils.put hlt body.touches_result .blank
    cases taken with
    | none =>
      obtain ⟨rfl, rfl⟩ := EStateM.Result.ok.inj h
      have hback : fr₁.state.cursor = fr.state.cursor := hconsumes
      exact ⟨hfulfils, [], hback ▸ .nil _, rfl⟩
    | some item =>
      obtain ⟨cs, hbetween, hQ⟩ := hconsumes
      obtain ⟨after, _, hcursor, h⟩ := of_bind h
      obtain ⟨rfl, rfl⟩ := EStateM.Result.ok.inj hcursor
      split at h
      · obtain ⟨rfl, rfl⟩ := EStateM.Result.ok.inj h
        exact ⟨hfulfils, [(cs, item)], (Spells.nil _).cons hQ hbetween, rfl⟩
      · obtain ⟨rest, _, hrest, h⟩ := of_bind h
        obtain ⟨rfl, rfl⟩ := EStateM.Result.ok.inj h
        obtain ⟨hfulfils', parts, hspells, rfl⟩ := ihcount hrest hfulfils.consistent
        exact ⟨hfulfils.trans hfulfils', (cs, item) :: parts, hspells.cons hQ hbetween, rfl⟩

theorem contract_repeated (hm : m.Describes Q) {nonempty : Bool}
    (ih : Contract tracked text Q m call fuel body) :
    Contract tracked text Q m call fuel (.repeated r nonempty body) := by
  intro fr fr' h hfr
  rw [Matcher.eval] at h
  obtain ⟨vs, fr₁, hcollect, h⟩ := of_bind h
  obtain ⟨hfulfils, parts, hspells, rfl⟩ := collect_spells ih hcollect hfr
  have hfulfils := hfulfils.mono
    (Op.touches_of_child (o := .repeated r nonempty body) List.mem_cons_self)
  refine hfulfils.lands (Op.touches_result _) ?_ h
  split
  · next hempty =>
    obtain ⟨-, hempty⟩ := Bool.and_eq_true_iff.mp hempty
    obtain rfl := List.map_eq_nil_iff.mp (List.isEmpty_iff.mp hempty)
    exact hspells.between.eq
  · exact ⟨_, hspells.between, hm.list parts hspells.holds⟩

/-- Every orderly operation keeps the contract, if calls of rules do. -/
theorem eval_contract (hm : m.Describes Q) (hcall : CallContract tracked text Q call) (o : Op)
    (ho : o.Orderly) : Contract tracked text Q m call fuel o := by
  induction o using Op.inductionOn with
  | named r d body ih => exact contract_named ho.guarded (ih (ho.child List.mem_cons_self))
  | choice r items ih =>
    obtain ⟨hitems, hresult⟩ := ho.guarded
    exact contract_choice hitems hresult fun o hmem => ih o hmem (ho.child hmem)
  | action r place site slots body ih =>
    obtain ⟨hresult, hplace⟩ := ho.guarded
    exact contract_action hm hresult hplace (ih (ho.child List.mem_cons_self))
  | sequence r place items ih =>
    obtain ⟨hne, hplace, hpairwise⟩ := ho.guarded
    exact contract_sequence hm hne hplace hpairwise fun o hmem => ih o hmem (ho.child hmem)
  | lookahead r place negated body ih =>
    obtain ⟨hresult, hplace⟩ := ho.guarded
    intro fr fr' h hfr
    exact (lookahead_lands hm hresult hplace (ih (ho.child List.mem_cons_self)) h hfr).1
  | predicate r negated site slots => exact contract_predicate hm
  | optional r body ih => exact contract_optional hm ho.guarded (ih (ho.child List.mem_cons_self))
  | repeated r nonempty body ih => exact contract_repeated hm (ih (ho.child List.mem_cons_self))
  | call r rule => exact contract_call hcall
  | literal r value ignoreCase d =>
    intro fr fr' h hfr
    rw [Matcher.eval] at h
    exact contract_terminal hm (takes_literal value ignoreCase d) (Op.touches_result _) h hfr
  | charClass r members d =>
    intro fr fr' h hfr
    rw [Matcher.eval] at h
    exact contract_terminal hm (takes_charValue members.accepts d) (Op.touches_result _) h hfr
  | any r =>
    intro fr fr' h hfr
    rw [Matcher.eval] at h
    exact contract_terminal hm (takes_charValue _ _) (Op.touches_result _) h hfr

end

/-! ### Rules -/

/-- All rules of a program are orderly. -/
def Program.Orderly (p : Program) : Prop :=
  ∀ (i : Nat) (r : RuleProgram), p.rules[i]? = some r → r.body.Orderly

/-- The registers of a rule are its own. -/
theorem call_contract {m : Matcher} (hm : m.Describes Q) (hp : m.program.Orderly) (fuel : Nat) :
    CallContract tracked text Q (m.call fuel) := by
  induction fuel with
  | zero => exact fun h => nomatch h
  | succ fuel ih =>
    intro rule fr fr' result h hfr
    obtain ⟨t, hlook, rfl⟩ | ⟨r, fr₁, hr, heval, rfl, rfl⟩ := Matcher.of_call h
    · obtain ⟨memory, entry, hmemory, hentry, rfl, rfl⟩ := State.lookUp_eq_some_iff.mp hlook
      obtain ⟨begun, hbegun, hoffset, hconsumes⟩ := hfr.memory memory hmemory _ entry hentry
      obtain rfl := hbegun.eq_of_offset hfr.within hoffset
      exact ⟨⟨hfr.moveTo (hconsumes.within hfr.within), rfl, fun _ _ => rfl⟩, hconsumes⟩
    · have hentered : (fr.state.entering rule).Consistent tracked text Q := hfr.note _
      obtain ⟨hfulfils, hconsumes⟩ := eval_contract hm ih r.body (hp rule r hr) heval hentered
      have hremembered := hfulfils.consistent.remember rule hfr.within hconsumes
      exact ⟨⟨hremembered, hfulfils.suspended, fun _ _ => rfl⟩, hconsumes⟩

end Packrat
