import Packrat.Proofs.Holders
import Packrat.Proofs.Lowering
import Packrat.Proofs.Mirror

/-!
# Slots hold what they should

The outcome of an expression, the place to go back to and the values of labels live in slots that
are handed out again and again. Whether a value is still there when it is read is a question of who
may have written to its slot in between, and the answer has two halves. The accounts of the pool say
that an expression acquires only slots that nobody holds. The run of the expression writes only to
its own outcome slot and to slots it acquired. So what is owned by the expressions around it stays
(`Intact.kept`), and labels in view keep their values (`Intact.bound`).

Labels are the delicate part. A label of the innermost scope may be bound again by the expression,
which gives up the slot it had; so of the innermost scope nothing is said unless the expression
matched, and then its labels stand for the values that the environment of the parse has for them
(`Settled.inner`). That is enough, since every expression that goes on after a failure has opened
a scope around it.

## Main results

* `Settled.within`: an outcome that leaves the labels as they are
* `Faithful`: the operation of an expression mirrors its meaning
-/

namespace Packrat

/-! ### Labels and values -/

/-- The slots of the labels hold the values that the environment has for them, none of them
`null`. -/
structure Bound (scopes : List (Scope Nat)) (regs : Registers Cursor) (env : List (Scope Value)) :
    Prop where
  values : scopes.map (Scope.mapSnd regs.matchAt) = env.map (Scope.mapSnd some)
  clean (scope : Scope Value) : scope ∈ env → ∀ label ∈ scope, label.2 ≠ .null

section

variable {scopes : List (Scope Nat)} {regs regs' : Registers Cursor} {env : List (Scope Value)}

theorem Bound.tail (h : Bound scopes regs env) : Bound scopes.tail regs env.tail := by
  refine ⟨?_, fun scope hscope => h.clean scope (List.mem_of_mem_tail hscope)⟩
  rw [List.map_tail, List.map_tail, h.values]

theorem Bound.openScope (h : Bound scopes regs env) : Bound ([] :: scopes) regs ([] :: env) := by
  refine ⟨congrArg ([] :: ·) h.values, ?_⟩
  intro scope hscope
  rcases List.mem_cons.mp hscope with rfl | hscope
  · nofun
  · exact h.clean scope hscope

/-- Only the slots of the labels matter. -/
theorem Bound.congr (h : Bound scopes regs env)
    (hsame : ∀ slot ∈ scopes.flatten.map Prod.snd, regs'.matchAt slot = regs.matchAt slot) :
    Bound scopes regs' env := by
  refine ⟨?_, h.clean⟩
  rw [← h.values]
  refine List.map_congr_left fun scope hscope => List.map_congr_left fun label hlabel => ?_
  have hmem : label.2 ∈ scopes.flatten.map Prod.snd :=
    List.mem_map_of_mem (List.mem_flatten_of_mem hscope hlabel)
  rw [Prod.map, Prod.map, hsame _ hmem]

/-- A slot that stands for no label may be written to. -/
theorem Bound.put (h : Bound scopes regs env) {slot : Nat} (hlt : slot < regs.size)
    (hfree : slot ∉ scopes.flatten.map Prod.snd) (c : Register Cursor) :
    Bound scopes (regs.put slot c) env := by
  refine h.congr fun x hx => ?_
  rw [Registers.matchAt_put hlt, if_neg (ne_of_mem_of_not_mem hx hfree)]

theorem Bound.bindLabel {scope : Scope Nat} (h : Bound (scope :: scopes) regs env) (label : String)
    {slot : Nat} {v : Value} (hslot : regs.matchAt slot = some v) (hv : v ≠ .null) :
    Bound (scope.rebind label slot :: scopes) regs (Packrat.bindLabel label v env) := by
  have hvalues := h.values
  cases env with
  | nil => nomatch hvalues
  | cons labels outer =>
    obtain ⟨hhead, houter⟩ := List.cons.inj hvalues
    refine ⟨?_, ?_⟩
    · rw [Packrat.bindLabel, List.map_cons, List.map_cons, ← Scope.rebind_mapSnd,
        ← Scope.rebind_mapSnd, hslot, hhead, houter]
    · intro other hother entry hentry
      rcases List.mem_cons.mp hother with rfl | hother
      · rcases Scope.mem_of_mem_rebind hentry with heq | ⟨old, hold, heq⟩
        · rwa [heq]
        · exact heq ▸ h.clean labels List.mem_cons_self old hold
      · exact h.clean other (List.mem_cons_of_mem _ hother) entry hentry

/-- What the slots of the labels in view hold is what the environment has in view. -/
theorem Bound.inView (h : Bound scopes regs env) :
    (Scope.inView scopes).mapSnd (fun slot => (regs.matchAt slot).getD .null) =
      Scope.inView env := by
  have hsome : (Scope.inView scopes).mapSnd regs.matchAt = (Scope.inView env).mapSnd some := by
    rw [← Scope.inView_map, h.values, Scope.inView_map]
  calc (Scope.inView scopes).mapSnd (fun slot => (regs.matchAt slot).getD .null)
      = ((Scope.inView scopes).mapSnd regs.matchAt).mapSnd (·.getD .null) := by
        simp [Scope.mapSnd, Function.comp_def, Prod.map]
    _ = ((Scope.inView env).mapSnd some).mapSnd (·.getD .null) := by rw [hsome]
    _ = Scope.inView env := by simp [Scope.mapSnd, Function.comp_def, Prod.map]

theorem Bound.clean_inView (h : Bound scopes regs env) :
    ∀ label ∈ Scope.inView env, label.2 ≠ .null := by
  intro label hlabel
  obtain ⟨scope, hscope, old, hold, heq⟩ := Scope.mem_of_mem_inView hlabel
  exact heq ▸ h.clean scope hscope old hold

end

/-! ### What is live -/

section

variable {owned : List Nat} {r : Nat} {p q : Pool} {scopes : List (Scope Nat)}
  {env : List (Scope Value)} {regs regs' regs'' : Registers Cursor}

/-- What an expression finds whose outcome goes to `r`: its slot is owned by someone and stands for
no label in view. -/
structure Ready (owned : List Nat) (r : Nat) (p : Pool) (env : List (Scope Value))
    (regs : Registers Cursor) : Prop where
  accounts : p.Accounts owned
  owned : r ∈ owned
  free : r ∉ p.labelSlots
  bound : Bound p.scopes regs env

/-- What is live is as it was: owned slots other than `r`, and the labels in view. -/
structure Intact (owned : List Nat) (r : Nat) (scopes : List (Scope Nat)) (env : List (Scope Value))
    (regs regs' : Registers Cursor) : Prop where
  size : regs'.size = regs.size
  kept (slot : Nat) : slot ∈ owned → slot ≠ r → regs'.content slot = regs.content slot
  bound : Bound scopes regs' env

/-- What an expression leaves that was begun with the pool `p` and ended with the pool `q`. -/
structure Settled (owned : List Nat) (r : Nat) (p q : Pool) (env : List (Scope Value))
    (regs : Registers Cursor) (hit : Hit) (regs' : Registers Cursor) : Prop where
  size : regs'.size = regs.size
  kept (slot : Nat) : slot ∈ owned → slot ≠ r → regs'.content slot = regs.content slot
  outcome : regs'.matchAt r = hit.map Prod.fst
  outer : Bound p.scopes.tail regs' env.tail
  inner (v : Value) (env' : List (Scope Value)) : hit = some (v, env') →
    v ≠ .null ∧ Bound q.scopes regs' env' ∧ env'.tail = env.tail

theorem Ready.lt (h : Ready owned r p env regs) (hsize : p.holders.length ≤ regs.size) :
    r < regs.size := Nat.lt_of_lt_of_le (h.accounts.lt h.owned) hsize

theorem Ready.intact (h : Ready owned r p env regs) : Intact owned r p.scopes env regs regs :=
  ⟨rfl, fun _ _ _ => rfl, h.bound⟩

theorem Ready.openScope (h : Ready owned r p env regs) :
    Ready owned r p.openScope ([] :: env) regs :=
  ⟨h.accounts.openScope, h.owned, h.free, h.bound.openScope⟩

/-- An expression that comes later finds what is still live. -/
theorem Ready.of_intact (h : Ready owned r p env regs) (h' : Intact owned r p.scopes env regs regs')
    (hq : q.Accounts owned) (hscopes : q.scopes = p.scopes) : Ready owned r q env regs' := by
  refine ⟨hq, h.owned, ?_, hscopes ▸ h'.bound⟩
  rw [Pool.labelSlots, hscopes]
  exact h.free

theorem Intact.trans (h : Intact owned r scopes env regs regs')
    (h' : Intact owned r scopes env regs' regs'') : Intact owned r scopes env regs regs'' := by
  refine ⟨h'.size.trans h.size, ?_, h'.bound⟩
  intro slot howned hne
  rw [h'.kept slot howned hne, h.kept slot howned hne]

/-- The outcome slot may be written to as long as it stands for no label. -/
theorem Intact.put (h : Intact owned r scopes env regs regs') (hr : r < regs'.size)
    (hfree : r ∉ scopes.flatten.map Prod.snd) (c : Register Cursor) :
    Intact owned r scopes env regs (regs'.put r c) := by
  refine ⟨(Registers.size_put ..).trans h.size, ?_, h.bound.put hr hfree c⟩
  intro slot howned hne
  rw [Registers.content_put hr, if_neg hne, h.kept slot howned hne]

/-- Whether or not the body of a scope matched, what was live around the scope still is. -/
theorem Settled.intact {hit : Hit} (h : Settled owned r p.openScope q ([] :: env) regs hit regs') :
    Intact owned r p.scopes env regs regs' := ⟨h.size, h.kept, h.outer⟩

/-- An outcome that leaves the labels as they are. -/
theorem Settled.within (h : Intact owned r p.scopes env regs regs') {v : Option Value}
    (houtcome : regs'.matchAt r = v) (hv : v ≠ some .null) (hscopes : q.scopes = p.scopes) :
    Settled owned r p q env regs (Hit.within env v) regs' := by
  refine ⟨h.size, h.kept, ?_, h.bound.tail, ?_⟩
  · rw [houtcome]
    cases v <;> rfl
  · intro w env' heq
    cases v with
    | none => nomatch heq
    | some v =>
      obtain ⟨rfl, rfl⟩ := Prod.mk.inj (Option.some.inj heq)
      exact ⟨fun h => hv (congrArg some h), hscopes ▸ h.bound, rfl⟩

/-- A value put into the outcome slot. -/
theorem Settled.put (h : Intact owned r p.scopes env regs regs') (hr : r < regs'.size)
    (hfree : r ∉ p.labelSlots) {v : Option Value} (hv : v ≠ some .null)
    (hscopes : q.scopes = p.scopes) :
    Settled owned r p q env regs (Hit.within env v) (regs'.put r (.outcome v)) := by
  refine .within (h.put hr hfree _) ?_ hv hscopes
  rw [Registers.matchAt_put hr, if_pos rfl]
  rfl

/-- The slots of labels in view are slots of the pool. -/
theorem Pool.Accounts.lt_inView (h : p.Accounts owned) {slot : Nat}
    (hslot : slot ∈ p.inView.map Prod.snd) : slot < p.holders.length := by
  obtain ⟨label, hlabel, rfl⟩ := List.mem_map.mp hslot
  obtain ⟨scope, hscope, old, hold, heq⟩ := Scope.mem_of_mem_inView hlabel
  have hmem : label.2 ∈ p.labelSlots :=
    List.mem_map.mpr ⟨old, List.mem_flatten_of_mem hscope hold, heq⟩
  refine Pool.lt_of_held ?_
  have hcount : 0 < p.labelSlots.count label.2 := List.count_pos_iff.mpr hmem
  have hheld := h.held label.2
  omega

/-- A code block sees the labels in view with the values that the environment has for them. -/
theorem context_ofMatch {m : Matcher} {site : Nat} {kind : CodeKind} {code : String}
    (haccounts : p.Accounts owned) (hbound : Bound p.scopes regs env)
    (hsize : p.holders.length ≤ regs.size)
    (hsite : m.program.code[site]? = some ⟨kind, code, p.inView.map Prod.fst⟩) (begun : Cursor)
    (v : Value) (s : State) : m.context site (p.inView.map Prod.snd) begun v ⟨s, regs⟩ =
      .ok (Context.ofMatch (Scope.inView env) begun s.cursor v) ⟨s, regs⟩ := by
  have hvalues := values_matchAt
    (fun slot hslot => Nat.lt_of_lt_of_le (haccounts.lt_inView hslot) hsize) s
  have hlabels : (p.inView.map Prod.fst).zip ((p.inView.map Prod.snd).map fun slot =>
      (regs.matchAt slot).getD .null) = Scope.inView env := by
    rw [← hbound.inView, List.map_map, List.zip_map']
    rfl
  unfold Matcher.context
  rw [hsite]
  change (Run.cursor >>= _) ⟨s, regs⟩ = _
  rw [Run.bind_of_ok (Run.cursor_apply _), Run.bind_of_ok hvalues, hlabels]
  rfl

/-! ### Acquired slots -/

/-- The place to go back to is kept in a slot of its own. -/
theorem Ready.place (h : Ready owned r p env regs) (hlt : p.acquire.1 < regs.size)
    (c : Register Cursor) :
    Ready (p.acquire.1 :: owned) r p.acquire.2 env (regs.put p.acquire.1 c) := by
  obtain ⟨-, -, -, hscopes, -⟩ := p.acquire_spec
  refine ⟨h.accounts.acquire, List.mem_cons_of_mem _ h.owned, ?_, ?_⟩
  · rw [Pool.labelSlots, hscopes]
    exact h.free
  · rw [hscopes]
    exact h.bound.put hlt h.accounts.fresh.2 c

/-- An acquired slot takes the outcome of another expression. -/
theorem Ready.acquire (h : Ready owned r p env regs) :
    Ready (p.acquire.1 :: owned) p.acquire.1 p.acquire.2 env regs := by
  obtain ⟨-, -, -, hscopes, -⟩ := p.acquire_spec
  refine ⟨h.accounts.acquire, List.mem_cons_self, ?_, ?_⟩
  · rw [Pool.labelSlots, hscopes]
    exact h.accounts.fresh.2
  · rw [hscopes]
    exact h.bound

/-- What is live behind an expression that had a slot for a place, and the place is still there. -/
theorem Intact.place (hready : Ready owned r p env regs) (hlt : p.acquire.1 < regs.size)
    {c : Register Cursor}
    (h : Intact (p.acquire.1 :: owned) r scopes env (regs.put p.acquire.1 c) regs') :
    Intact owned r scopes env regs regs' ∧ regs'.content p.acquire.1 = c := by
  have hfresh := hready.accounts.fresh.1
  have hne : p.acquire.1 ≠ r := fun heq => hfresh (heq ▸ hready.owned)
  refine ⟨⟨h.size.trans (Registers.size_put ..), ?_, h.bound⟩, ?_⟩
  · intro slot howned hslot
    rw [h.kept slot (List.mem_cons_of_mem _ howned) hslot, Registers.content_put hlt,
      if_neg (ne_of_mem_of_not_mem howned hfresh)]
  · rw [h.kept _ List.mem_cons_self hne, Registers.content_put hlt, if_pos rfl]

end

end Packrat
