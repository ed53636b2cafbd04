import Packrat.Proofs.Agreement

/-!
# Statements carry out their operations

The statements of an operation do what the matcher does with it. Every statement goes on to the next
one in the end: the jumps that an operation needs lead to its own blocks and loops. What it leaves
behind are variables, the answer of a predicate or the items of a repetition; the latter are
numbered from where the operation begins, so nothing that was declared before is hidden (`Adds`).

There is one place where the two sides do not take the same steps. A matcher looks behind every
alternative whether it matched, and the statements do not look behind the last one. So the slot of a
choice has to be there (`Fits`), or else the matcher would break a rule of use that the statements
keep.

## Main results

* `statements_carry`: the statements of every operation carry it out
* `statements_accepted`: code functions are called with as many arguments as they have parameters
-/

namespace Packrat.Emit

open Exec Run

variable {α β α' : Type}

/-! ### Sequences of statements -/

section

variable {e : Setting} {count : Nat} {locals : Locals} {x : Run α} {f : α → Run α'}
  {P : α → Locals → Prop} {Q : α' → Flow → Locals → Prop} {s : Stmt} {ss ss' : List Stmt}

/-- What comes behind statements that went on to the next one. -/
def andThen (e : Setting) (ss : List Stmt) : Flow → Exec Flow
  | .next => execAll e ss
  | flow => pure flow

theorem execAll_cons : execAll e (s :: ss) = exec e s >>= andThen e ss := rfl

theorem execAll_append : execAll e (ss ++ ss') = execAll e ss >>= andThen e ss' := by
  induction ss with
  | nil => rfl
  | cons s ss ih =>
    rw [List.cons_append, execAll_cons, execAll_cons, bind_assoc]
    congr 1
    funext flow
    cases flow with
    | next => exact ih
    | leave label => rfl
    | stop => rfl
    | give result => rfl

theorem execAll_singleton : execAll e [s] = exec e s := by
  have hpure : andThen e [] = pure := by
    funext flow
    cases flow <;> rfl
  rw [execAll_cons, hpure, bind_pure]

/-- The statements carry out a run and go on to the next one. -/
def Does (e : Setting) (count : Nat) (x : Run α) (ss : List Stmt) (locals : Locals)
    (P : α → Locals → Prop) : Prop :=
  Carries e.options count x (execAll e ss) locals fun a flow l => flow = .next ∧ P a l

/-- The same for one statement. -/
def Performs (e : Setting) (count : Nat) (x : Run α) (s : Stmt) (locals : Locals)
    (P : α → Locals → Prop) : Prop :=
  Carries e.options count x (exec e s) locals fun a flow l => flow = .next ∧ P a l

theorem Performs.cons (h : Performs e count x s locals P)
    (hf : ∀ a l, P a l → Carries e.options count (f a) (execAll e ss) l Q) :
    Carries e.options count (x >>= f) (execAll e (s :: ss)) locals Q := by
  rw [execAll_cons]
  refine .bind h ?_
  rintro a _ l ⟨rfl, hP⟩
  exact hf a l hP

theorem Performs.singleton (h : Performs e count x s locals P) : Does e count x [s] locals P := by
  rw [Does, execAll_singleton]
  exact h

theorem Does.append (h : Does e count x ss locals P)
    (hf : ∀ a l, P a l → Carries e.options count (f a) (execAll e ss') l Q) :
    Carries e.options count (x >>= f) (execAll e (ss ++ ss')) locals Q := by
  rw [execAll_append]
  refine .bind h ?_
  rintro a _ l ⟨rfl, hP⟩
  exact hf a l hP

theorem Does.mono {P' : α → Locals → Prop} (h : Does e count x ss locals P)
    (hP : ∀ a l, P a l → P' a l) : Does e count x ss locals P' :=
  Carries.mono h fun _ _ _ h => ⟨h.1, hP _ _ h.2⟩

/-! ### Single statements -/

theorem performs_of_plain {A : α → Prop} (hx : Plain e.options count x A)
    (hs : exec e s = use x >>= fun _ => pure .next) :
    Performs e count x s locals fun a l => A a ∧ l = locals := by
  rw [Performs, hs]
  exact .map_right (.use hx) fun _ _ _ h => ⟨rfl, h.2⟩

theorem performs_savePlace (slot : Nat) :
    Performs e count (savePlace slot) (.savePlace slot) locals fun _ l => l = locals :=
  Carries.mono (performs_of_plain (plain_savePlace slot) rfl) fun _ _ _ h => ⟨h.1, h.2.2⟩

theorem performs_suspend : Performs e count suspend .suspend locals fun _ l => l = locals :=
  Carries.mono (performs_of_plain plain_suspend rfl) fun _ _ _ h => ⟨h.1, h.2.2⟩

theorem performs_resume : Performs e count resume .resume locals fun _ l => l = locals :=
  Carries.mono (performs_of_plain plain_resume rfl) fun _ _ _ h => ⟨h.1, h.2.2⟩

theorem performs_fail (d : String) :
    Performs e count (change (·.fail d)) (.fail d) locals fun _ l => l = locals :=
  Carries.mono (performs_of_plain (plain_fail d) rfl) fun _ _ _ h => ⟨h.1, h.2.2⟩

theorem performs_restorePlace (slot : Nat) :
    Performs e count (place slot >>= moveTo) (.restorePlace slot) locals fun _ l => l = locals := by
  have hs : exec e (.restorePlace slot) =
      use (place slot) >>= fun c => use (moveTo c) >>= fun _ => pure .next := rfl
  rw [Performs, hs]
  refine .use_bind (plain_place slot) fun c hc => ?_
  exact .map_right (.use (plain_moveTo hc)) fun _ _ _ h => ⟨rfl, h.2.2⟩

/-- An outcome that variables tell is put into a slot. -/
theorem performs_set {outcome : Outcome} {v : Option Value} (slot : Nat)
    (hv : ∀ fr, outcome.eval e (machine fr locals) = .ok v (machine fr locals)) :
    Performs e count (setOutcome slot v) (.set slot outcome) locals fun _ l => l = locals := by
  have hs : exec e (.set slot outcome) =
      outcome.eval e >>= fun v => use (setOutcome slot v) >>= fun _ => pure .next := rfl
  rw [Performs, hs]
  refine .right hv ?_
  exact .map_right (.use (plain_setOutcome slot v)) fun _ _ _ h => ⟨rfl, h.2.2⟩

theorem read_bind {x : Variable} {c : Content} {as? : Content → Option α} {a : α}
    {g : α → Exec α'} (hx : locals.lookup x = some c) (hc : as? c = some a) (fr : Frame) :
    (read x as? >>= g) (machine fr locals) = g a (machine fr locals) := by
  rw [exec_bind_apply, read_apply hx hc]

theorem eval_answer {v : Value} (hv : locals.lookup .value = some (.value v)) (fr : Frame) :
    Outcome.answer.eval e (machine fr locals) = .ok (some v) (machine fr locals) :=
  read_bind hv (show Content.value? (.value v) = some v from rfl) fr

theorem eval_elements {vs : List Value} (hvs : locals.lookup .items = some (.values vs))
    (fr : Frame) :
    Outcome.elements.eval e (machine fr locals) = .ok (some (.arr vs)) (machine fr locals) :=
  read_bind hvs (show Content.values? (.values vs) = some vs from rfl) fr

theorem eval_items {n : Nat} {vs : List Value} (nonempty : Bool)
    (hvs : locals.lookup (.itemsOf n) = some (.values vs)) (fr : Frame) :
    (Outcome.items n nonempty).eval e (machine fr locals) =
      .ok (if nonempty && vs.isEmpty then none else some (.arr vs)) (machine fr locals) :=
  read_bind hvs (show Content.values? (.values vs) = some vs from rfl) fr

theorem eval_verdict {b : Bool} (negated : Bool) (hb : locals.lookup .pass = some (.flag b))
    (fr : Frame) : (Outcome.verdict negated).eval e (machine fr locals) =
      .ok (emptyIf (b != negated)) (machine fr locals) := by
  have hverdict : (if negated then !b else b) = (b != negated) := by
    cases negated <;> simp
  rw [← hverdict]
  exact read_bind hb (show Content.flag? (.flag b) = some b from rfl) fr

/-- An outcome of a call is put into a slot. -/
theorem performs_set_of_carries {outcome : Outcome} {x : Run (Option Value)} (slot : Nat)
    (hx : Carries e.options count x (outcome.eval e) locals fun a b l => a = b ∧ l = locals) :
    Performs e count (x >>= setOutcome slot) (.set slot outcome) locals fun _ l => l = locals := by
  have hs : exec e (.set slot outcome) =
      outcome.eval e >>= fun v => use (setOutcome slot v) >>= fun _ => pure .next := rfl
  rw [Performs, hs]
  refine .bind hx ?_
  rintro v _ _ ⟨rfl, rfl⟩
  exact .map_right (.use (plain_setOutcome slot v)) fun _ _ _ h => ⟨rfl, h.2.2⟩

theorem performs_gather (slots : List Nat) :
    Performs e count (values slots) (.gather slots) locals
      fun vs l => l = (.items, .values vs) :: locals := by
  rw [Performs, ← bind_pure (values slots)]
  refine .use_bind (plain_values slots) fun vs _ => ?_
  exact .right (declare_apply .items (.values vs) · _) (.pure ⟨rfl, rfl⟩)

theorem performs_beginAt (slot : Nat) :
    Performs e count (place slot) (.beginAt slot) locals
      fun c l => c.Suits e.options ∧ l = (.start, .cursor c) :: locals := by
  rw [Performs, ← bind_pure (place slot)]
  refine .use_bind (plain_place slot) fun c hc => ?_
  exact .right (declare_apply .start (.cursor c) · _) (.pure ⟨rfl, hc, rfl⟩)

theorem performs_restoreStart {begun : Cursor} (hbegun : begun.Suits e.options)
    (hstart : locals.lookup .start = some (.cursor begun)) :
    Performs e count (moveTo begun) .restoreStart locals fun _ l => l = locals :=
  .right (read_apply hstart rfl)
    (.map_right (.use (plain_moveTo hbegun)) fun _ _ _ h => ⟨rfl, h.2.2⟩)

/-! ### Branches, blocks and loops -/

/-- Statements in a block of their own. -/
theorem Does.inBlock (h : Does e count x ss locals fun _ l => ∃ new, l = new ++ locals) :
    Carries e.options count x (inBlock (execAll e ss)) locals
      fun _ flow l => flow = .next ∧ l = locals :=
  Carries.inBlock (P := fun (_ : α) (flow : Flow) => flow = .next) h

/-- The same steps on both sides, on either outcome of a test. -/
theorem branch_carries {slot : Nat} {f : Bool → Run α'} {g : Bool → Exec β}
    {Q : α' → β → Locals → Prop} (hyes : Carries e.options count (f true) (g true) locals Q)
    (hno : Carries e.options count (f false) (g false) locals Q) :
    Carries e.options count (isMatch slot >>= f) (use (isMatch slot) >>= g) locals Q := by
  refine .use_bind (plain_isMatch slot) fun b _ => ?_
  cases b with
  | false => exact hno
  | true => exact hyes

theorem unlessMatch_carries {slot : Nat} {f : Bool → Run α'} {R : α' → Flow → Locals → Prop}
    (hyes : Carries e.options count (f true) (pure .next) locals R)
    (hno : Carries e.options count (f false) (inBlock (execAll e ss)) locals R) :
    Carries e.options count (isMatch slot >>= f) (exec e (.unlessMatch slot ss)) locals R :=
  branch_carries (g := fun b => if b then pure .next else Exec.inBlock (execAll e ss)) hyes hno

theorem onMatch_carries {slot : Nat} {f : Bool → Run α'} {R : α' → Flow → Locals → Prop}
    (hyes : Carries e.options count (f true) (inBlock (execAll e ss)) locals R)
    (hno : Carries e.options count (f false) (pure .next) locals R) :
    Carries e.options count (isMatch slot >>= f) (exec e (.onMatch slot ss)) locals R :=
  branch_carries (g := fun b => if b then Exec.inBlock (execAll e ss) else pure .next) hyes hno

theorem ifMatch_carries {slot : Nat} {f : Bool → Run α'} {R : α' → Flow → Locals → Prop}
    (hyes : Carries e.options count (f true) (inBlock (execAll e ss)) locals R)
    (hno : Carries e.options count (f false) (inBlock (execAll e ss')) locals R) :
    Carries e.options count (isMatch slot >>= f) (exec e (.ifMatch slot ss ss')) locals R :=
  branch_carries
    (g := fun b => if b then Exec.inBlock (execAll e ss) else Exec.inBlock (execAll e ss')) hyes hno

/-- What comes behind a test whose block never goes on to the next statement. -/
theorem unlessMatch_cons_carries {slot : Nat} {f : Bool → Run α'} (label : Label)
    (hyes : Carries e.options count (f true) (execAll e ss') locals Q)
    (hno : Carries e.options count (f false) (Exec.inBlock (execAll e ss)) locals
      fun a flow l => flow = .leave label ∧ Q a flow l) :
    Carries e.options count (isMatch slot >>= f) (execAll e (.unlessMatch slot ss :: ss')) locals
      Q := by
  have hs : execAll e (.unlessMatch slot ss :: ss') = use (isMatch slot) >>= fun b =>
      (if b then pure .next else Exec.inBlock (execAll e ss)) >>= andThen e ss' := by
    rw [execAll_cons]
    exact bind_assoc ..
  rw [hs]
  refine branch_carries hyes ?_
  rw [← bind_pure (f false)]
  refine .bind hno ?_
  rintro a _ l ⟨rfl, hQ⟩
  exact .pure hQ

/-- What the last action answered decides. -/
theorem ifRefused_carries {v : Value} {x : Run α'} (hv : locals.lookup .value = some (.value v))
    (hyes : v.isNull = true → Carries e.options count x (Exec.inBlock (execAll e ss)) locals Q)
    (hno : v.isNull = false → Carries e.options count x (Exec.inBlock (execAll e ss')) locals Q) :
    Carries e.options count x (exec e (.ifRefused ss ss')) locals Q := by
  refine .right (read_apply hv rfl) ?_
  cases h : v.isNull with
  | true => exact hyes h
  | false => exact hno h

/-- A block goes on to the next statement when it is left. -/
theorem performs_block (label : Label)
    (h : Carries e.options count x (execAll e ss) locals fun _ flow l =>
      (flow = .next ∨ flow = .leave label) ∧ ∃ new, l = new ++ locals) :
    Performs e count x (.block label ss) locals fun _ l => l = locals := by
  rw [Performs, exec, ← bind_pure x]
  refine .bind (Carries.inBlock (P := fun _ flow => flow = .next ∨ flow = .leave label) h) ?_
  rintro a _ _ ⟨rfl | rfl, rfl⟩
  · exact .pure ⟨rfl, rfl⟩
  · refine .pure ⟨?_, rfl⟩
    exact if_pos rfl

end

/-! ### Code functions -/

/-- What a code function is called with in a context. The matched value and its text are not passed
on. -/
def Arguments.of (cx : Context) : Arguments := ⟨cx.offset, cx.lineColumn, cx.labels.map Prod.snd⟩

/-- The functions bound to the sites of a program do what the code functions of its module do. -/
structure Interprets (m : Matcher) (code : CodeFunctions) : Prop where
  action (site : Nat) (s : CodeSite) : m.program.code[site]? = some s → s.kind = .action →
    ∃ h : Handler Value, m.bindings[site]? = some (.action h) ∧
      ∀ cx, h.run cx = code.action site (.of cx)
  predicate (site : Nat) (s : CodeSite) : m.program.code[site]? = some s → s.kind = .predicate →
    ∃ h : Handler Bool, m.bindings[site]? = some (.predicate h) ∧
      ∀ cx, h.run cx = code.predicate site (.of cx)

section

variable {e : Setting} {count : Nat} {locals : Locals} {m : Matcher} {call : CodeCall}

/-- The arguments are what the context has of them. -/
theorem context_carries (hm : m.program = e.program) {kind : CodeKind}
    (haccepts : Accepts e.program kind call) {begun : Cursor} (hbegun : begun.Suits e.options)
    (v : Value) : Carries e.options count (m.context call.site call.slots begun v)
      (callArguments e kind call begun) locals fun cx a l => a = .of cx ∧ l = locals := by
  obtain ⟨site, hsite, hkind, hlength⟩ := haccepts
  have hlabels : call.slots.length = site.labels.length := by
    rw [hlength, parameters, length_distinct, List.length_map]
  have harguments : callArguments e kind call begun = use (values call.slots) >>= fun vs =>
      pure ⟨begun.offset, begun.position.lineColumn, vs⟩ := by
    rw [callArguments, hsite]
    dsimp only
    rw [if_pos ⟨hkind, hlength⟩]
    congr 1
    funext vs
    have htracked : begun.position.lineColumn.isSome = e.options.trackLines := hbegun
    rw [← htracked]
    cases begun.position.lineColumn <;> rfl
  rw [harguments, Matcher.context, hm, hsite]
  refine .left (A := fun _ => True) (fun fr _ => ⟨_, cursor_apply fr, trivial⟩) fun here _ => ?_
  refine .use_bind (plain_values call.slots) fun vs hvs => .pure ⟨?_, rfl⟩
  have hsnd : (site.labels.zip vs).map Prod.snd = vs := by
    rw [List.map_snd_zip]
    omega
  rw [Arguments.of, hsnd]

theorem callCode_carries (site : Nat) (cx : Context) (h : Handler α) :
    Carries e.options count (Matcher.callCode site cx h) (answer (h.run cx)) locals
      fun a b l => a = b ∧ l = locals := by
  intro fr hfr
  have hnoted :
      ({ fr with state := fr.state.note (.called site cx) } : Frame).Suits e.options count :=
    hfr.withState (hfr.state.congr hfr.state.cursor rfl)
  unfold Matcher.callCode
  cases h.run cx with
  | ok a => exact .ok { fr with state := fr.state.note (.called site cx) } locals ⟨rfl, rfl⟩ hnoted
  | error text => exact .error rfl

theorem performs_runAction (call : CodeCall) (hm : m.program = e.program)
    (hcode : Interprets m e.code) (haccepts : Accepts e.program .action call) {begun : Cursor}
    (hbegun : begun.Suits e.options) (hstart : locals.lookup .start = some (.cursor begun))
    (v : Value) :
    Performs e count (m.context call.site call.slots begun v >>= m.runAction call.site)
      (.runAction call) locals fun a l => l = (.value, .value a) :: locals := by
  obtain ⟨site, hsite, hkind, hlength⟩ := haccepts
  obtain ⟨h, hbinding, hrun⟩ := hcode.action call.site site (hm ▸ hsite) hkind
  refine .right (read_apply hstart rfl)
    (.bind (context_carries hm ⟨site, hsite, hkind, hlength⟩ hbegun v) ?_)
  rintro cx _ _ ⟨rfl, rfl⟩
  have haction : m.runAction call.site cx = Matcher.callCode call.site cx h := by
    rw [Matcher.runAction, hbinding]
  rw [haction, ← hrun, ← bind_pure (Matcher.callCode call.site cx h)]
  refine .bind (callCode_carries call.site cx h) ?_
  rintro a _ _ ⟨rfl, rfl⟩
  exact .right (declare_apply .value (.value a) · _) (.pure ⟨rfl, rfl⟩)

theorem performs_runPredicate (call : CodeCall) (hm : m.program = e.program)
    (hcode : Interprets m e.code) (haccepts : Accepts e.program .predicate call) :
    Performs e count (m.runPredicate call.site call.slots) (.runPredicate call) locals
      fun b l => l = (.pass, .flag b) :: locals := by
  obtain ⟨site, hsite, hkind, hlength⟩ := haccepts
  obtain ⟨h, hbinding, hrun⟩ := hcode.predicate call.site site (hm ▸ hsite) hkind
  refine .use_bind plain_cursor fun here hhere => ?_
  refine .bind (context_carries hm ⟨site, hsite, hkind, hlength⟩ hhere .null) ?_
  rintro cx _ _ ⟨rfl, rfl⟩
  rw [hbinding, ← hrun]
  show Carries _ _ (Matcher.callCode call.site cx h) _ _ _
  rw [← bind_pure (Matcher.callCode call.site cx h)]
  refine .bind (callCode_carries call.site cx h) ?_
  rintro b _ _ ⟨rfl, rfl⟩
  exact .right (declare_apply .pass (.flag b) · _) (.pure ⟨rfl, rfl⟩)

end

/-! ### What operations rely on -/

section

variable (program : Program) (count : Nat)

mutual
/-- The slots whose outcomes an operation looks at are there, and so are its code functions and the
rules that it calls. -/
def Fits : Op → Prop
  | .named _ _ body | .lookahead _ _ _ body | .optional _ body | .repeated _ _ body => Fits body
  | .choice r items => r < count ∧ FitsAll items
  | .action r _ site slots body => r < count ∧ Accepts program .action ⟨site, slots⟩ ∧ Fits body
  | .sequence _ _ items => FitsAll items
  | .predicate _ _ site slots => Accepts program .predicate ⟨site, slots⟩
  | .call _ rule => rule < program.rules.size
  | .literal .. | .charClass .. | .any .. => True

/-- The same for several operations. -/
def FitsAll : List Op → Prop
  | [] => True
  | o :: os => Fits o ∧ FitsAll os
end

end

theorem fitsAll_iff {program : Program} {count : Nat} {items : List Op} :
    FitsAll program count items ↔ ∀ o ∈ items, Fits program count o := by
  induction items with
  | nil => simp [FitsAll]
  | cons o os ih => simp [FitsAll, ih]

/-- The names of the functions of the rules. -/
def Setting.functions (e : Setting) : Array String := (ruleFunctions e.program.ruleNames).toArray

/-- The ending of a call, without the registers around it. -/
def called : Ending (Option Value) → EStateM.Result Abort State (Option Value)
  | .ok result fr => .ok result fr.state.bare
  | .error h fr => .error (.halt h) fr.state.bare

/-- The matcher and the module run the same program, with the same functions for its code. -/
structure Corresponds (e : Setting) (m : Matcher) (call : Nat → Run (Option Value)) : Prop where
  program : m.program = e.program
  code : Interprets m e.code
  /-- Calls agree, and leave the registers around them as they were. -/
  call (rule : Nat) (function : String) : e.functions[rule]? = some function →
    ∀ fr : Frame, fr.state.Suits e.options →
      e.call function fr.state.bare = called (call rule fr) ∧ ∀ result fr',
        call rule fr = .ok result fr' → fr'.state.Suits e.options ∧ fr'.registers = fr.registers

/-! ### Variables that stay behind -/

/-- All that was declared since is answers of predicates and items of repetitions, the latter with
numbers from `n` on. -/
def Adds (n : Nat) (locals l : Locals) : Prop :=
  ∃ new : Locals, l = new ++ locals ∧
    ∀ x ∈ new.map Prod.fst, x = .pass ∨ ∃ k, n ≤ k ∧ x = .itemsOf k

section

variable {n : Nat} {locals l : Locals}

theorem Adds.refl (n : Nat) (locals : Locals) : Adds n locals locals := ⟨[], rfl, nofun⟩

theorem Adds.of_eq (h : l = locals) : Adds n locals l := h ▸ .refl n locals

theorem Adds.cons_pass (n : Nat) (c : Content) (locals : Locals) :
    Adds n locals ((.pass, c) :: locals) := by
  refine ⟨[(.pass, c)], rfl, ?_⟩
  intro x hx
  exact .inl (List.mem_singleton.mp hx)

theorem Adds.cons_items (n : Nat) (c : Content) (locals : Locals) :
    Adds n locals ((.itemsOf n, c) :: locals) := by
  refine ⟨[(.itemsOf n, c)], rfl, ?_⟩
  intro x hx
  exact .inr ⟨n, Nat.le_refl n, List.mem_singleton.mp hx⟩

/-- What the body of a loop declares hides neither of the variables of the loop. -/
theorem Adds.fresh (h : Adds (n + 1) locals l) : ∃ new : Locals, l = new ++ locals ∧
    Variable.itemsOf n ∉ new.map Prod.fst ∧ Variable.beforeOf n ∉ new.map Prod.fst := by
  obtain ⟨new, rfl, hnew⟩ := h
  refine ⟨new, rfl, fun hmem => ?_, fun hmem => ?_⟩
  · rcases hnew _ hmem with heq | ⟨k, hk, heq⟩
    · nomatch heq
    · obtain rfl := Variable.itemsOf.inj heq
      omega
  · rcases hnew _ hmem with heq | ⟨k, hk, heq⟩ <;> nomatch heq

/-- What was declared before a block still is, behind all that was declared in it. -/
theorem Adds.append {base : Locals} (h : Adds n locals l) (hbase : ∃ new, locals = new ++ base) :
    ∃ new, l = new ++ base := by
  obtain ⟨new, rfl, -⟩ := h
  obtain ⟨new', rfl⟩ := hbase
  exact ⟨new ++ new', (List.append_assoc ..).symm⟩

end

/-! ### Operations -/

section

variable {e : Setting} {count : Nat} {m : Matcher} {call : Nat → Run (Option Value)}

/-- The statements of an operation carry it out, whatever number they begin with. -/
def Carried (e : Setting) (count : Nat) (m : Matcher) (call : Nat → Run (Option Value)) (o : Op) :
    Prop :=
  ∀ (n : Nat) (locals : Locals), Does e count (m.eval call e.fuel o) (statements e.functions o n).1
    locals fun _ l => Adds n locals l

variable {result place n : Nat} {locals : Locals} {body : Op} {items : List Op} {x : Run Unit}
  {ss : List Stmt}

theorem silently_does {P : Locals → Prop} (h : Does e count x ss locals fun _ l => P l) :
    Does e count (silently x) (.suspend :: ss ++ [.resume]) locals fun _ l => P l := by
  refine performs_suspend.cons ?_
  rintro _ _ rfl
  refine h.append fun _ l hP => ?_
  refine performs_resume.singleton.mono ?_
  rintro _ _ rfl
  exact hP

theorem named_carried {description : String} (ih : Carried e count m call body) :
    Carried e count m call (.named result description body) := by
  intro n locals
  have hss : (statements e.functions (.named result description body) n).1 =
      (.suspend :: (statements e.functions body n).1 ++ [.resume]) ++
        [.unlessMatch result [.fail description]] := by
    simp [statements]
  rw [hss, Matcher.eval]
  refine (silently_does (ih n locals)).append fun _ l hl => ?_
  rw [execAll_singleton]
  refine unlessMatch_carries (.pure ⟨rfl, hl⟩) ?_
  have hfail : Does e count (change (·.fail description)) [.fail description] l
      fun _ l' => ∃ new, l' = new ++ l := by
    refine (performs_fail description).singleton.mono ?_
    rintro _ _ rfl
    exact ⟨[], rfl⟩
  refine Carries.mono hfail.inBlock ?_
  rintro _ _ _ ⟨rfl, rfl⟩
  exact ⟨rfl, hl⟩

/-- How the end of an alternative goes on. -/
def leaveIf (label : Label) : Bool → Flow
  | true => .leave label
  | false => .next

/-- Behind an alternative that matched, the block of the choice is left. -/
theorem leaveChoice_carries (label : Label) (slot : Nat) :
    Carries e.options count (isMatch slot) (exec e (.ifMatch slot [.leave label] [])) locals
      fun b flow l => flow = leaveIf label b ∧ l = locals := by
  rw [← bind_pure (isMatch slot)]
  refine ifMatch_carries ?_ ?_
  · exact Carries.inBlock (P := fun b flow => flow = leaveIf label b) (.pure ⟨rfl, [], rfl⟩)
  · exact Carries.inBlock (P := fun b flow => flow = leaveIf label b) (.pure ⟨rfl, [], rfl⟩)

/-- Alternatives go on behind the choice or leave its block, and what they declare ends with it. -/
theorem choiceStatements_carry {label : Label} (ih : ∀ o ∈ items, Carried e count m call o)
    (hlt : result < count) (k : Nat) (base : Locals) (hbase : ∃ new, locals = new ++ base) :
    Carries e.options count (m.firstMatch call e.fuel result items)
      (execAll e (choiceStatements e.functions label result items k).1) locals fun _ flow l =>
        (flow = .next ∨ flow = .leave label) ∧ ∃ new, l = new ++ base := by
  induction items generalizing k locals with
  | nil => exact .pure ⟨.inl rfl, hbase⟩
  | cons o os ihos =>
    rw [choiceStatements, Matcher.firstMatch]
    dsimp only
    rw [List.append_assoc]
    refine (ih o List.mem_cons_self k locals).append fun _ l hl => ?_
    have hl' := hl.append hbase
    cases os with
    | nil =>
      -- the matcher looks behind the last alternative too, where the statements do not
      refine .left (A := fun _ => True) (fun fr hfr => ?_) fun b _ => ?_
      · have hsize : result < fr.registers.size := hfr.size ▸ hlt
        refine ⟨(fr.registers.matchAt result).isSome, ?_, trivial⟩
        rw [isMatch_apply, Registers.isMatch?_eq hsize]
        rfl
      · cases b with
        | true => exact .pure ⟨.inl rfl, hl'⟩
        | false => exact .pure ⟨.inl rfl, hl'⟩
    | cons o' os' =>
      refine .bind (leaveChoice_carries label result) ?_
      rintro b _ _ ⟨rfl, rfl⟩
      cases b with
      | true => exact .pure ⟨.inr rfl, hl'⟩
      | false => exact ihos (fun o ho => ih o (List.mem_cons_of_mem _ ho)) _ hl'

theorem choice_carried (ih : ∀ o ∈ items, Carried e count m call o) (hlt : result < count) :
    Carried e count m call (.choice result items) := by
  intro n locals
  rw [Matcher.eval]
  refine (performs_block (.choice n)
    (choiceStatements_carry ih hlt (n + 1) locals ⟨[], rfl⟩)).singleton.mono ?_
  rintro _ _ rfl
  exact .refl n _

theorem action_carried {site : Nat} {slots : List Nat} (hm : m.program = e.program)
    (hcode : Interprets m e.code) (haccepts : Accepts e.program .action ⟨site, slots⟩)
    (hlt : result < count) (ih : Carried e count m call body) :
    Carried e count m call (.action result place site slots body) := by
  intro n locals
  have hss : (statements e.functions (.action result place site slots body) n).1 =
      .savePlace place :: ((statements e.functions body n).1 ++ [.onMatch result [
        .beginAt place, .runAction ⟨site, slots⟩,
        .ifRefused [.set result .noMatch, .restoreStart] [.set result .answer]]]) := by
    simp [statements]
  rw [hss, Matcher.eval]
  refine (performs_savePlace place).cons ?_
  rintro _ _ rfl
  refine (ih n _).append fun _ l hl => ?_
  rw [execAll_singleton]
  refine onMatch_carries ?_ (.pure ⟨rfl, hl⟩)
  refine Carries.mono (Does.inBlock ?_) fun _ _ _ h => ⟨h.1, h.2 ▸ hl⟩
  refine (performs_beginAt place).cons ?_
  rintro begun _ ⟨hbegun, rfl⟩
  -- the matched value is for the matcher only
  refine .left (A := fun _ => True) (fun fr hfr => ?_) fun v _ => ?_
  · have hsize : result < fr.registers.size := hfr.size ▸ hlt
    refine ⟨(fr.registers.matchAt result).getD .null, ?_, trivial⟩
    rw [value_apply, Registers.value?_eq hsize]
    rfl
  · rw [← bind_assoc]
    refine (performs_runAction ⟨site, slots⟩ hm hcode haccepts hbegun rfl v).cons ?_
    rintro answer _ rfl
    rw [execAll_singleton]
    have hnew : ∀ l', l' = (Variable.value, Content.value answer) :: (.start, .cursor begun) :: l →
        ∃ new, l' = new ++ l := fun _ h => ⟨[(.value, .value answer), (.start, .cursor begun)], h⟩
    refine ifRefused_carries rfl ?_ ?_
    · intro hnull
      rw [if_pos hnull]
      refine Carries.mono (Does.inBlock ?_) fun _ _ _ h => ⟨h.1, hnew _ h.2⟩
      refine (performs_set result fun _ => rfl).cons ?_
      rintro _ _ rfl
      refine (performs_restoreStart hbegun rfl).singleton.mono ?_
      rintro _ _ rfl
      exact ⟨[], rfl⟩
    · intro hnull
      rw [if_neg (Bool.not_eq_true _ ▸ hnull)]
      refine Carries.mono (Does.inBlock ?_) fun _ _ _ h => ⟨h.1, hnew _ h.2⟩
      refine (performs_set result (eval_answer rfl)).singleton.mono ?_
      rintro _ _ rfl
      exact ⟨[], rfl⟩

/-- Elements go on behind the last one or leave the block of the sequence. -/
theorem sequenceStatements_carry {label : Label} {giveUp rest : List Stmt} {f : Bool → Run Unit}
    {base : Locals} (ih : ∀ o ∈ items, Carried e count m call o) (k : Nat)
    (hbase : ∃ new, locals = new ++ base)
    (hyes : ∀ l, (∃ new, l = new ++ base) → Carries e.options count (f true) (execAll e rest) l
      fun _ flow l => (flow = .next ∨ flow = .leave label) ∧ ∃ new, l = new ++ base)
    (hno : ∀ l, Carries e.options count (f false) (inBlock (execAll e giveUp)) l
      fun _ flow l' => flow = .leave label ∧ l' = l) :
    Carries e.options count (m.allMatch call e.fuel items >>= f)
      (execAll e ((sequenceStatements e.functions giveUp items k).1 ++ rest)) locals fun _ flow l =>
        (flow = .next ∨ flow = .leave label) ∧ ∃ new, l = new ++ base := by
  induction items generalizing k locals with
  | nil => exact hyes locals hbase
  | cons o os ihos =>
    rw [sequenceStatements, Matcher.allMatch]
    dsimp only
    rw [List.append_assoc, List.cons_append, bind_assoc]
    refine (ih o List.mem_cons_self k locals).append fun _ l hl => ?_
    have hl' := hl.append hbase
    rw [bind_assoc]
    refine unlessMatch_cons_carries label ?_ ?_
    · exact ihos (fun o ho => ih o (List.mem_cons_of_mem _ ho)) _ hl'
    · refine Carries.mono (hno l) ?_
      rintro _ _ _ ⟨rfl, rfl⟩
      exact ⟨rfl, .inr rfl, hl'⟩

theorem sequence_carried (ih : ∀ o ∈ items, Carried e count m call o) :
    Carried e count m call (.sequence result place items) := by
  intro n locals
  rw [Matcher.eval]
  refine (performs_savePlace place).cons ?_
  rintro _ _ rfl
  refine (performs_block (.sequence n) ?_).singleton.mono ?_
  · refine sequenceStatements_carry ih (n + 1) ⟨[], rfl⟩ ?_ ?_
    · rintro l ⟨new, rfl⟩
      refine (performs_gather (items.map Op.result)).cons ?_
      rintro vs _ rfl
      refine Carries.mono (performs_set result (eval_elements rfl)).singleton ?_
      rintro _ _ _ ⟨rfl, rfl⟩
      exact ⟨.inl rfl, (.items, .values vs) :: new, rfl⟩
    · intro l
      refine Carries.inBlock (P := fun (_ : Unit) flow => flow = Flow.leave (.sequence n)) ?_
      refine (performs_set result fun _ => rfl).cons ?_
      rintro _ _ rfl
      rw [← bind_pure (Run.place place >>= moveTo)]
      refine (performs_restorePlace place).cons ?_
      rintro _ _ rfl
      exact .pure ⟨rfl, [], rfl⟩
  · rintro _ _ rfl
    exact .refl n _

theorem lookahead_carried {negated : Bool} (ih : Carried e count m call body) :
    Carried e count m call (.lookahead result place negated body) := by
  intro n locals
  have hss : (statements e.functions (.lookahead result place negated body) n).1 =
      .savePlace place :: ((.suspend :: (statements e.functions body n).1 ++ [.resume]) ++
        [.ifMatch result
          [.set result (if negated then .noMatch else .emptyMatch), .restorePlace place]
          [.set result (if negated then .emptyMatch else .noMatch)]]) := by
    cases negated <;> simp [statements]
  rw [hss, Matcher.eval]
  refine (performs_savePlace place).cons ?_
  rintro _ _ rfl
  refine (silently_does (ih n _)).append fun _ l hl => ?_
  rw [execAll_singleton]
  refine Carries.mono (ifMatch_carries (R := fun _ flow l' => flow = .next ∧ l' = l) ?_ ?_)
    fun _ _ _ h => ⟨h.1, h.2 ▸ hl⟩
  · refine Does.inBlock ((performs_set result fun _ => ?_).cons ?_)
    · cases negated <;> rfl
    · rintro _ _ rfl
      refine (performs_restorePlace place).singleton.mono ?_
      rintro _ _ rfl
      exact ⟨[], rfl⟩
  · refine Does.inBlock ((performs_set result fun _ => ?_).singleton.mono ?_)
    · cases negated <;> rfl
    · rintro _ _ rfl
      exact ⟨[], rfl⟩

theorem predicate_carried {negated : Bool} {site : Nat} {slots : List Nat}
    (hm : m.program = e.program) (hcode : Interprets m e.code)
    (haccepts : Accepts e.program .predicate ⟨site, slots⟩) :
    Carried e count m call (.predicate result negated site slots) := by
  intro n locals
  rw [Matcher.eval]
  refine (performs_runPredicate ⟨site, slots⟩ hm hcode haccepts).cons ?_
  rintro b _ rfl
  refine (performs_set result (eval_verdict negated rfl)).singleton.mono ?_
  rintro _ _ rfl
  exact .cons_pass n _ _

theorem optional_carried (ih : Carried e count m call body) :
    Carried e count m call (.optional result body) := by
  intro n locals
  rw [Matcher.eval]
  refine (ih n locals).append fun _ l hl => ?_
  rw [execAll_singleton]
  refine unlessMatch_carries (.pure ⟨rfl, hl⟩) ?_
  refine Carries.mono (Does.inBlock ?_) fun _ _ _ h => ⟨h.1, h.2 ▸ hl⟩
  refine (performs_set result fun _ => rfl).singleton.mono ?_
  rintro _ _ rfl
  exact ⟨[], rfl⟩

theorem call_carried {rule : Nat} (hcall : Corresponds e m call)
    (hrule : rule < e.functions.size) : Carried e count m call (.call result rule) := by
  intro n locals
  have hfunction : e.functions[rule]? = some e.functions[rule] := Array.getElem?_eq_getElem hrule
  have hname : e.functions[rule]?.getD "" = e.functions[rule] := by rw [hfunction]; rfl
  rw [Matcher.eval, statements, hname]
  refine (performs_set_of_carries result ?_).singleton.mono ?_
  · intro fr hfr
    obtain ⟨heq, hok⟩ := hcall.call rule _ hfunction fr hfr.state
    show Agrees _ _ _ _ (callFunction e e.functions[rule] (machine fr locals))
    have hstate : (machine fr locals).state = fr.state.bare := rfl
    rw [callFunction, hstate, heq]
    cases hrun : call rule fr with
    | ok v fr' =>
      obtain ⟨hsuits, hregisters⟩ := hok v fr' hrun
      have hfr' : fr'.Suits e.options count := by
        refine ⟨hsuits, ?_, ?_⟩
        · rw [hregisters]
          exact hfr.size
        · rw [hregisters]
          exact hfr.places
      have hmachine : ({ machine fr locals with state := fr'.state.bare } : Machine) =
          machine fr' locals := by
        rw [machine, machine, hregisters]
      show Agrees _ _ _ _ (.ok v { machine fr locals with state := fr'.state.bare })
      rw [hmachine]
      exact .ok fr' locals ⟨rfl, rfl⟩ hfr'
    | error h fr' => exact .error rfl
  · rintro _ _ rfl
    exact .refl n _

/-- A step of the parse gives the same on both sides. -/
theorem step_does {outcome : Outcome} {f : State → Option Value × State} (hf : Terminal f)
    (houtcome : outcome.eval e = use (Run.step f)) (n : Nat) :
    Does e count (Run.step f >>= setOutcome result) [.set result outcome] locals
      fun _ l => Adds n locals l := by
  refine (performs_set_of_carries result ?_).singleton.mono fun _ _ h => .of_eq h
  rw [houtcome]
  exact Carries.mono (.use (plain_step hf)) fun _ _ _ h => ⟨h.1, h.2.2⟩

/-! ### Repetitions -/

/-- One pass of a repetition: its item, and whether it consumed nothing. -/
def passItem (pass : Run Unit) (slot : Nat) : Run (Option (Value × Bool)) := do
  let before ← cursor
  pass
  match ← take slot with
  | none => return none
  | some item => return some (item, (← cursor).offset == before.offset)

theorem collect_succ (pass : Run Unit) (slot fuel : Nat) :
    Matcher.collect pass slot (fuel + 1) = passItem pass slot >>= fun
      | none => pure []
      | some (item, true) => pure [item]
      | some (item, false) =>
        Matcher.collect pass slot fuel >>= fun items => pure (item :: items) := by
  rw [Matcher.collect, passItem]
  simp only [bind_assoc]
  congr 1
  funext before
  congr 1
  funext _
  congr 1
  funext found
  cases found with
  | none => rfl
  | some item =>
    simp only [bind_assoc, pure_bind]
    congr 1
    funext after
    by_cases h : after.offset = before.offset
    · rw [if_pos h, beq_iff_eq.mpr h]
    · rw [if_neg h, beq_eq_false_iff_ne.mpr h]

/-- How the end of a pass goes on. -/
def flowOf : Option (Value × Bool) → Flow
  | none | some (_, true) => .stop
  | some (_, false) => .next

/-- What a pass adds to the items. -/
def itemsOf : Option (Value × Bool) → List Value
  | none => []
  | some (item, _) => [item]

theorem performs_markOffset (n : Nat) : Performs e count cursor (.markOffset n) locals
    fun c l => l = (.beforeOf n, .offset c.offset) :: locals := by
  rw [Performs, ← bind_pure cursor]
  refine .use_bind plain_cursor fun c _ => ?_
  exact .right (declare_apply (.beforeOf n) (.offset c.offset) · _) (.pure ⟨rfl, rfl⟩)

theorem takeItem_carries {slot : Nat} {v : List Value}
    (hv : locals.lookup (.itemsOf n) = some (.values v)) :
    Carries e.options count (take slot) (exec e (.takeItem slot n)) locals fun found flow l =>
      match found with
      | none => flow = .stop ∧ l = locals
      | some item =>
        flow = .next ∧ l = locals.replace (.itemsOf n) (.values (v ++ [item])) := by
  rw [← bind_pure (take slot)]
  refine .use_bind (plain_take slot) fun found _ => ?_
  cases found with
  | none => exact .pure ⟨rfl, rfl⟩
  | some item =>
    refine .right (read_apply hv rfl) (.right (assign_apply _ _ · _) ?_)
    exact .pure ⟨rfl, rfl⟩

theorem stopUnlessMoved_carries {b : Nat}
    (hb : locals.lookup (.beforeOf n) = some (.offset b)) :
    Carries e.options count cursor (exec e (.stopUnlessMoved n)) locals fun c flow l =>
      flow = (if c.offset = b then .stop else .next) ∧ l = locals := by
  rw [← bind_pure cursor]
  refine .use_bind plain_cursor fun c _ => ?_
  exact .right (read_apply hb rfl) (.pure ⟨rfl, rfl⟩)

/-- A pass in its block puts its item behind those that were there. -/
theorem pass_carries (ih : Carried e count m call body) (n : Nat) (vs : List Value)
    (locals : Locals) :
    Carries e.options count (passItem (m.eval call e.fuel body) body.result)
      (inBlock (execAll e (.markOffset n :: (statements e.functions body (n + 1)).1 ++
        [.takeItem body.result n, .stopUnlessMoved n])))
      ((.itemsOf n, .values vs) :: locals) fun found flow l =>
        flow = flowOf found ∧ l = (.itemsOf n, .values (vs ++ itemsOf found)) :: locals := by
  refine .inBlock_of_length (performs_markOffset n |>.cons ?_)
  rintro before _ rfl
  refine (ih (n + 1) _).append fun _ l hl => ?_
  obtain ⟨new, rfl, hitems, hbefore⟩ := hl.fresh
  have hne : (Variable.itemsOf n == .beforeOf n) = false := beq_eq_false_iff_ne.mpr nofun
  rw [execAll_cons]
  refine .bind (takeItem_carries (v := vs) ?_) ?_
  · rw [lookup_append_of_notMem hitems, List.lookup_cons, hne, List.lookup_cons_self]
  · intro found flow l hfound
    cases found with
    | none =>
      obtain ⟨rfl, rfl⟩ := hfound
      refine .pure ⟨new ++ [(.beforeOf n, .offset before.offset)], _, ?_, rfl, rfl, ?_⟩
      · simp
      · simp [itemsOf]
    | some item =>
      obtain ⟨rfl, rfl⟩ := hfound
      have hreplace : (new ++ (.beforeOf n, .offset before.offset) ::
          (.itemsOf n, .values vs) :: locals : Locals).replace (.itemsOf n)
            (.values (vs ++ [item])) = new ++ (.beforeOf n, .offset before.offset) ::
              (.itemsOf n, .values (vs ++ [item])) :: locals := by
        rw [replace_append_of_notMem hitems]
        simp [Locals.replace]
      rw [hreplace]
      show Carries _ _ _ (execAll e [.stopUnlessMoved n]) _ _
      rw [execAll_singleton]
      refine .map_left (stopUnlessMoved_carries (b := before.offset) ?_) ?_
      · rw [lookup_append_of_notMem hbefore, List.lookup_cons_self]
      · rintro after _ _ ⟨rfl, rfl⟩
        refine ⟨new ++ [(.beforeOf n, .offset before.offset)],
          (.itemsOf n, .values (vs ++ [item])) :: locals, ?_, rfl, ?_, rfl⟩
        · simp
        · by_cases h : after.offset = before.offset
          · rw [if_pos h, beq_iff_eq.mpr h]
            rfl
          · rw [if_neg h, beq_eq_false_iff_ne.mpr h]
            rfl

/-- The passes of a loop gather the items of a repetition. -/
theorem loop_carries (ih : Carried e count m call body) (n : Nat) (vs : List Value)
    (locals : Locals) (fuel : Nat) :
    Carries e.options count (Matcher.collect (m.eval call e.fuel body) body.result fuel)
      (loop (execAll e (.markOffset n :: (statements e.functions body (n + 1)).1 ++
        [.takeItem body.result n, .stopUnlessMoved n])) fuel)
      ((.itemsOf n, .values vs) :: locals) fun items flow l =>
        flow = .next ∧ l = (.itemsOf n, .values (vs ++ items)) :: locals := by
  induction fuel generalizing vs with
  | zero => exact .outOfFuel
  | succ fuel ihfuel =>
    rw [collect_succ]
    refine .bind (pass_carries ih n vs locals) ?_
    rintro found _ _ ⟨rfl, rfl⟩
    match found with
    | none => exact .pure ⟨rfl, rfl⟩
    | some (item, true) => exact .pure ⟨rfl, rfl⟩
    | some (item, false) =>
      refine .map_left (ihfuel (vs ++ [item])) ?_
      rintro items _ _ ⟨rfl, rfl⟩
      refine ⟨rfl, ?_⟩
      rw [List.append_assoc]
      rfl

theorem repeated_carried {nonempty : Bool} (ih : Carried e count m call body) :
    Carried e count m call (.repeated result nonempty body) := by
  intro n locals
  rw [Matcher.eval]
  have hstart : ∀ fr, exec e (.startItems n) (machine fr locals) =
      .ok .next (machine fr ((.itemsOf n, .values []) :: locals)) := fun _ => rfl
  refine .right hstart ?_
  have hloop : Performs e count (Matcher.collect (m.eval call e.fuel body) body.result e.fuel)
      (.loop (.markOffset n :: (statements e.functions body (n + 1)).1 ++
        [.takeItem body.result n, .stopUnlessMoved n])) ((.itemsOf n, .values []) :: locals)
      fun items l => l = (.itemsOf n, .values items) :: locals := loop_carries ih n [] locals e.fuel
  refine hloop.cons ?_
  rintro items _ rfl
  refine (performs_set result (eval_items nonempty List.lookup_cons_self)).singleton.mono ?_
  rintro _ _ rfl
  exact .cons_items n _ _

/-- The statements of every operation carry it out. -/
theorem statements_carry (hcall : Corresponds e m call) (o : Op) (ho : Fits e.program count o) :
    Carried e count m call o := by
  induction o using Op.inductionOn with
  | named result description body ih => exact named_carried (ih ho)
  | choice result items ih =>
    have hitems := fitsAll_iff.mp ho.2
    exact choice_carried (fun o hmem => ih o hmem (hitems o hmem)) ho.1
  | action result place site slots body ih =>
    exact action_carried hcall.program hcall.code ho.2.1 ho.1 (ih ho.2.2)
  | sequence result place items ih =>
    have hitems := fitsAll_iff.mp ho
    exact sequence_carried fun o hmem => ih o hmem (hitems o hmem)
  | lookahead result place negated body ih => exact lookahead_carried (ih ho)
  | predicate result negated site slots => exact predicate_carried hcall.program hcall.code ho
  | optional result body ih => exact optional_carried (ih ho)
  | repeated result nonempty body ih => exact repeated_carried (ih ho)
  | call result rule =>
    have hrule : rule < e.program.rules.size := ho
    exact call_carried hcall (by simpa [Setting.functions, ruleFunctions, Program.ruleNames])
  | literal result value ignoreCase description =>
    exact fun n locals => step_does (terminal_literal value ignoreCase description) rfl n
  | charClass result members description =>
    exact fun n locals => step_does (terminal_charValue members.accepts description) rfl n
  | any result =>
    exact fun n locals => step_does (terminal_charValue (fun _ => true) State.anyCharacter) rfl n

end

end Packrat.Emit
