import Packrat.Grammar.Basic

/-!
# Proxy rules

A rule whose whole body is a reference says nothing of its own. Each such rule is removed, and every
reference to its name, the start included, goes to its target instead. The rules are taken in order,
and a later proxy is redirected like any other rule before its turn comes, so a chain of proxies
collapses onto the end of the chain whatever the order of its members.
-/

namespace Packrat

namespace Expr

mutual
/-- Gives every reference the name that `f` has for it. -/
def rename (f : String → String) : Expr → Expr
  | named i n b => named i n (b.rename f)
  | choice i items => choice i (renameAll f items)
  | action i c p b => action i c p (b.rename f)
  | sequence i items => sequence i (renameAll f items)
  | labeled i l b => labeled i l (b.rename f)
  | lookahead i n b => lookahead i n (b.rename f)
  | optional i b => optional i (b.rename f)
  | repeated i n b => repeated i n (b.rename f)
  | ruleRef i n => ruleRef i (f n)
  | predicate i n c p => predicate i n c p
  | literal i v c => literal i v c
  | charClass i k r => charClass i k r
  | any i => any i

/-- Renames the references in several expressions. -/
def renameAll (f : String → String) : List Expr → List Expr
  | [] => []
  | e :: es => e.rename f :: renameAll f es
end

theorem renameAll_eq_map (f : String → String) (es : List Expr) :
    renameAll f es = es.map (rename f) := by
  induction es with
  | nil => simp [renameAll]
  | cons e es ih => simp [renameAll, ih]

/-- What a reference to `name` is once `source` has given way to `target`. -/
def redirection (source target name : String) : String := if name = source then target else name

/-- Redirects references from one name to another. -/
def redirect (source target : String) (e : Expr) : Expr := e.rename (redirection source target)

/-- The target of a proxy: the name that an expression consists of. -/
def proxyTarget? : Expr → Option String
  | ruleRef _ name => some name
  | _ => none

end Expr

/-- Redirects the references in the body of a rule. -/
def Rule.redirect (source target : String) (r : Rule) : Rule :=
  { r with body := r.body.redirect source target }

namespace Grammar

/-- Rules and start rule while proxies are being removed. -/
structure Resolved where
  rules : List Rule
  start : String
  removed : Nat

/-- Takes the pending rules in order, keeping those that are no proxies behind the ones already
kept. -/
def resolveProxies (kept pending : List Rule) (start : String) (removed : Nat) : Resolved :=
  match pending with
  | [] => ⟨kept, start, removed⟩
  | rule :: pending =>
    match rule.body.proxyTarget? with
    | none => resolveProxies (kept ++ [rule]) pending start removed
    | some target =>
      resolveProxies (kept.map (·.redirect rule.name target))
        (pending.map (·.redirect rule.name target))
        (Expr.redirection rule.name target start) (removed + 1)
termination_by pending.length

/-- The grammar without proxy rules, and how many there were. -/
def removeProxies (g : Grammar) : Grammar × Nat :=
  let resolved := resolveProxies [] g.rules g.start 0
  ({ g with rules := resolved.rules, start := resolved.start }, resolved.removed)

/-- What each step of the loop keeps holds of what the loop makes. -/
theorem resolveProxies_invariant {I : List Rule → List Rule → String → Prop}
    (keep : ∀ {kept pending : List Rule} {start : String} {rule : Rule},
      rule.body.proxyTarget? = none → I kept (rule :: pending) start →
        I (kept ++ [rule]) pending start)
    (remove : ∀ {kept pending : List Rule} {start : String} {rule : Rule} {target : String},
      rule.body.proxyTarget? = some target → I kept (rule :: pending) start →
        I (kept.map (·.redirect rule.name target)) (pending.map (·.redirect rule.name target))
          (Expr.redirection rule.name target start))
    {kept pending : List Rule} {start : String} (removed : Nat) (h : I kept pending start) :
    I (resolveProxies kept pending start removed).rules []
      (resolveProxies kept pending start removed).start := by
  -- redirection changes the pending rules, so the induction is on their number
  induction hn : pending.length generalizing kept pending start removed with
  | zero =>
    obtain rfl := List.length_eq_zero_iff.mp hn
    rwa [resolveProxies]
  | succ n ih =>
    obtain ⟨rule, pending, rfl⟩ := List.exists_cons_of_length_eq_add_one hn
    have hlength : pending.length = n := Nat.succ.inj hn
    rw [resolveProxies]
    cases hrule : rule.body.proxyTarget? with
    | none => exact ih _ (keep hrule h) hlength
    | some target => exact ih _ (remove hrule h) (by rw [List.length_map, hlength])

theorem removeProxies_invariant {g : Grammar} {I : List Rule → List Rule → String → Prop}
    (keep : ∀ {kept pending : List Rule} {start : String} {rule : Rule},
      rule.body.proxyTarget? = none → I kept (rule :: pending) start →
        I (kept ++ [rule]) pending start)
    (remove : ∀ {kept pending : List Rule} {start : String} {rule : Rule} {target : String},
      rule.body.proxyTarget? = some target → I kept (rule :: pending) start →
        I (kept.map (·.redirect rule.name target)) (pending.map (·.redirect rule.name target))
          (Expr.redirection rule.name target start))
    (h : I [] g.rules g.start) : I g.removeProxies.1.rules [] g.removeProxies.1.start :=
  resolveProxies_invariant keep remove 0 h

end Grammar

end Packrat
