import Packrat.Error
import Packrat.Grammar.Basic
import Packrat.Program.Basic
import Packrat.Text.Escape

/-!
# From grammars to programs

Lowering resolves names and numbers the code blocks. Labels disappear, since what they mean is in
the slots by now; a labeled expression becomes its body. Code sites are numbered in the order they
are met, the ones in the body of an action before the action itself.

A grammar that was not checked, or whose slots were not assigned, has no program.
-/

namespace Packrat

/-- A slot that must have been assigned. -/
def assigned? : Option Nat → Except Fault Nat
  | some slot => .ok slot
  | none => .error .notAllocated

/-- The code site of a block, its index, and the slots it reads. -/
def addSite (kind : CodeKind) (code : String) (params : Params) (sites : Array CodeSite) :
    Nat × List Nat × Array CodeSite :=
  (sites.size, params.map Prod.snd, sites.push ⟨kind, code, params.map Prod.fst⟩)

namespace Expr

mutual
/-- The operation of an expression and the code sites met so far. -/
def lower (rules : List String) : Expr → Array CodeSite → Except Fault (Op × Array CodeSite)
  | named i name body, sites => do
    let result ← assigned? i.result
    let (body, sites) ← body.lower rules sites
    return (.named result name body, sites)
  | choice i items, sites => do
    let result ← assigned? i.result
    let (items, sites) ← lowerAll rules items sites
    return (.choice result items, sites)
  | action i code params body, sites => do
    let result ← assigned? i.result
    let (body, sites) ← body.lower rules sites
    let (site, slots, sites) := addSite .action code params sites
    return (.action result (← assigned? i.place) site slots body, sites)
  | sequence i items, sites => do
    let result ← assigned? i.result
    let place ← assigned? i.place
    let (items, sites) ← lowerAll rules items sites
    return (.sequence result place items, sites)
  | labeled i _ body, sites => do
    let _ ← assigned? i.result
    body.lower rules sites
  | lookahead i negated body, sites => do
    let result ← assigned? i.result
    let place ← assigned? i.place
    let (body, sites) ← body.lower rules sites
    return (.lookahead result place negated body, sites)
  | predicate i negated code params, sites => do
    let result ← assigned? i.result
    let (site, slots, sites) := addSite .predicate code params sites
    return (.predicate result negated site slots, sites)
  | optional i body, sites => do
    let result ← assigned? i.result
    let (body, sites) ← body.lower rules sites
    return (.optional result body, sites)
  | repeated i nonempty body, sites => do
    let result ← assigned? i.result
    let (body, sites) ← body.lower rules sites
    return (.repeated result nonempty body, sites)
  | ruleRef i name, sites => do
    let result ← assigned? i.result
    match rules.findIdx? (· == name) with
    | some rule => return (.call result rule, sites)
    | none => .error (.noSuchRule name)
  | literal i value ignoreCase, sites => do
    return (.literal (← assigned? i.result) value ignoreCase (Text.quote value), sites)
  | charClass i members raw, sites => do
    return (.charClass (← assigned? i.result) members raw, sites)
  | any i, sites => do
    return (.any (← assigned? i.result), sites)

/-- The operations of several expressions, in order. -/
def lowerAll (rules : List String) :
    List Expr → Array CodeSite → Except Fault (List Op × Array CodeSite)
  | [], sites => .ok ([], sites)
  | e :: es, sites => do
    let (op, sites) ← e.lower rules sites
    let (ops, sites) ← lowerAll rules es sites
    return (op :: ops, sites)
end

end Expr

/-- The executable rules, in order. -/
def lowerRules (names : List String) :
    List Rule → Array CodeSite → Except Fault (List RuleProgram × Array CodeSite)
  | [], sites => .ok ([], sites)
  | r :: rs, sites => do
    let (body, sites) ← r.body.lower names sites
    let (rules, sites) ← lowerRules names rs sites
    return (⟨r.name, r.registers, body⟩ :: rules, sites)

/-- The program of a grammar that was checked and has its slots. -/
def Grammar.lower (g : Grammar) : Except Fault Program := do
  let (rules, code) ← lowerRules g.ruleNames g.rules #[]
  match g.findIndex? g.start with
  | some start => return ⟨g.initializer.map (·.code), rules.toArray, start, code⟩
  | none => .error (.noSuchRule g.start)

end Packrat
