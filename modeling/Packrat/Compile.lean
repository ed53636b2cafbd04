import Packrat.Emit.Source
import Packrat.Grammar.LeftRecursion
import Packrat.Grammar.Proxy
import Packrat.Grammar.Slots
import Packrat.Notation.Production
import Packrat.Program.Lower

/-!
# From grammar text to a program

Compilation is a fixed sequence of steps, and the first one that fails ends it: reading the text,
the check of references, the check for left recursion, the removal of proxy rules, the assignment of
slots, lowering and emission. The checks come before proxies are removed, so an error names the
rules that the author wrote.

Lowering cannot fail on a grammar that passed both checks. That is a fact about the steps before it
and not visible in their types, so the outcome has a case for it.
-/

namespace Packrat

/-- A grammar in its final form, with its program and the source of a parser for it. -/
structure Compiled where
  /-- The grammar without proxy rules and with its slots. -/
  grammar : Grammar
  program : Program
  source : String

/-- Why there is no compiled grammar. -/
inductive CompileError where
  | grammar (e : GrammarError)
  | fault (f : Fault)
  deriving DecidableEq, Repr

/-- The grammar of a text, if it passes the checks. -/
def checkedGrammar (text : String) : Except GrammarError Grammar := do
  let g ← Grammar.parse text
  g.checkReferences
  g.checkLeftRecursion
  return g

/-- Compiles a grammar that passed the checks. -/
def Grammar.compile (g : Grammar) (options : Options) : Except Fault Compiled := do
  let g := g.removeProxies.1.assignSlots
  let program ← g.lower
  return ⟨g, program, program.source options⟩

/-- Compiles grammar text. -/
def compile (text : String) (options : Options) : Except CompileError Compiled := do
  let g ← (checkedGrammar text).mapError .grammar
  (g.compile options).mapError .fault

/-- A step of a compilation, as a log shows it. -/
inductive CompileStep where
  | reading (bytes : Nat)
  | checking (rules : Nat)
  | removed (proxies : Nat)
  | emitting (options : Options)
  deriving DecidableEq, Repr

/-- The steps that the compilation of a text begins, in order. -/
def compileSteps (text : String) (options : Options) : List CompileStep :=
  let reading := .reading text.utf8ByteSize
  match Grammar.parse text with
  | .error _ => [reading]
  | .ok g =>
    let checking := .checking g.rules.length
    match checkedGrammar text with
    | .error _ => [reading, checking]
    | .ok g => [reading, checking, .removed g.removeProxies.2, .emitting options]

end Packrat
