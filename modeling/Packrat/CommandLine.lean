import Packrat.Grammar.Display
import Packrat.Matcher
import Packrat.Options.Reader
import Packrat.Value.Json

/-!
# The command line

The command compiles one grammar file and prints what it is asked for: the outline of the grammar,
the source of a parser, or the value of an input file. Without a wish it prints the source. Code
blocks cannot run here; an action answers with what was matched and every predicate agrees.

What the command does is a function of its arguments, of the log level and of what it reads. Reading
is left to a `Host`, so the same function serves files on disk and files in memory. What was printed
before an error stays printed.
-/

namespace Packrat.CommandLine

/-- Why a file cannot be read. -/
inductive ReadError where
  | notFound
  | notADirectory
  | isADirectory
  | nameTooLong
  /-- The bytes are not UTF-8. -/
  | notText
  | other (message : String)
  deriving DecidableEq, Repr

/-- Wording of a reason. -/
def ReadError.message : ReadError → String
  | notFound => "No such file or directory (os error 2)"
  | notADirectory => "Not a directory (os error 20)"
  | isADirectory => "Is a directory (os error 21)"
  | nameTooLong => "File name too long (os error 36)"
  | notText => "stream did not contain valid UTF-8"
  | other message => message

/-- How the command reads what lies outside it. -/
structure Host (m : Type → Type) where
  file : String → m (Except ReadError String)
  standardInput : m (Except ReadError String)

/-- What a run leaves behind. -/
structure Outcome where
  code : Nat := 0
  out : String := ""
  err : String := ""
  deriving DecidableEq, Repr

/-! ## Arguments -/

/-- The arguments that the command takes. -/
def usage : String :=
  "Usage: pegleg GRAMMAR [--source] [--ast] [--cache] [--track-line-and-column] "
    ++ "[--options JSON] [--start RULE] [--input FILE]"

/-- What the arguments ask for. -/
structure Request where
  source : Bool := false
  outline : Bool := false
  /-- Options given as JSON. -/
  options : Options := {}
  cache : Bool := false
  trackLines : Bool := false
  start : Option String := none
  input : Option String := none
  /-- All other arguments. -/
  files : List String := []
  deriving Repr

/-- The options in force: those given as JSON and those that a flag turns on. -/
def Request.parserOptions (r : Request) : Options :=
  ⟨r.options.cache || r.cache, r.options.trackLines || r.trackLines⟩

/-- What to do with the arguments. -/
inductive Command where
  | help
  | run (request : Request)

/-- An error about an argument that should follow another. -/
def missingArgument (name : String) : String := "Expected argument to " ++ name

/-- Reads arguments in order. A request for help ends the reading, and so does the first error. -/
def readArguments (r : Request) : List String → Except String Command
  | [] => .ok (.run r)
  | "--source" :: rest => readArguments { r with source := true } rest
  | "--ast" :: rest => readArguments { r with outline := true } rest
  | "--cache" :: rest => readArguments { r with cache := true } rest
  | "--track-line-and-column" :: rest => readArguments { r with trackLines := true } rest
  | ["--options"] => .error (missingArgument "--options")
  | "--options" :: json :: rest =>
    match Options.ofJson json with
    | .ok options => readArguments { r with options } rest
    | .error p => .error ("Invalid --options: " ++ p.message json)
  | ["--start"] => .error (missingArgument "--start")
  | "--start" :: name :: rest => readArguments { r with start := some name } rest
  | ["--input"] => .error (missingArgument "--input")
  | "--input" :: file :: rest => readArguments { r with input := some file } rest
  | "-h" :: _ | "--help" :: _ => .ok .help
  | file :: rest => readArguments { r with files := r.files ++ [file] } rest

/-- The grammar file among the arguments. -/
def Request.grammarFile (r : Request) : Except String String :=
  match r.files with
  | [file] => .ok file
  | [] => .error ("No grammar file provided\n" ++ usage)
  | _ => .error "Only one grammar file may be provided"

/-! ## The log -/

/-- How much is logged. -/
inductive LogLevel where
  | off
  | error
  | warn
  | info
  | debug
  | trace
  deriving DecidableEq, Repr

/-- The names of the levels. -/
def LogLevel.names : List (String × LogLevel) :=
  [("OFF", off), ("ERROR", error), ("WARN", warn), ("INFO", info), ("DEBUG", debug),
    ("TRACE", trace)]

/-- The level of a name, in any case. -/
def LogLevel.ofName? (name : String) : Option LogLevel :=
  names.lookup (String.ofList (name.toList.map Char.toUpper))

/-- Whether the steps of a compilation are logged. -/
def LogLevel.showsSteps : LogLevel → Bool
  | debug | trace => true
  | _ => false

/-- A line of the log. -/
def logLine (origin text : String) : String := " [DEBUG] (1) " ++ origin ++ ": " ++ text ++ "\n"

/-- Options as the log shows them. -/
def optionsText (options : Options) : String :=
  "Options \x7b cache: " ++ Emit.boolText options.cache ++ ", track_line_and_column: "
    ++ Emit.boolText options.trackLines ++ " \x7d"

/-- A step of a compilation as the log shows it. -/
def stepText : CompileStep → String
  | .reading bytes => "parsing grammar (" ++ toString bytes ++ " bytes)"
  | .checking rules => "checking " ++ toString rules ++ " rules"
  | .removed proxies => "removed " ++ toString proxies ++ " proxy rules"
  | .emitting options => "emitting source with " ++ optionsText options

/-- The log of a compilation. -/
def compilationLog (file text : String) (options : Options) : String :=
  let first := "compiling \x60" ++ file ++ "\x60 with " ++ optionsText options
  logLine "pegleg" first
    ++ String.join ((compileSteps text options).map fun s => logLine "pegleg_gen" (stepText s))

/-! ## Errors -/

/-- A place in a file, in front of a message. -/
def located (file : String) (line column : Nat) (message : String) : String :=
  file ++ ":" ++ toString line ++ ":" ++ toString column ++ " " ++ message

/-- A grammar error with its place in the file. -/
def grammarErrorText (file text : String) (e : GrammarError) : String :=
  match e with
  | .malformed e => located file e.line e.column e.message
  | _ =>
    let (line, column) := Position.lineColumnAt text.toList e.offset
    located file line column e.message

/-- Why a compilation gave nothing. -/
def compileErrorText (file text : String) : CompileError → String
  | .grammar e => grammarErrorText file text e
  | .fault _ => "internal error"

/-- Why a parse of a file gave nothing. -/
def failureText (file : String) : Matcher.Failure → String
  | .parse (.mismatch e) => located file e.line e.column e.message
  | .parse e => e.message
  | .fault _ => "internal error"
  | .outOfFuel => "the parse does not end"

/-! ## Runs -/

/-- A run in progress: it prints, and it may end with an error. -/
abbrev Session (m : Type → Type) := ExceptT String (StateT Outcome m)

section

variable {m : Type → Type} [Monad m]

/-- Prints to the output. -/
def print (text : String) : Session m Unit := modify fun o => { o with out := o.out ++ text }

/-- Prints to the log. -/
def log (text : String) : Session m Unit := modify fun o => { o with err := o.err ++ text }

/-- Whether a path means the standard input: `-`, with no more than empty segments behind it. -/
def isStandardInput (path : String) : Bool :=
  match path.splitOn "/" with
  | "-" :: rest => rest.all fun segment => segment == "" || segment == "."
  | _ => false

/-- The text of a file or of the standard input. -/
def readText (host : Host m) (path : String) : Session m String := do
  let (what, read) := if isStandardInput path then ("stdin", host.standardInput)
    else ("\x60" ++ path ++ "\x60", host.file path)
  match ← read with
  | .ok text => return text
  | .error e => throw ("Failed to read " ++ what ++ ": " ++ e.message)

/-- Compiles the grammar and prints what is asked for. -/
def serve (host : Host m) (level : LogLevel) (r : Request) : Session m Unit := do
  let options := r.parserOptions
  let file ← ExceptT.mk (pure r.grammarFile)
  let text ← readText host file
  if level.showsSteps then log (compilationLog file text options)
  let compiled ← match compile text options with
    | .ok c => pure c
    | .error e => throw (compileErrorText file text e)
  if r.outline then print (compiled.grammar.outline ++ "\n")
  if r.source || (!r.outline && r.input.isNone) then print (compiled.source ++ "\n")
  match r.input with
  | none => return
  | some input =>
    let matcher ← match Matcher.bind compiled .passthrough options with
      | .ok matcher => pure matcher
      | .error e => throw e.message
    let text ← readText host input
    match (matcher.parse Matcher.ampleFuel text r.start).result with
    | .ok v => print (v.pretty ++ "\n")
    | .error e => throw (failureText input e)

/-- Checks the log level and the arguments, and serves the request. -/
def session (host : Host m) (level : String) (arguments : List String) : Session m Unit := do
  match LogLevel.ofName? level with
  | none => throw ("Invalid RUST_LOG level \x60" ++ level ++ "\x60")
  | some level =>
    match readArguments {} arguments with
    | .error e => throw e
    | .ok .help => print (usage ++ "\n")
    | .ok (.run r) => serve host level r

/-- Runs the command. -/
def run (host : Host m) (level : String) (arguments : List String) : m Outcome := do
  let (result, outcome) ← (session host level arguments).run.run {}
  match result with
  | .ok () => return outcome
  | .error e => return { outcome with code := 1, err := outcome.err ++ e ++ "\n" }

end

end Packrat.CommandLine
