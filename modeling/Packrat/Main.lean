import Packrat.CommandLine.Directory

/-!
# The program

Hands the arguments, the environment and the files to the command line.
-/

namespace Packrat.CommandLine

/-- The reason of an error of the operating system. -/
def readErrorOf : IO.Error → ReadError
  | .noFileOrDirectory .. => .notFound
  | .inappropriateType _ 20 _ => .notADirectory
  | .inappropriateType _ 21 _ => .isADirectory
  | .invalidArgument _ 36 _ => .nameTooLong
  | e => .other (toString e)

/-- What a reading action gives, as text. -/
def attemptRead (read : IO ByteArray) : IO (Except ReadError String) := do
  match ← read.toBaseIO with
  | .ok bytes => return textOf bytes
  | .error e => return .error (readErrorOf e)

/-- Everything that is left of the standard input. -/
def readStandardInput : IO ByteArray := do (← IO.getStdin).readBinToEnd

/-- The operating system as a host. -/
def systemHost : Host IO where
  file path := attemptRead (IO.FS.readBinFile path)
  standardInput := attemptRead readStandardInput

end Packrat.CommandLine

/-- Runs the command and ends with its exit code. -/
def main (arguments : List String) : IO UInt32 := do
  let level := (← IO.getEnv "RUST_LOG").getD "WARN"
  let outcome ← Packrat.CommandLine.run Packrat.CommandLine.systemHost level arguments
  IO.print outcome.out
  IO.eprint outcome.err
  return outcome.code.toUInt32
