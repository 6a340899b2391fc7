import ArithLogic.CommandLine.Run

/-!
# ArithLogic.Main

The command.
-/

namespace ArithLogic.CommandLine

/-- The text of a source. -/
def readOrigin : Origin → IO String
  | .text source => pure source
  | .file path => IO.FS.readFile path
  | .standardInput => do (← IO.getStdin).readToEnd

/-- Writes a notice. -/
def writeNotice (notice : Notice) : IO Unit := do
  IO.eprintln notice.heading
  if let .report _ _ place := notice then
    IO.eprintln ("  at " ++ place.text)

/-- Writes what the command leaves behind, and returns its exit code. -/
def writeOutcome (outcome : Outcome) : IO UInt32 := do
  IO.print outcome.output
  outcome.notices.forM writeNotice
  return if outcome.success then 0 else 1

/-- Runs the command with options. -/
def runOptions (options : Options) : IO UInt32 := do
  match ← (readOrigin options.origin).toBaseIO with
  | .error error => writeOutcome (unreadable (toString error))
  | .ok source =>
    let isTerminal ← (← IO.getStdout).isTty
    match runSource options isTerminal options.origin.name source with
    | .ok outcome => writeOutcome outcome
    | .error breach => throw (IO.userError breach.message)

end ArithLogic.CommandLine

open ArithLogic CommandLine in
/-- Reads the arguments and does what they ask for. -/
def main (arguments : List String) : IO UInt32 := do
  match parseArguments arguments with
  | none =>
    IO.eprintln "error: invalid arguments, try --help"
    return 2
  | some .version => IO.print versionText; return 0
  | some .help => IO.print helpText; return 0
  | some (.run options) => runOptions options
