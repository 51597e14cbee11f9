import Formulary.Command

/-!
# The program

Reads its arguments and the file of limits, and prints a report.
-/

namespace Formulary.Command

/-- The contents of a file, if it can be read. -/
def readContents (path : String) : IO (Option String) :=
  tryCatch (some <$> IO.FS.readFile path) fun _ => pure none

/-- Runs the command on arguments, and answers the exit status. -/
def runArguments (arguments : List String) : IO UInt32 := do
  match Invocation.ofArguments arguments with
  | .error _ =>
    (← IO.getStderr).putStrLn "usage: check|eval|tokens FORMULA [OPTIONS]"
    return 2
  | .ok invocation =>
    let contents ← match invocation.options.limitsFile with
      | some path => readContents path
      | none => pure none
    let report := invocation.run fun _ => contents
    (← IO.getStdout).putStr report.output
    (← IO.getStderr).putStr report.errors
    return report.status.toUInt32

end Formulary.Command

/-- The program, on its arguments. -/
def main (arguments : List String) : IO UInt32 := Formulary.Command.runArguments arguments
