/-
# `Choices.Main` — the program

Hands the words of the command line to `Command.run` and writes what it
comes to: output to standard output, reports to standard error.
-/
import Choices.Command.Run

namespace Choices

/-- How the program is used. -/
def usage : String :=
  "usage: choices [-c] [-p] [-v | -q] permute N K | combine N K | cartesian ROWS\n"

end Choices

/-- Runs a command line. -/
def main (words : List String) : IO UInt32 := do
  let outcome := Choices.Command.run words
  IO.print outcome.output
  if let some report := outcome.report? then
    IO.eprintln report
  match outcome with
  | .refused => IO.eprint Choices.usage
  | .described => IO.print Choices.usage
  | _ => pure ()
  return outcome.exitCode.toUInt32
