/-
# `Choices.Command.Run` — what a command line comes to

A line that is read is run: it prints the size alone or the items, or it
fails with a fault.  Sizes are checked before the first item is printed, so
a run that fails has printed nothing.

Every line comes to one `Outcome`, and with it to an exit code: 0 for a run
that printed, 1 for a run that failed, 2 for a line that is not accepted.
A line that asks for a description is accepted and has no run.
-/
import Choices.Command.Line
import Choices.Combination.Branches
import Choices.Listing
import Choices.Permutation.Branches
import Choices.Product.Branches

namespace Choices

/-- The report of a fault quotes its message, in which no character needs an
escape. -/
def Fault.report (fault : Fault) : String :=
  "Error: \"" ++ fault.message ++ "\""

/-- What a command line comes to: a run that printed its output, a run that
failed before it printed anything, or no run. -/
inductive Outcome where
  | printed (output : String)
  | failed (fault : Fault)
  | refused
  | described
deriving DecidableEq

namespace Outcome

def exitCode : Outcome → Nat
  | .printed _ => 0
  | .failed _ => 1
  | .refused => 2
  | .described => 0

/-- What is written to standard output. -/
def output : Outcome → String
  | .printed output => output
  | _ => ""

/-- What is reported, if anything. -/
def report? : Outcome → Option String
  | .failed fault => some fault.report
  | _ => none

/-- The outcome of a run whose output is known or fails. -/
def ofOutput : Except Fault String → Outcome
  | .ok output => .printed output
  | .error fault => .failed fault

/-- The outcome of a line that has no run. -/
def ofStop : Command.Stop → Outcome
  | .refused => .refused
  | .described => .described

end Outcome

namespace Command

/-- The rows of strings, ready to be picked from. -/
def toRows (rows : List (List String)) : Rows String :=
  rows.map List.toArray

/-- The number of items a command lists. -/
def size : Command → Except Fault Nat
  | .permute n k => Count.permutations n k
  | .combine n k => Count.combinations n k
  | .cartesian rows => (toRows rows).size

/-- The lines a command prints, with the work in branches or not. -/
def lines (parallel : Bool) : Command → Except Fault String
  | .permute n k =>
    (if parallel then branchedPermutations n k else permutations n k).map Listing.numberLines
  | .combine n k =>
    (if parallel then branchedCombinations n k else combinations n k).map Listing.numberLines
  | .cartesian rows =>
    (if parallel then branchedProduct (toRows rows) else product (toRows rows)).map Listing.lines

def Invocation.output (invocation : Invocation) : Except Fault String :=
  if invocation.count then invocation.command.size.map Listing.countLine
  else invocation.command.lines invocation.parallel

/-- What a command line comes to. -/
def run (words : List String) : Outcome :=
  match read words with
  | .ok invocation => .ofOutput invocation.output
  | .error stop => .ofStop stop

end Command
end Choices
