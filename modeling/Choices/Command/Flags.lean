/-
# `Choices.Command.Flags` — the flags on one side of the command's name

A line has two levels, what comes before the name of the command and what
comes behind it, and each keeps flags of its own.  On one level the flags
for the size and for branches may stand once, those for messages any number
of times, but not both kinds.  The description may be asked for on either
level, the version on the outer one only; both end the reading at once.
-/
import Choices.Command.Word

namespace Choices.Command

/-- The two sides of the command's name. -/
inductive Level where
  | outer
  | inner
deriving DecidableEq

/-- Why no command comes out of a line. -/
inductive Stop where
  /-- The line is not accepted. -/
  | refused
  /-- The line asks for a description and not for a run. -/
  | described
deriving DecidableEq

/-- The flags met on one level. -/
structure Flags where
  count : Bool := false
  parallel : Bool := false
  verbose : Bool := false
  quiet : Bool := false
deriving DecidableEq

namespace Flags

def add (level : Level) (flags : Flags) : Flag → Except Stop Flags
  | .count => if flags.count then .error .refused else .ok { flags with count := true }
  | .parallel =>
    if flags.parallel then .error .refused else .ok { flags with parallel := true }
  | .verbose => .ok { flags with verbose := true }
  | .quiet => .ok { flags with quiet := true }
  | .help => .error .described
  | .version => if level = .outer then .error .described else .error .refused

/-- The flags after the marks of one word, taken from left to right. -/
def addMarks (level : Level) (flags : Flags) : List (Option Flag) → Except Stop Flags
  | [] => .ok flags
  | none :: _ => .error .refused
  | some flag :: marks => do addMarks level (← flags.add level flag) marks

/-- Flags for more and for fewer messages do not go together. -/
def Consistent (flags : Flags) : Prop := ¬(flags.verbose = true ∧ flags.quiet = true)

instance (flags : Flags) : Decidable flags.Consistent :=
  inferInstanceAs (Decidable (¬_))

theorem addMarks_append (level : Level) (flags : Flags) (marks marks' : List (Option Flag)) :
    flags.addMarks level (marks ++ marks') =
      (flags.addMarks level marks).bind (·.addMarks level marks') := by
  induction marks generalizing flags with
  | nil => rfl
  | cons mark marks ih =>
    cases mark with
    | none => rfl
    | some flag =>
      simp only [List.cons_append, addMarks]
      cases flags.add level flag with
      | error stop => rfl
      | ok flags' => exact ih flags'

end Flags
end Choices.Command
