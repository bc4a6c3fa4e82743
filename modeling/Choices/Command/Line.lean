/-
# `Choices.Command.Line` — a command line, read from left to right

The first plain word of a line is the name of the command, and the values
of the command follow it: two numbers for `permute` and `combine`, a text of
rows for `cartesian`.  Flags may stand anywhere, also between the values,
until a separator behind the name makes every further word a value.

Reading stops at the first word that is out of place: an unknown name or
flag, a value that cannot be read, a value too many.  What is checked at the
end is that the values are complete and that the flags of each level go
together.

`help` in the place of a command's name asks for a description, of the
whole or of the one command it names.
-/
import Choices.Command.Flags
import Choices.Numeral
import Choices.RowsText.Rows

namespace Choices

/-- What a line may ask to be listed: arrangements of `k` indices out of `n`,
selections of `k` out of `n`, or the product of rows. -/
inductive Command where
  | permute (n k : Nat)
  | combine (n k : Nat)
  | cartesian (rows : List (List String))
deriving DecidableEq

namespace Command

/-! ## Values -/

/-- The commands on two numbers. -/
inductive Pick where
  | permute
  | combine
deriving DecidableEq

def Pick.command : Pick → (n k : Nat) → Command
  | .permute, n, k => .permute n k
  | .combine, n, k => .combine n k

/-- A command whose values are being read, by what is still to come: two
numbers, the second one, a text of rows, nothing. -/
inductive Draft where
  | numbers (pick : Pick)
  | second (pick : Pick) (n : Nat)
  | rows
  | complete (command : Command)
deriving DecidableEq

def Draft.ofName? : String → Option Draft
  | "permute" => some (.numbers .permute)
  | "combine" => some (.numbers .combine)
  | "cartesian" => some .rows
  | _ => none

/-- The draft after one more value. -/
def Draft.take? : Draft → String → Option Draft
  | .numbers pick, text => (Numeral.read? text).map (.second pick)
  | .second pick n, text => (Numeral.read? text).map fun k => .complete (pick.command n k)
  | .rows, text => (RowsText.read? text).map fun rows => .complete (.cartesian rows)
  | .complete _, _ => none

def Draft.takeAll? (draft : Draft) (values : List String) : Option Draft :=
  values.foldlM Draft.take? draft

/-! ## The two levels -/

/-- A command to be run, and how. -/
structure Invocation where
  command : Command
  count : Bool
  parallel : Bool
deriving DecidableEq

/-- What is missing is refused. -/
def orRefused {α : Type} : Option α → Except Stop α
  | some a => .ok a
  | none => .error .refused

/-- Reads the words behind the name of a command. -/
def readInner (draft : Draft) (flags : Flags) : List String → Except Stop (Draft × Flags)
  | [] => .ok (draft, flags)
  | word :: words =>
    match Word.ofString word with
    | .separator => do return (← orRefused (draft.takeAll? words), flags)
    | .flags marks => do readInner draft (← flags.addMarks .inner marks) words
    | .plain text => do readInner (← orRefused (draft.take? text)) flags words

/-- Puts the two levels together at the end of a line. -/
def finish (outer inner : Flags) : Draft → Except Stop Invocation
  | .complete command =>
    if outer.Consistent ∧ inner.Consistent then
      .ok ⟨command, outer.count || inner.count, outer.parallel || inner.parallel⟩
    else .error .refused
  | _ => .error .refused

/-- The names that a description can be asked for. -/
def describable : List String := ["permute", "combine", "cartesian", "help"]

/-- Reads the words behind `help`. -/
def readHelp : List String → Stop
  | [] => .described
  | [name] => if name ∈ describable then .described else .refused
  | _ => .refused

/-- Reads a line from its outer level on. -/
def readOuter (flags : Flags) : List String → Except Stop Invocation
  | [] => .error .refused
  | word :: words =>
    match Word.ofString word with
    | .separator => .error .refused
    | .flags marks => do readOuter (← flags.addMarks .outer marks) words
    | .plain "help" => .error (readHelp words)
    | .plain name => do
      let draft ← orRefused (Draft.ofName? name)
      let (draft, inner) ← readInner draft {} words
      finish flags inner draft

/-- Reads a line. -/
def read (words : List String) : Except Stop Invocation :=
  readOuter {} words

end Command
end Choices
