/-
# `Choices.Fault` — the ways an enumeration is refused

Every function of the library either answers or says why it cannot, and
there are four reasons.  Three are about the request itself: more picked
than there are, no rows, a row with nothing in it.  The fourth is about
size: counts are handed on as numbers of 64 bits, so a count past
`capacity` is a fault and never a wrapped or a shortened answer.

The wording stands in `Fault.message` alone.  Everything else speaks of
the causes.
-/

namespace Choices

/-- The largest count that is handed on, the largest number of 64 bits. -/
def capacity : Nat := Nat.pow 2 64 - 1

/-- What a count is the size of. -/
inductive Quantity where
  | factorial
  | permutations
  | combinations
  | cartesianProduct
deriving DecidableEq

/-- The name of a quantity in messages. -/
def Quantity.name : Quantity → String
  | .factorial => "factorial"
  | .permutations => "permutations"
  | .combinations => "combinations"
  | .cartesianProduct => "cartesian product"

/-- Why a request is refused. -/
inductive Fault where
  /-- More are to be picked than there are. -/
  | domain (n k : Nat)
  /-- The size of the answer is past the capacity. -/
  | overflow (what : Quantity)
  /-- There are no rows to pick from. -/
  | emptyInput
  /-- The row with this index, from 0, has no elements. -/
  | emptyRow (row : Nat)
deriving DecidableEq

/-- The text of a fault. -/
def Fault.message : Fault → String
  | .domain n k => s!"n ({n}) is less than k ({k})"
  | .overflow what => s!"size of {what.name} overflows usize"
  | .emptyInput => "cannot combine an empty set of rows"
  | .emptyRow row => s!"row {row} has no elements to choose from"

/-- An answer that is missing only because its size is past the capacity. -/
def orOverflow {α : Type} (what : Quantity) : Option α → Except Fault α
  | some a => .ok a
  | none => .error (.overflow what)

theorem orOverflow_eq_ok_iff {α : Type} {what : Quantity} {o : Option α} {a : α} :
    orOverflow what o = .ok a ↔ o = some a := by
  cases o with
  | none => simp [orOverflow]
  | some b => simp [orOverflow]

theorem orOverflow_eq_error_iff {α : Type} {what : Quantity} {o : Option α} {f : Fault} :
    orOverflow what o = .error f ↔ o = none ∧ f = .overflow what := by
  cases o with
  | none => simp [orOverflow, eq_comm]
  | some b => simp [orOverflow]

end Choices
