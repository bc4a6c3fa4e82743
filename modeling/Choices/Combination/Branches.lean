/-
# `Choices.Combination.Branches` — selections from independent branches

The selections of `k` of `n` fall into one span for each first element: a
selection that starts with `first` goes on with `k - 1` of the
`n - 1 - first` indices behind it.  The spans are uneven, each is as long
as that count says, and together they are the whole result.  Each has a
branch of its own with a fresh buffer.  The list that comes out is the one
of `combinations`, order included.
-/
import Choices.Branch
import Choices.Combination.Basic

namespace Choices

/-- The branch that fills `span` with the selections that start with
`first`. -/
def combinationBranch (domain : Array Nat) (k first : Nat) (span : Span) : Branch Nat where
  span := span
  fill? region := do
    let element ← domain[first]?
    let worker ← Worker.put? ⟨Array.replicate k 0, region⟩ 0 element
    let worker ← worker.choose? domain (k - 1) (first + 1)
    return worker.region

/-- The branches for `size` selections in spans of the given lengths. -/
def combinationBranches? (n k size : Nat) (lengths : List Nat) :
    Option (List (Branch Nat)) := do
  let domain := Array.range n
  let spans ← Span.cuts? lengths 0 size
  return spans.zipIdx.map fun (span, first) => combinationBranch domain k first span

/-- Every ascending selection of `k` of the indices below `n`, found by one
branch for each first element. -/
def branchedCombinations (n k : Nat) : Except Fault (List (List Nat)) :=
  if k = 0 then combinations n k
  else do
    let size ← Count.combinations n k
    let lengths ← (List.range (n - k + 1)).mapM fun first =>
      Count.combinations (n - 1 - first) (k - 1)
    -- the lengths add up to the size, so each branch has just the slots it needs
    let slots := (combinationBranches? n k size lengths).bind
      (Branch.runAll? · (Region.blankSlots size))
    .ok (slots.elim [] Array.toList)

theorem branchedCombinations_zero (n : Nat) : branchedCombinations n 0 = .ok [[]] := by
  simp [branchedCombinations, combinations_zero]

end Choices
