/-
# `Choices.Permutation.Branches` — arrangements from independent branches

The arrangements of `k` of `n` fall into `n` spans of equal length, one for
each choice of the last entry.  Each span has a branch of its own, which
starts from a fresh workspace with that entry already fixed.  The list that
comes out is the one of `permutations`, order included.
-/
import Choices.Branch
import Choices.Permutation.Basic

namespace Choices

/-- The branch that fills `span` with the arrangements whose last entry is
what place `i` of the fresh workspace holds. -/
def permutationBranch (n k i : Nat) (span : Span) : Branch Nat where
  span := span
  fill? region := do
    let worker ← Worker.swap? ⟨Array.range n, region⟩ i (n - 1)
    let worker ← worker.arrange? (k - 1) (n - 1)
    return worker.region

/-- The branches for `size` arrangements in spans of `width`. -/
def permutationBranches? (n k size width : Nat) : Option (List (Branch Nat)) := do
  let spans ← Span.chunks? size width
  return spans.zipIdx.map fun (span, i) => permutationBranch n k i span

/-- Every ordered arrangement of `k` of the indices below `n`, found by one
branch for each last entry. -/
def branchedPermutations (n k : Nat) : Except Fault (List (List Nat)) :=
  if k = 0 then permutations n k
  else do
    let size ← Count.permutations n k
    let width ← Count.permutations (n - 1) (k - 1)
    -- each branch has just the slots it needs, so the run answers
    let slots := (permutationBranches? n k size width).bind
      (Branch.runAll? · (Region.blankSlots size))
    .ok (slots.elim [] Array.toList)

theorem branchedPermutations_zero (n : Nat) : branchedPermutations n 0 = .ok [[]] := by
  simp [branchedPermutations, permutations_zero]

end Choices
