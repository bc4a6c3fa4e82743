/-
# `Choices.Permutation.Basic` — ordered arrangements of indices

`permutations n k` lists every ordered arrangement of `k` of the indices
`0 … n-1`.  They are found by exchanging places of one workspace.  Its
first `free` places hold what is not yet used.  One of them is exchanged
into the last free place and so fixed, the rest is arranged in the same way
with one free place and one pick less, and the exchange is undone, so that
the next choice starts from the workspace the last one started from.  After
`k` fixings the fixed end of the workspace is an arrangement.

The count comes first.  A request that has no answer is refused before the
workspace or the result exists, and the result is made with one slot per
arrangement.

`arrangeCounted?` is the same run with its own count of what it hands out, and
the count is the way that the region has moved on (`arrangeCounted?_eq`).
-/
import Choices.Count
import Choices.Worker

namespace Choices

namespace Worker

variable {α : Type}

/-- Hands out every arrangement that fixes `k` more of the `free` places,
and leaves the workspace as it was. -/
def arrange? : (k free : Nat) → Worker α → Option (Worker α)
  | 0, free, worker => worker.emit? free
  | _ + 1, 0, _ => none
  | k + 1, last + 1, worker =>
    (List.range (last + 1)).foldlM (fun worker i => do
      let worker ← worker.swap? i last
      let worker ← arrange? k last worker
      worker.swap? i last) worker

theorem arrange?_zero (free : Nat) (worker : Worker α) :
    arrange? 0 free worker = worker.emit? free := by
  simp only [arrange?]

/-- The same run with a count of the arrangements it hands out, summed up from
choice to choice. -/
def arrangeCounted? : (k free : Nat) → Worker α → Option (Nat × Worker α)
  | 0, free, worker => (worker.emit? free).map (1, ·)
  | _ + 1, 0, _ => none
  | k + 1, last + 1, worker =>
    (List.range (last + 1)).foldlM (fun (total, worker) i => do
      let worker ← worker.swap? i last
      let (written, worker) ← arrangeCounted? k last worker
      let worker ← worker.swap? i last
      return (total + written, worker)) (0, worker)

theorem counted_arrange? : ∀ (k free : Nat) (worker : Worker α),
    Counted 0 worker.region.next (arrangeCounted? k free worker) (arrange? k free worker) := by
  intro k
  induction k with
  | zero =>
    intro free worker
    exact counted_emit? free worker
  | succ k ih =>
    intro free worker
    cases free with
    | zero => exact .refused
    | succ last =>
      refine Counted.foldlM (fun i total worker => ?_) (List.range (last + 1)) 0 worker
      refine Counted.of_region region_of_swap? fun worker₁ => ?_
      refine Counted.bind (ih last worker₁) fun written worker₂ hwritten => ?_
      exact Counted.of_step region_of_swap? (by omega)

/-- The count is the number of slots that the region has moved on. -/
theorem arrangeCounted?_eq (k free : Nat) (worker : Worker α) :
    arrangeCounted? k free worker = (arrange? k free worker).map fun worker' =>
      (worker'.region.next - worker.region.next, worker') :=
  (counted_arrange? k free worker).eq_map

end Worker

/-- Every ordered arrangement of `k` of the indices below `n`.  With nothing
to pick there is one arrangement, and no workspace is needed for it. -/
def permutations (n k : Nat) : Except Fault (List (List Nat)) := do
  let size ← Count.permutations n k
  if k = 0 then .ok [[]]
  else
    -- the count is exact, so every write has its slot and the run answers
    let worker := Worker.arrange? k n ⟨Array.range n, Region.blank size⟩
    .ok (worker.elim [] (·.region.slots.toList))

theorem permutations_zero (n : Nat) : permutations n 0 = .ok [[]] := by
  rw [permutations, Count.permutations_zero]
  rfl

theorem permutations_eq_error {n k : Nat} {fault : Fault}
    (h : Count.permutations n k = .error fault) : permutations n k = .error fault := by
  rw [permutations, h]
  rfl

end Choices
