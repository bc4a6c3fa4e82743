/-
# `Choices.Combination.Basic` — unordered selections of indices

`combinations n k` lists every selection of `k` of the indices `0 … n-1`,
each as an ascending list, in lexicographic order.  A buffer of `k` places
is filled from the left.  Each place takes, one after another, the elements
behind the one the place before it took, and stops where too few would be
left for the places after it.  Places right of the one being filled may
hold anything: they are written before the buffer is handed out.

The count comes first, as it does for arrangements.

`chooseCounted?` is the same run with its own count of what it hands out, and
the count is the way that the region has moved on (`chooseCounted?_eq`).
-/
import Choices.Count
import Choices.Worker

namespace Choices

namespace Worker

variable {α : Type}

/-- Fills the last `remaining` places of the buffer with ascending choices
from `domain`, from index `start` on, and hands out every filled buffer. -/
def choose? (domain : Array α) : (remaining start : Nat) → Worker α → Option (Worker α)
  | 0, _, worker => worker.emit? 0
  | rest + 1, start, worker =>
    if rest < worker.work.size ∧ rest < domain.size ∧ start + rest ≤ domain.size then
      let slot := worker.work.size - (rest + 1)
      -- the last index that leaves `rest` elements behind it is `size - rest - 1`
      (List.range' start (domain.size - rest - start)).foldlM (fun worker i => do
        let element ← domain[i]?
        let worker ← worker.put? slot element
        choose? domain rest (i + 1) worker) worker
    else none

theorem choose?_zero (domain : Array α) (start : Nat) (worker : Worker α) :
    choose? domain 0 start worker = worker.emit? 0 := by
  simp only [choose?]

/-- The same run with a count of the selections it hands out, summed up from
choice to choice. -/
def chooseCounted? (domain : Array α) :
    (remaining start : Nat) → Worker α → Option (Nat × Worker α)
  | 0, _, worker => (worker.emit? 0).map (1, ·)
  | rest + 1, start, worker =>
    if rest < worker.work.size ∧ rest < domain.size ∧ start + rest ≤ domain.size then
      let slot := worker.work.size - (rest + 1)
      (List.range' start (domain.size - rest - start)).foldlM (fun (total, worker) i => do
        let element ← domain[i]?
        let worker ← worker.put? slot element
        let (written, worker) ← chooseCounted? domain rest (i + 1) worker
        return (total + written, worker)) (0, worker)
    else none

theorem counted_choose? (domain : Array α) : ∀ (remaining start : Nat) (worker : Worker α),
    Counted 0 worker.region.next (chooseCounted? domain remaining start worker)
      (choose? domain remaining start worker) := by
  intro remaining
  induction remaining with
  | zero =>
    intro start worker
    exact counted_emit? 0 worker
  | succ rest ih =>
    intro start worker
    unfold chooseCounted? choose?
    split
    · refine Counted.foldlM (fun i total worker => ?_) _ 0 worker
      cases domain[i]? with
      | none => exact .refused
      | some element =>
        exact Counted.of_region region_of_put? fun worker' => (ih (i + 1) worker').add
    · exact .refused

/-- The count is the number of slots that the region has moved on. -/
theorem chooseCounted?_eq (domain : Array α) (remaining start : Nat) (worker : Worker α) :
    chooseCounted? domain remaining start worker
      = (choose? domain remaining start worker).map fun worker' =>
          (worker'.region.next - worker.region.next, worker') :=
  (counted_choose? domain remaining start worker).eq_map

end Worker

/-- Every ascending selection of `k` of the indices below `n`, in
lexicographic order.  With nothing to pick there is one selection. -/
def combinations (n k : Nat) : Except Fault (List (List Nat)) := do
  let size ← Count.combinations n k
  if k = 0 then .ok [[]]
  else
    -- the count is exact, so every write has its slot and the run answers
    let worker := Worker.choose? (Array.range n) k 0 ⟨Array.replicate k 0, Region.blank size⟩
    .ok (worker.elim [] (·.region.slots.toList))

theorem combinations_zero (n : Nat) : combinations n 0 = .ok [[]] := by
  rw [combinations, Count.combinations_zero]
  rfl

theorem combinations_eq_error {n k : Nat} {fault : Fault}
    (h : Count.combinations n k = .error fault) : combinations n k = .error fault := by
  rw [combinations, h]
  rfl

end Choices
