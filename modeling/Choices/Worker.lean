/-
# `Choices.Worker` — a workspace that writes items into a region

Both enumerations of indices work the same way: one small array is changed
step by step, and whenever it holds a finished item the item is copied into
the next slot of a region.  `Worker` pairs the two.  What an enumeration
may do with it is here: exchange two places of the workspace, write one
place, hand out the workspace from some place on.

Each of the three is checked: a place outside the workspace, or a full
region, answers `none`.

An enumeration may also count what it hands out, each call adding up the
counts of the calls it makes.  The region keeps the same count, since it moves
on by one slot for each item and for nothing else.  `Counted` is the relation
between the two, with a rule for each way to go on.
-/
import Choices.Region

namespace Choices

/-- A workspace, and the region its finished items go to. -/
structure Worker (α : Type) where
  work : Array α
  region : Region α

namespace Worker

variable {α : Type}

/-- Exchanges two places of the workspace. -/
def swap? : Worker α → (i j : Nat) → Option (Worker α)
  | ⟨work, region⟩, i, j =>
    if h : i < work.size ∧ j < work.size then some ⟨work.swap i j h.1 h.2, region⟩ else none

/-- Writes one place of the workspace. -/
def put? : Worker α → Nat → α → Option (Worker α)
  | ⟨work, region⟩, i, a =>
    if h : i < work.size then some ⟨work.set i a h, region⟩ else none

/-- Hands out the workspace from place `start` on. -/
def emit? : Worker α → Nat → Option (Worker α)
  | ⟨work, region⟩, start =>
    if start ≤ work.size then
      let item := (work.extract start).toList
      (region.push? item).map (Worker.mk work)
    else none

/-! ## Steps that leave the region alone -/

theorem region_of_swap? {worker worker' : Worker α} {i j : Nat}
    (h : worker.swap? i j = some worker') : worker'.region = worker.region := by
  obtain ⟨work, region⟩ := worker
  simp only [swap?, Option.dite_none_right_eq_some, Option.some.injEq] at h
  obtain ⟨_, rfl⟩ := h
  rfl

theorem region_of_put? {worker worker' : Worker α} {i : Nat} {a : α}
    (h : worker.put? i a = some worker') : worker'.region = worker.region := by
  obtain ⟨work, region⟩ := worker
  simp only [put?, Option.dite_none_right_eq_some, Option.some.injEq] at h
  obtain ⟨_, rfl⟩ := h
  rfl

/-! ## How many items a run hands out -/

/-- An answer with a count, beside the answer alone.  The count has gone up
from `total` by as many slots as the region has moved on from `start`. -/
inductive Counted (total start : Nat) : Option (Nat × Worker α) → Option (Worker α) → Prop
  | refused : Counted total start none none
  | answered {total' : Nat} {worker : Worker α} :
      total' + start = total + worker.region.next →
      Counted total start (some (total', worker)) (some worker)

theorem counted_emit? (start : Nat) (worker : Worker α) :
    Counted 0 worker.region.next ((worker.emit? start).map (1, ·)) (worker.emit? start) := by
  cases h : worker.emit? start with
  | none => exact .refused
  | some worker' =>
    obtain ⟨work, region⟩ := worker
    simp only [emit?, Option.ite_none_right_eq_some, Option.map_eq_some_iff] at h
    obtain ⟨-, region', hpush, rfl⟩ := h
    obtain ⟨-, rfl⟩ := Region.push?_eq_some_iff.mp hpush
    exact .answered (show 1 + region.next = 0 + (region.next + 1) by omega)

namespace Counted

variable {total start : Nat} {counted : Option (Nat × Worker α)} {answer : Option (Worker α)}

/-- Counted from 0, the count is the way of the region. -/
theorem eq_map (h : Counted 0 start counted answer) :
    counted = answer.map fun worker => (worker.region.next - start, worker) := by
  cases h with
  | refused => rfl
  | @answered total' worker h =>
    rw [Option.map_some, show worker.region.next - start = total' by omega]

/-- A count that starts later may be read as one that started earlier. -/
theorem of_later {total' later : Nat} (h : Counted total' later counted answer)
    (hlater : total' + start = total + later) : Counted total start counted answer := by
  cases h with
  | refused => exact .refused
  | answered h => exact .answered (by omega)

/-- What goes on behind an answer. -/
theorem bind {total' start' : Nat} {f : Nat × Worker α → Option (Nat × Worker α)}
    {g : Worker α → Option (Worker α)} (h : Counted total' start' counted answer)
    (hfg : ∀ written worker, written + start' = total' + worker.region.next →
      Counted total start (f (written, worker)) (g worker)) :
    Counted total start (counted.bind f) (answer.bind g) := by
  cases h with
  | refused => exact .refused
  | answered h => exact hfg _ _ h

/-- What goes on behind a step that leaves the region alone. -/
theorem of_region {worker : Worker α} {step : Option (Worker α)}
    {f : Worker α → Option (Nat × Worker α)} {g : Worker α → Option (Worker α)}
    (hstep : ∀ {worker'}, step = some worker' → worker'.region = worker.region)
    (hfg : ∀ worker', Counted total worker'.region.next (f worker') (g worker')) :
    Counted total worker.region.next (step.bind f) (step.bind g) := by
  cases step with
  | none => exact .refused
  | some worker' =>
    rw [← hstep rfl]
    exact hfg worker'

/-- A step that leaves the region alone leaves the count alone. -/
theorem of_step {total' : Nat} {worker : Worker α} {step : Option (Worker α)}
    (hstep : ∀ {worker'}, step = some worker' → worker'.region = worker.region)
    (h : total' + start = total + worker.region.next) :
    Counted total start (step.bind fun worker' => some (total', worker')) step := by
  cases step with
  | none => exact .refused
  | some worker' =>
    rw [← hstep rfl] at h
    exact .answered h

/-- What was counted from 0 is added to a total. -/
theorem add (h : Counted 0 start counted answer) :
    Counted total start (counted.bind fun (written, worker) => some (total + written, worker))
      answer := by
  cases h with
  | refused => exact .refused
  | answered h => exact .answered (by omega)

/-- A loop counts what its rounds count. -/
theorem foldlM {ι : Type} {body : Nat × Worker α → ι → Option (Nat × Worker α)}
    {step : Worker α → ι → Option (Worker α)}
    (hround : ∀ i total worker,
      Counted total worker.region.next (body (total, worker) i) (step worker i)) :
    ∀ (xs : List ι) (total : Nat) (worker : Worker α),
      Counted total worker.region.next (xs.foldlM body (total, worker))
        (xs.foldlM step worker) := by
  intro xs
  induction xs with
  | nil => intro total worker; exact .answered rfl
  | cons x xs ih =>
    intro total worker
    rw [List.foldlM_cons, List.foldlM_cons]
    exact bind (hround x total worker) fun total' worker' h => (ih total' worker').of_later h

end Counted

end Worker
end Choices
