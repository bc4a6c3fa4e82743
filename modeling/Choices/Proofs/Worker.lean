/-
# `Choices.Proofs.Worker` — what a run writes, apart from where

An enumeration reads its workspace and never its region: where an item goes
is up to the region, what is handed out is not.  `Writes run work items
work'` says this of a run.  Started on the workspace `work`, it pushes
`items` and stops on `work'`, and it answers exactly when the region has
slots for all of them.

`Writes` composes.  A run after a run writes the items of the first and then
those of the second, and a loop writes what its rounds write.  A round may
leave a workspace other than the one it found, so the loop rule carries a
property of workspaces that each round restores.  Where a round says what it
leaves, the loop leaves what its last round does.
-/
import Choices.Worker

namespace Choices

/-! ## Filling a region -/

/-- Items go in as long as there are slots, to the stretch from `next` on. -/
theorem Region.exists_pushAll? {α : Type} (region : Region α) (items : List (List α))
    (hstop : region.next + items.length ≤ region.stop)
    (hsize : region.next + items.length ≤ region.slots.size) :
    ∃ region', region.pushAll? items = some region' ∧
      region'.next = region.next + items.length ∧
      region'.slots.size = region.slots.size ∧
      ∀ i, region'.slots[i]? =
        if region.next ≤ i ∧ i < region.next + items.length then items[i - region.next]?
        else region.slots[i]? := by
  obtain ⟨region', h⟩ := Option.isSome_iff_exists.mp (isSome_pushAll? hstop hsize)
  obtain ⟨hnext, -, hslots⟩ := bounds_of_pushAll? h
  exact ⟨region', h, hnext, hslots, getElem?_of_pushAll? h⟩

/-- As many items as a blank result has slots are the result. -/
theorem Region.pushAll?_blank {α : Type} (items : List (List α)) :
    ∃ region', (blank items.length).pushAll? items = some region' ∧
      region'.slots = items.toArray := by
  have hsize : (blankSlots items.length : Array (List α)).size = items.length :=
    Array.size_replicate
  have hroom : 0 + items.length ≤ items.length := Nat.le_of_eq (Nat.zero_add _)
  obtain ⟨region', h, -, -, hslots⟩ :=
    exists_pushAll? ⟨blankSlots items.length, 0, items.length⟩ items hroom
      (by rw [hsize]; exact hroom)
  refine ⟨region', h, Array.ext_getElem? fun i => ?_⟩
  rw [hslots i]
  simp only [Nat.zero_le, true_and, Nat.zero_add, Nat.sub_zero, List.getElem?_toArray]
  by_cases hi : i < items.length
  · rw [if_pos hi]
  · have hlen : items.length ≤ i := Nat.not_lt.mp hi
    rw [if_neg hi, List.getElem?_eq_none hlen]
    exact Array.getElem?_eq_none (by rw [hsize]; exact hlen)

/-! ## Items read off places -/

theorem map_getElem?_range {α : Type} (pool : List α) :
    (List.range pool.length).map (pool[·]?) = pool.map some := by
  refine List.ext_getElem (by simp) fun i hi _ => ?_
  have hlt : i < pool.length := by simpa using hi
  simp [hlt]

/-- Where items are read off places, the item with some index is read off the
places with that index. -/
theorem exists_getElem?_of_map_some {α ι : Type} {items : List (List α)}
    {listing : List (List ι)} {read : ι → Option α}
    (h : items.map (·.map some) = listing.map (·.map read)) {r : Nat} {places : List ι}
    (hplaces : listing[r]? = some places) :
    ∃ picked, items[r]? = some picked ∧ picked.map some = places.map read := by
  have hentry := congrArg (·[r]?) h
  simpa only [List.getElem?_map, hplaces, Option.map_some, Option.map_eq_some_iff] using hentry

namespace Worker

variable {α ι : Type}

/-- Started on the workspace `work`, whatever the region, `run` pushes
`items` and leaves the workspace `work'`. -/
def Writes (run : Worker α → Option (Worker α)) (work : Array α)
    (items : List (List α)) (work' : Array α) : Prop :=
  ∀ region : Region α, run ⟨work, region⟩ = (region.pushAll? items).map (Worker.mk work')

/-! ## The three steps -/

theorem writes_swap? (work : Array α) {i j : Nat} (hi : i < work.size) (hj : j < work.size) :
    Writes (·.swap? i j) work [] (work.swap i j) := by
  intro region
  simp [swap?, hi, hj]

theorem writes_put? (work : Array α) {i : Nat} (hi : i < work.size) (a : α) :
    Writes (·.put? i a) work [] (work.set i a) := by
  intro region
  simp [put?, hi]

theorem writes_emit? (work : Array α) {start : Nat} (h : start ≤ work.size) :
    Writes (·.emit? start) work [(work.extract start).toList] work := by
  intro region
  simp only [Region.pushAll?_cons, Region.pushAll?_nil, Option.bind_fun_some]
  exact if_pos h

/-! ## Runs after runs -/

theorem Writes.bind {f g : Worker α → Option (Worker α)} {work work₁ work₂ : Array α}
    {items items' : List (List α)} (hf : Writes f work items work₁)
    (hg : Writes g work₁ items' work₂) :
    Writes (fun worker => (f worker).bind g) work (items ++ items') work₂ := by
  intro region
  show (f ⟨work, region⟩).bind g = _
  rw [hf region, Region.pushAll?_append]
  cases region.pushAll? items with
  | none => rfl
  | some region' => exact hg region'

/-- The loop rule.  `Good` is what each round finds and restores. -/
theorem writes_foldlM {step : Worker α → ι → Option (Worker α)}
    {items : ι → List (List α)} {Good : Array α → Prop} : ∀ {xs : List ι},
    (∀ x ∈ xs, ∀ work, Good work →
      ∃ work', Good work' ∧ Writes (step · x) work (items x) work') →
    ∀ work, Good work →
      ∃ work', Good work' ∧
        Writes (fun worker => xs.foldlM step worker) work (xs.flatMap items) work' := by
  intro xs
  induction xs with
  | nil =>
      intro _ work hwork
      exact ⟨work, hwork, fun region => rfl⟩
  | cons x xs ih =>
      intro hround work hwork
      obtain ⟨work₁, hwork₁, hx⟩ := hround x List.mem_cons_self work hwork
      obtain ⟨work₂, hwork₂, hxs⟩ :=
        ih (fun y hy => hround y (List.mem_cons_of_mem x hy)) work₁ hwork₁
      exact ⟨work₂, hwork₂, hx.bind hxs⟩

/-- The loop rule where each round leaves a workspace of its own.  The loop
leaves the one of its last round. -/
theorem writes_foldlM_concat {step : Worker α → ι → Option (Worker α)}
    {items : ι → List (List α)} {Good : Array α → Prop} {left : ι → Array α}
    {xs : List ι} {last : ι}
    (hround : ∀ x ∈ xs ++ [last], ∀ work, Good work →
      Good (left x) ∧ Writes (step · x) work (items x) (left x))
    {work : Array α} (hwork : Good work) :
    Writes (fun worker => (xs ++ [last]).foldlM step worker) work
      ((xs ++ [last]).flatMap items) (left last) := by
  have hinit : ∀ x ∈ xs, ∀ work, Good work →
      ∃ work', Good work' ∧ Writes (step · x) work (items x) work' := by
    intro x hx work hwork
    exact ⟨left x, hround x (List.mem_append_left [last] hx) work hwork⟩
  obtain ⟨work₁, hwork₁, hxs⟩ := writes_foldlM hinit work hwork
  have hlast := (hround last List.mem_concat_self work₁ hwork₁).2
  intro region
  simpa using hxs.bind hlast region

/-- Without the workspace, a run is a list of pushes. -/
theorem Writes.map_region {run : Worker α → Option (Worker α)} {work work' : Array α}
    {items : List (List α)} (h : Writes run work items work') (region : Region α) :
    (run ⟨work, region⟩).map Worker.region = region.pushAll? items := by
  rw [h region, Option.map_map]
  exact Option.map_id'

/-- Run on a region with room for the items, it puts them in the next slots,
and no other slot changes. -/
theorem Writes.run_region {run : Worker α → Option (Worker α)} {work work' : Array α}
    {items : List (List α)} (h : Writes run work items work') (region : Region α)
    (hstop : region.next + items.length ≤ region.stop)
    (hsize : region.stop ≤ region.slots.size) :
    ∃ region', run ⟨work, region⟩ = some ⟨work', region'⟩ ∧
      region'.next = region.next + items.length ∧ region'.stop = region.stop ∧
      region'.slots.size = region.slots.size ∧
      (∀ r < items.length, region'.slots[region.next + r]? = items[r]?) ∧
      ∀ i, i < region.next ∨ region.next + items.length ≤ i →
        region'.slots[i]? = region.slots[i]? := by
  obtain ⟨region', hpush⟩ := Option.isSome_iff_exists.mp
    (Region.isSome_pushAll? hstop (Nat.le_trans hstop hsize))
  obtain ⟨hnext, hstop', hsize'⟩ := Region.bounds_of_pushAll? hpush
  have hslots := Region.getElem?_of_pushAll? hpush
  refine ⟨region', ?_, hnext, hstop', hsize', fun r hr => ?_, fun i hi => ?_⟩
  · rw [h, hpush]
    rfl
  · rw [hslots, if_pos (by omega), Nat.add_sub_cancel_left]
  · rw [hslots, if_neg (by omega)]

/-- Run on a blank result with a slot for each item, it gives the items. -/
theorem Writes.run_blank {run : Worker α → Option (Worker α)} {work work' : Array α}
    {items : List (List α)} (h : Writes run work items work') :
    ∃ worker, run ⟨work, Region.blank items.length⟩ = some worker ∧
      worker.region.slots.toList = items := by
  obtain ⟨region', hpush, hslots⟩ := Region.pushAll?_blank items
  refine ⟨⟨work', region'⟩, ?_, ?_⟩
  · rw [h, hpush]
    rfl
  · show region'.slots.toList = items
    rw [hslots]

end Worker
end Choices
