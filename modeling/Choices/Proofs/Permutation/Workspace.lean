/-
# `Choices.Proofs.Permutation.Workspace` — any workspace, any region

The enumeration never looks at what it moves.  What is listed from a workspace
is what is listed from its places, with every place replaced by what stands
there: `arrangements_map`, for the function that reads a place.  So the listing
of indices is the whole story, also where a workspace holds one thing twice.

The same holds of where items go.  A run needs as many open slots as there are
arrangements, wherever the region starts, and it touches no other slot
(`Worker.Writes.run_region`).
-/
import Choices.Proofs.Permutation.Arrangements

namespace Choices

variable {α β : Type}

/-! ## Places and what stands there -/

theorem vacate_map (f : α → β) (pool : List α) (i : Nat) :
    vacate (pool.map f) i = (vacate pool i).map f := by
  rcases List.eq_nil_or_concat' pool with rfl | ⟨init, last, rfl⟩
  · rfl
  · rw [List.map_append, List.map_singleton, vacate_concat, vacate_concat, List.map_set]

theorem arrangements_map (f : α → β) : ∀ (k : Nat) (pool : List α),
    arrangements k (pool.map f) = (arrangements k pool).map (·.map f) := by
  intro k
  induction k with
  | zero => intro pool; rfl
  | succ k ih =>
      intro pool
      rw [arrangements_succ, arrangements_succ, List.zipIdx_map, List.flatMap_map,
        List.map_flatMap]
      refine List.flatMap_congr ?_
      rintro ⟨a, i⟩ -
      simp [vacate_map, ih]

/-- The arrangement of a pool with some index is read off the arrangement of
places with that index. -/
theorem getElem?_arrangements_places {k r : Nat} {pool : List α} {places : List Nat}
    (h : (arrangements k (List.range pool.length))[r]? = some places) :
    ∃ picked, (arrangements k pool)[r]? = some picked ∧
      picked.map some = places.map (pool[·]?) := by
  refine exists_getElem?_of_map_some ?_ h
  rw [← arrangements_map, ← arrangements_map, map_getElem?_range]

namespace Worker

/-- Started on any workspace, of which some places at the front are free, and
on any region with room for the arrangements of as many indices: it answers,
takes a slot for each, and gives the workspace back.  An arrangement of indices
says which places the item in its slot is read from, and behind them stands
what was not free.  No other slot changes. -/
theorem arrange?_fills_region (work : Array α) (region : Region α) {k free : Nat}
    (hfree : free ≤ work.size) (hk : k ≤ free)
    (hroom : region.next + free.factorial / (free - k).factorial ≤ region.stop)
    (hstop : region.stop ≤ region.slots.size)
    -- slots are counted in 64 bits
    (hslots : region.stop - region.next ≤ capacity) :
    ∃ listing region', permutations free k = .ok listing ∧
      listing.length = free.factorial / (free - k).factorial ∧
      arrange? k free ⟨work, region⟩ = some ⟨work, region'⟩ ∧
      arrangeCounted? k free ⟨work, region⟩
        = some (free.factorial / (free - k).factorial, ⟨work, region'⟩) ∧
      region'.next = region.next + free.factorial / (free - k).factorial ∧
      region'.stop = region.stop ∧ region'.slots.size = region.slots.size ∧
      (∀ r places, listing[r]? = some places →
        ∃ picked, picked.map some = places.map (work[·]?) ∧
          region'.slots[region.next + r]? = some (picked ++ work.toList.drop free)) ∧
      ∀ i, i < region.next ∨ region.next + free.factorial / (free - k).factorial ≤ i →
        region'.slots[i]? = region.slots[i]? := by
  rw [← Nat.descFactorial_eq_div hk] at hroom ⊢
  have hlength : (work.toList.take free).length = free := by
    rw [List.length_take, Array.length_toList, Nat.min_eq_left hfree]
  have hwrites := writes_arrange? (work.toList.take free) (work.toList.drop free)
    (hlength.symm ▸ hk)
  rw [hlength, List.take_append_drop, Array.toArray_toList] at hwrites
  have hitems : ((arrangements k (work.toList.take free)).map
      (· ++ work.toList.drop free)).length = free.descFactorial k := by
    rw [List.length_map, length_arrangements, hlength]
  obtain ⟨region', hrun, hnext, hstop', hsize, hwritten, hframe⟩ :=
    hwrites.run_region region (hitems.symm ▸ hroom) hstop
  rw [hitems] at hnext hwritten hframe
  have hcount : Count.permutations free k = .ok (free.descFactorial k) :=
    Count.permutations_eq_ok_iff.mpr ⟨hk, by omega, rfl⟩
  have hcounted : arrangeCounted? k free ⟨work, region⟩
      = some (free.descFactorial k, ⟨work, region'⟩) := by
    rw [arrangeCounted?_eq, hrun, Option.map_some, hnext, Nat.add_sub_cancel_left]
  refine ⟨_, region', permutations_eq_ok hcount, length_arrangements_range free k, hrun, hcounted,
    hnext, hstop', hsize, fun r places hplaces => ?_, hframe⟩
  have hr : r < free.descFactorial k :=
    length_arrangements_range free k ▸ (List.getElem?_eq_some_iff.mp hplaces).1
  have hbelow : ∀ place ∈ places, place < free :=
    (mem_arrangements_range_iff.mp (List.mem_of_getElem? hplaces)).2.2
  rw [← hlength] at hplaces
  obtain ⟨picked, hpicked, hread⟩ := getElem?_arrangements_places hplaces
  refine ⟨picked, ?_, ?_⟩
  · rw [hread]
    refine List.map_congr_left fun place hplace => ?_
    rw [List.getElem?_take_of_lt (hbelow place hplace), Array.getElem?_toList]
  · rw [hwritten r hr, List.getElem?_map, hpicked]
    rfl

/-- Three free places, two of which hold the same letter, and one that is not
free; six of eight slots are open. -/
theorem arrange?_fills_region_letters :
    3 ≤ #['a', 'b', 'a', 'c'].size ∧ 2 ≤ 3 ∧
      1 + Nat.factorial 3 / Nat.factorial (3 - 2) ≤ 7 ∧
      7 ≤ (Array.replicate 8 ['x']).size ∧ 7 - 1 ≤ capacity ∧
      permutations 3 2 = .ok [[2, 0], [1, 0], [0, 1], [2, 1], [0, 2], [1, 2]] ∧
      ∃ region', arrange? 2 3 ⟨#['a', 'b', 'a', 'c'], ⟨Array.replicate 8 ['x'], 1, 7⟩⟩
          = some ⟨#['a', 'b', 'a', 'c'], region'⟩ ∧
        arrangeCounted? 2 3 ⟨#['a', 'b', 'a', 'c'], ⟨Array.replicate 8 ['x'], 1, 7⟩⟩
          = some (6, ⟨#['a', 'b', 'a', 'c'], region'⟩) ∧
        region'.next = 7 ∧ region'.slots.size = 8 ∧
        region'.slots[0]? = some ['x'] ∧ region'.slots[2]? = some ['b', 'a', 'c'] ∧
        region'.slots[5]? = some ['a', 'a', 'c'] ∧ region'.slots[7]? = some ['x'] := by
  have hfree : 3 ≤ #['a', 'b', 'a', 'c'].size := by decide
  have hk : 2 ≤ 3 := by decide
  have hroom : 1 + Nat.factorial 3 / Nat.factorial (3 - 2) ≤ 7 := by decide
  have hstop : 7 ≤ (Array.replicate 8 ['x']).size := by decide
  have hslots : 7 - 1 ≤ capacity := by decide
  have hlisting : permutations 3 2 = .ok [[2, 0], [1, 0], [0, 1], [2, 1], [0, 2], [1, 2]] := by
    decide +kernel
  obtain ⟨listing, region', hlisting', -, hrun, hcounted, hnext, -, hsize, hwritten, hframe⟩ :=
    arrange?_fills_region #['a', 'b', 'a', 'c'] ⟨Array.replicate 8 ['x'], 1, 7⟩
      hfree hk hroom hstop hslots
  obtain rfl := Except.ok.inj (hlisting.symm.trans hlisting')
  obtain ⟨second, hsecond, hslot₂⟩ := hwritten 1 [1, 0] rfl
  obtain ⟨fifth, hfifth, hslot₅⟩ := hwritten 4 [0, 2] rfl
  have hsome : Function.Injective (List.map (some : Char → Option Char)) :=
    List.map_injective_iff.mpr fun _ _ => Option.some.inj
  obtain rfl : second = ['b', 'a'] := hsome hsecond
  obtain rfl : fifth = ['a', 'a'] := hsome hfifth
  exact ⟨hfree, hk, hroom, hstop, hslots, hlisting, region', hrun, hcounted, hnext, hsize,
    hframe 0 (Or.inl (by decide)), hslot₂, hslot₅, hframe 7 (Or.inr (by decide))⟩

end Worker
end Choices
