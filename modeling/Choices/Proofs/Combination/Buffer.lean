/-
# `Choices.Proofs.Combination.Buffer` — any buffer, any region

One buffer is handed from choice to choice and nothing in it is undone.  So
behind the decided front stands what an earlier choice left there, or what the
caller left.  None of it gets out, since every open place is written before the
buffer is handed out.  `Worker.writes_choose?` has no word for it: the front
alone decides what a run writes, and what it leaves.  Buffers that differ in
their open places are then one and the same to a run.

Which element is chosen is decided by its index.  The listing of indices, read
from `start` on, is the listing of the elements (`selections_map`, for the
function that reads an index), also where the domain holds one thing twice.
-/
import Choices.Proofs.Combination.Selections

namespace Choices

variable {α β : Type}

/-! ## Places and what stands there -/

theorem selections_map (f : α → β) : ∀ (k : Nat) (pool : List α),
    selections k (pool.map f) = (selections k pool).map (·.map f)
  | 0, pool => by
      rw [selections_zero, selections_zero]
      rfl
  | _ + 1, [] => rfl
  | k + 1, a :: pool => by
      rw [List.map_cons, selections_cons, selections_cons, selections_map f k pool,
        selections_map f (k + 1) pool]
      simp

/-- The selection from a pool with some index is read off the selection of
places with that index. -/
theorem getElem?_selections_places {k r : Nat} {pool : List α} {places : List Nat}
    (h : (selections k (List.range pool.length))[r]? = some places) :
    ∃ picked, (selections k pool)[r]? = some picked ∧
      picked.map some = places.map (pool[·]?) := by
  refine exists_getElem?_of_map_some ?_ h
  rw [← selections_map, ← selections_map, map_getElem?_range]

namespace Worker

/-! ## Buffers that differ in the open places -/

/-- A buffer has the front of another one if it is of that size and differs from
it in the open places only. -/
theorem hasFront_take_iff {buffer other : Array α} {places : Nat} (h : places ≤ buffer.size) :
    HasFront (buffer.toList.take (buffer.size - places)) places other ↔
      other.size = buffer.size ∧ ∀ i < buffer.size - places, other[i]? = buffer[i]? := by
  have hlength : (buffer.toList.take (buffer.size - places)).length = buffer.size - places := by
    rw [List.length_take, Array.length_toList, Nat.min_eq_left (Nat.sub_le _ _)]
  constructor
  · intro hother
    refine ⟨by rw [hother.size, hlength, Nat.sub_add_cancel h], fun i hi => ?_⟩
    obtain ⟨stale, -, rfl⟩ := hother
    rw [List.getElem?_toArray, List.getElem?_append_left (hlength.symm ▸ hi),
      List.getElem?_take_of_lt hi, Array.getElem?_toList]
  · rintro ⟨hsize, hsame⟩
    have hfront : other.toList.take (buffer.size - places)
        = buffer.toList.take (buffer.size - places) := by
      refine List.ext_getElem? fun i => ?_
      rw [List.getElem?_take, List.getElem?_take]
      by_cases hi : i < buffer.size - places
      · rw [if_pos hi, if_pos hi, Array.getElem?_toList, Array.getElem?_toList, hsame i hi]
      · rw [if_neg hi, if_neg hi]
    refine ⟨other.toList.drop (buffer.size - places), ?_, ?_⟩
    · rw [List.length_drop, Array.length_toList, hsize]
      omega
    · rw [← hfront, List.take_append_drop, Array.toArray_toList]

/-- Started on any buffer, with enough elements behind `start` for its open
places, and on any region with room for the selections of as many indices: it
answers, counts them, and takes a slot for each.  The item in a slot is what was
decided, and behind it the elements that a selection of indices says, numbered
from `start` on.  No decided place changes, and no other slot.  A buffer that
differs in its open places comes to the same result and is left the same. -/
theorem choose?_fills_region (domain buffer : Array α) (region : Region α)
    {remaining start : Nat} (hopen : remaining ≤ buffer.size)
    (hstart : start + remaining ≤ domain.size)
    (hroom : region.next + (domain.size - start).choose remaining ≤ region.stop)
    (hstop : region.stop ≤ region.slots.size)
    -- slots are counted in 64 bits
    (hslots : region.stop - region.next ≤ capacity) :
    ∃ listing buffer' region', combinations (domain.size - start) remaining = .ok listing ∧
      listing.length = (domain.size - start).choose remaining ∧
      choose? domain remaining start ⟨buffer, region⟩ = some ⟨buffer', region'⟩ ∧
      chooseCounted? domain remaining start ⟨buffer, region⟩
        = some ((domain.size - start).choose remaining, ⟨buffer', region'⟩) ∧
      (buffer'.size = buffer.size ∧
        ∀ i < buffer.size - remaining, buffer'[i]? = buffer[i]?) ∧
      region'.next = region.next + (domain.size - start).choose remaining ∧
      region'.stop = region.stop ∧ region'.slots.size = region.slots.size ∧
      (∀ r places, listing[r]? = some places →
        ∃ picked, picked.map some = places.map (fun j => domain[start + j]?) ∧
          region'.slots[region.next + r]?
            = some (buffer.toList.take (buffer.size - remaining) ++ picked)) ∧
      (∀ i, i < region.next ∨ region.next + (domain.size - start).choose remaining ≤ i →
        region'.slots[i]? = region.slots[i]?) ∧
      ∀ other : Array α, other.size = buffer.size →
        (∀ i < buffer.size - remaining, other[i]? = buffer[i]?) →
        choose? domain remaining start ⟨other, region⟩ = some ⟨buffer', region'⟩ := by
  have hpool : (domain.toList.drop start).length = domain.size - start := by
    rw [List.length_drop, Array.length_toList]
  have hsettled : (domain.toList.drop (domain.size - remaining)).length = remaining := by
    rw [List.length_drop, Array.length_toList]
    omega
  have hitems : ((selections remaining (domain.toList.drop start)).map
      (buffer.toList.take (buffer.size - remaining) ++ ·)).length
      = (domain.size - start).choose remaining := by
    rw [List.length_map, length_selections, hpool]
  have hbuffer := (hasFront_take_iff hopen).mpr ⟨rfl, fun _ _ => rfl⟩
  obtain ⟨region', hrun, hnext, hstop', hsize, hwritten, hframe⟩ :=
    (writes_choose? hstart hbuffer).run_region region (hitems.symm ▸ hroom) hstop
  rw [hitems] at hnext hwritten hframe
  have hcount : Count.combinations (domain.size - start) remaining
      = .ok ((domain.size - start).choose remaining) :=
    Count.combinations_eq_ok_iff.mpr ⟨by omega, by omega, rfl⟩
  have hcounted := chooseCounted?_eq domain remaining start ⟨buffer, region⟩
  rw [hrun, Option.map_some, hnext, Nat.add_sub_cancel_left] at hcounted
  refine ⟨_, _, region', combinations_eq_ok hcount, length_selections_range _ _, hrun, hcounted,
    (hasFront_take_iff hopen).mp ⟨_, hsettled, rfl⟩, hnext, hstop', hsize,
    fun r places hplaces => ?_, hframe, fun other hsize hsame => ?_⟩
  · have hr : r < (domain.size - start).choose remaining :=
      length_selections_range _ _ ▸ (List.getElem?_eq_some_iff.mp hplaces).1
    rw [← hpool] at hplaces
    obtain ⟨picked, hpicked, hread⟩ := getElem?_selections_places hplaces
    refine ⟨picked, ?_, ?_⟩
    · simpa only [List.getElem?_drop, Array.getElem?_toList] using hread
    · rw [hwritten r hr, List.getElem?_map, hpicked]
      rfl
  · -- what is written and what is left are those of the front
    have hother := (hasFront_take_iff hopen).mpr ⟨hsize, hsame⟩
    rw [← hrun, writes_choose? hstart hother region, writes_choose? hstart hbuffer region]

/-- Pairs from behind the first of four letters, behind one letter that is
decided.  Two buffers differ in their open places; three of four open slots are
needed. -/
theorem choose?_fills_region_letters :
    2 ≤ #['x', '?', '!'].size ∧ 1 + 2 ≤ #['a', 'b', 'c', 'b'].size ∧
      2 + Nat.choose (#['a', 'b', 'c', 'b'].size - 1) 2 ≤ 6 ∧
      6 ≤ (Array.replicate 8 ['-']).size ∧ 6 - 2 ≤ capacity ∧
      combinations 3 2 = .ok [[0, 1], [0, 2], [1, 2]] ∧
      ∃ buffer' region',
        choose? #['a', 'b', 'c', 'b'] 2 1 ⟨#['x', '?', '!'], ⟨Array.replicate 8 ['-'], 2, 6⟩⟩
          = some ⟨buffer', region'⟩ ∧
        chooseCounted? #['a', 'b', 'c', 'b'] 2 1
            ⟨#['x', '?', '!'], ⟨Array.replicate 8 ['-'], 2, 6⟩⟩
          = some (3, ⟨buffer', region'⟩) ∧
        choose? #['a', 'b', 'c', 'b'] 2 1 ⟨#['x', 'b', 'c'], ⟨Array.replicate 8 ['-'], 2, 6⟩⟩
          = some ⟨buffer', region'⟩ ∧
        buffer'.size = 3 ∧ buffer'[0]? = some 'x' ∧ region'.next = 5 ∧
        region'.slots[1]? = some ['-'] ∧ region'.slots[2]? = some ['x', 'b', 'c'] ∧
        region'.slots[4]? = some ['x', 'c', 'b'] ∧ region'.slots[5]? = some ['-'] := by
  have hopen : 2 ≤ #['x', '?', '!'].size := by decide
  have hstart : 1 + 2 ≤ #['a', 'b', 'c', 'b'].size := by decide
  have hroom : 2 + Nat.choose (#['a', 'b', 'c', 'b'].size - 1) 2 ≤ 6 := by decide
  have hstop : 6 ≤ (Array.replicate 8 ['-']).size := by decide
  have hslots : 6 - 2 ≤ capacity := by decide
  have hlisting : combinations 3 2 = .ok [[0, 1], [0, 2], [1, 2]] := by decide +kernel
  obtain ⟨listing, buffer', region', hlisting', -, hrun, hcounted, ⟨hsize, hfront⟩, hnext, -, -,
      hwritten, hframe, hother⟩ :=
    choose?_fills_region #['a', 'b', 'c', 'b'] #['x', '?', '!']
      ⟨Array.replicate 8 ['-'], 2, 6⟩ hopen hstart hroom hstop hslots
  obtain rfl := Except.ok.inj (hlisting.symm.trans hlisting')
  obtain ⟨first, hfirst, hslot₂⟩ := hwritten 0 [0, 1] rfl
  obtain ⟨third, hthird, hslot₄⟩ := hwritten 2 [1, 2] rfl
  have hsome : Function.Injective (List.map (some : Char → Option Char)) :=
    List.map_injective_iff.mpr fun _ _ => Option.some.inj
  obtain rfl : first = ['b', 'c'] := hsome hfirst
  obtain rfl : third = ['c', 'b'] := hsome hthird
  have hstale : ∀ i < 1, #['x', 'b', 'c'][i]? = #['x', '?', '!'][i]? := by decide
  exact ⟨hopen, hstart, hroom, hstop, hslots, hlisting, buffer', region', hrun, hcounted,
    hother #['x', 'b', 'c'] rfl hstale, hsize, hfront 0 (by decide), hnext,
    hframe 1 (Or.inl (by decide)), hslot₂, hslot₄, hframe 5 (Or.inr (by decide))⟩

end Worker
end Choices
