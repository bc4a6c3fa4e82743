/-
# `Choices.Proofs.Permutation.Refinement` — one pick more

An arrangement of `k` is fixed from the right, and what is not fixed stays in
front of it in the workspace.  Picking one more puts each of the free
elements, one after another, directly in front of it.  So the listing for
`k + 1` is the listing for `k` with every item replaced by a block, and the
blocks have one item for each index that is not picked yet:

    item  ↦  free.map (· :: item)

`arrangementsWithFree` keeps the free elements of every arrangement, in the
order in which the exchanges leave them.  It is `arrangements` otherwise, and
what it keeps is the pool without the arrangement, which settles what the
blocks hold whatever that order is.
-/
import Mathlib.Data.List.Forall2
import Choices.Proofs.Permutation.Arrangements

namespace Choices

variable {α : Type}

/-! ## What an arrangement leaves free -/

/-- The arrangements of `k` elements of a pool, each with the elements it
leaves free. -/
def arrangementsWithFree : (k : Nat) → (pool : List α) → List (List α × List α)
  | 0, pool => [(pool, [])]
  | k + 1, pool => pool.zipIdx.flatMap fun (a, i) =>
    (arrangementsWithFree k (vacate pool i)).map fun (free, item) => (free, item ++ [a])

theorem arrangementsWithFree_succ (k : Nat) (pool : List α) :
    arrangementsWithFree (k + 1) pool = pool.zipIdx.flatMap fun (a, i) =>
      (arrangementsWithFree k (vacate pool i)).map fun (free, item) => (free, item ++ [a]) := rfl

theorem map_snd_arrangementsWithFree : ∀ {k : Nat} {pool : List α},
    (arrangementsWithFree k pool).map Prod.snd = arrangements k pool := by
  intro k
  induction k with
  | zero => intro pool; rfl
  | succ k ih =>
      intro pool
      rw [arrangementsWithFree_succ, arrangements_succ, List.map_flatMap]
      refine List.flatMap_congr ?_
      rintro ⟨a, i⟩ -
      dsimp only
      rw [← ih, List.map_map, List.map_map]
      rfl

/-- Nothing is lost and nothing is there twice. -/
theorem free_append_perm : ∀ {k : Nat} {pool free item : List α},
    (free, item) ∈ arrangementsWithFree k pool → (free ++ item).Perm pool := by
  intro k
  induction k with
  | zero =>
      intro pool free item h
      obtain ⟨rfl, rfl⟩ := Prod.mk.inj (List.mem_singleton.mp h)
      rw [List.append_nil]
  | succ k ih =>
      intro pool free item h
      rw [arrangementsWithFree_succ, List.mem_flatMap] at h
      obtain ⟨⟨a, i⟩, hx, h⟩ := h
      have hget : pool[i]? = some a := List.mk_mem_zipIdx_iff_getElem?.mp hx
      obtain ⟨⟨free', front⟩, hfront, heq⟩ := List.mem_map.mp h
      obtain ⟨rfl, rfl⟩ := Prod.mk.inj heq
      have hrest : (free' ++ front).Perm (vacate pool i) := ih hfront
      rw [← List.append_assoc]
      exact (List.perm_append_singleton a _).trans ((hrest.cons a).trans (cons_vacate_perm hget))

/-! ## Blocks -/

/-- Induction on the number of picks.  The elements fixed first stand at the
end of an item, out of the way of the one that is picked last. -/
theorem arrangements_succ_eq_blocks : ∀ {k : Nat} {pool : List α},
    arrangements (k + 1) pool
      = (arrangementsWithFree k pool).flatMap fun (free, item) => free.map (· :: item) := by
  intro k
  induction k with
  | zero =>
      intro pool
      have hsingles : arrangements 1 pool = (pool.zipIdx.map Prod.fst).map ([·]) := by
        rw [List.map_map, List.map_eq_flatMap]
        rfl
      rw [hsingles, List.zipIdx_map_fst, arrangementsWithFree, List.flatMap_singleton]
  | succ k ih =>
      intro pool
      rw [arrangements_succ, arrangementsWithFree_succ, List.flatMap_assoc]
      refine List.flatMap_congr ?_
      rintro ⟨a, i⟩ -
      dsimp only
      rw [ih, List.map_flatMap, List.flatMap_map]
      refine List.flatMap_congr ?_
      rintro ⟨free, front⟩ -
      rw [List.map_map]
      rfl

example : arrangementsWithFree 1 [0, 1, 2] = [([2, 1], [0]), ([0, 2], [1]), ([0, 1], [2])] := rfl

/-- An arrangement of indices leaves free those below `n` that are not in it. -/
theorem free_of_range {n k : Nat} {free item : List Nat}
    (h : (free, item) ∈ arrangementsWithFree k (List.range n)) :
    free.length = n - k ∧ free.Nodup ∧ ∀ i, i ∈ free ↔ i < n ∧ i ∉ item := by
  have hperm : (free ++ item).Perm (List.range n) := free_append_perm h
  have hitem : item ∈ arrangements k (List.range n) := by
    rw [← map_snd_arrangementsWithFree]
    exact List.mem_map_of_mem h
  have hlength : free.length + item.length = n := by
    rw [← List.length_append, hperm.length_eq, List.length_range]
  obtain ⟨hfree, -, hdisjoint⟩ := List.nodup_append'.mp (hperm.nodup_iff.mpr List.nodup_range)
  refine ⟨?_, hfree, fun i => ?_⟩
  · rw [(mem_arrangements_iff.mp hitem).1] at hlength
    exact Nat.eq_sub_of_add_eq hlength
  · rw [← List.mem_range, ← hperm.mem_iff, List.mem_append]
    constructor
    · intro hi
      exact ⟨Or.inl hi, hdisjoint hi⟩
    · rintro ⟨hi | hi, hnot⟩
      · exact hi
      · exact absurd hi hnot

/-- Where one pick more can be counted, so can the picks, and the listing with
one pick more consists of one block for each item, in the order of the items.
A block puts each index below `n` that its item misses in front of the item,
once. -/
theorem permutations_succ_eq_blocks {n k size : Nat} (hk : k < n)
    (hcount : Count.permutations n (k + 1) = .ok size) :
    ∃ (items : List (List Nat)) (blocks : List (List (List Nat))),
      Count.permutations n k = .ok items.length ∧ size = items.length * (n - k) ∧
      permutations n k = .ok items ∧ permutations n (k + 1) = .ok blocks.flatten ∧
      List.Forall₂ (fun item block => ∃ free : List Nat,
        block = free.map (· :: item) ∧ free.length = n - k ∧ free.Nodup ∧
        ∀ i, i ∈ free ↔ i < n ∧ i ∉ item) items blocks := by
  obtain ⟨-, hsize, rfl⟩ := Count.permutations_eq_ok_iff.mp hcount
  have hproduct : n.descFactorial (k + 1) = n.descFactorial k * (n - k) := by
    rw [Nat.descFactorial_succ, Nat.mul_comm]
  have hcount' : Count.permutations n k = .ok (n.descFactorial k) := by
    refine Count.permutations_eq_ok_iff.mpr ⟨Nat.le_of_lt hk, ?_, rfl⟩
    rw [hproduct] at hsize
    exact Nat.le_trans (Nat.le_mul_of_pos_right _ (Nat.sub_pos_of_lt hk)) hsize
  refine ⟨arrangements k (List.range n),
    (arrangementsWithFree k (List.range n)).map fun (free, item) => free.map (· :: item),
    ?_, ?_, permutations_eq_ok hcount', ?_, ?_⟩
  · rw [hcount', length_arrangements_range]
  · rw [hproduct, length_arrangements_range]
  · rw [permutations_eq_ok hcount, arrangements_succ_eq_blocks, List.flatMap_def]
  · rw [← map_snd_arrangementsWithFree, List.forall₂_map_left_iff, List.forall₂_map_right_iff,
      List.forall₂_same]
    rintro ⟨free, item⟩ h
    exact ⟨free, rfl, free_of_range h⟩

/-- One or two of four, and of 21 indices 17 or 18: there 4 are left for the last
pick. -/
theorem permutations_succ_eq_blocks_sizes :
    (1 < 4 ∧ Count.permutations 4 2 = .ok 12 ∧
      ∃ (items : List (List Nat)) (blocks : List (List (List Nat))),
        permutations 4 1 = .ok items ∧ items.length = 4 ∧
        blocks.flatten = [[3, 0], [1, 0], [2, 0], [0, 1], [3, 1], [2, 1], [0, 2], [1, 2], [3, 2],
          [0, 3], [1, 3], [2, 3]] ∧
        List.Forall₂ (fun item block => ∃ free : List Nat,
          block = free.map (· :: item) ∧ free.length = 3 ∧ free.Nodup ∧
          ∀ i, i ∈ free ↔ i < 4 ∧ i ∉ item) items blocks) ∧
    17 < 21 ∧ Count.permutations 21 18 = .ok 8515157028618240000 ∧
      ∃ (items : List (List Nat)) (blocks : List (List (List Nat))),
        permutations 21 17 = .ok items ∧ items.length = 2128789257154560000 ∧
        permutations 21 18 = .ok blocks.flatten ∧
        List.Forall₂ (fun item block => ∃ free : List Nat,
          block = free.map (· :: item) ∧ free.length = 4 ∧ free.Nodup ∧
          ∀ i, i ∈ free ↔ i < 21 ∧ i ∉ item) items blocks := by
  have hone : 1 < 4 := by decide
  have hpairs : Count.permutations 4 2 = .ok 12 := by decide
  have hlisting : permutations 4 2 = .ok [[3, 0], [1, 0], [2, 0], [0, 1], [3, 1], [2, 1], [0, 2],
      [1, 2], [3, 2], [0, 3], [1, 3], [2, 3]] := by decide +kernel
  obtain ⟨singles, pairs, -, htwelve, hsingles, hflatten, hpair⟩ :=
    permutations_succ_eq_blocks hone hpairs
  have hk : 17 < 21 := by decide
  have hcount : Count.permutations 21 18 = .ok 8515157028618240000 := by decide
  obtain ⟨items, blocks, -, hsize, hitems, hblocks, heach⟩ := permutations_succ_eq_blocks hk hcount
  have hlength : items.length = 2128789257154560000 := by omega
  exact ⟨⟨hone, hpairs, singles, pairs, hsingles, by omega,
      Except.ok.inj (hflatten.symm.trans hlisting), hpair⟩,
    hk, hcount, items, blocks, hitems, hlength, hblocks, heach⟩

end Choices
