/-
# `Choices.Proofs.Reorderings` — arrangements are selections in every order

The two listings come from recursions that have nothing in common, and from
counts by different loops.  What ties them is sorting.  An arrangement sorts
to a selection, and those that sort to one given selection are all of its
orders: they are a list without repetition with the same members as
`List.permutations`, so there are `k!` of them.

The counts follow suit.  The number of arrangements is the number of
selections times `k!`.  Neither factor is 0, so neither of the other two
counts can be past the capacity when this one is not.
-/
import Mathlib.Data.List.Permutation
import Mathlib.Data.List.Sort
import Choices.Proofs.Combination.Selections
import Choices.Proofs.Permutation.Arrangements

namespace Choices

/-! ## Sorting -/

/-- An item sorts to an ascending list exactly when it is an order of it. -/
theorem mergeSort_eq_iff {item chosen : List Nat} (h : chosen.Pairwise (· < ·)) :
    item.mergeSort = chosen ↔ item.Perm chosen := by
  have hperm : item.mergeSort.Perm item := List.mergeSort_perm item _
  constructor
  · intro heq
    rw [← heq]
    exact hperm.symm
  · intro horder
    have hsorted : item.mergeSort.Pairwise (· ≤ ·) := List.pairwise_mergeSort' (· ≤ ·) item
    have hchosen : chosen.Pairwise (· ≤ ·) := h.imp Nat.le_of_lt
    exact (hperm.trans horder).eq_of_pairwise (fun _ _ _ _ => Nat.le_antisymm) hsorted hchosen

/-- An arrangement sorts to a selection. -/
theorem mergeSort_mem_selections {n k : Nat} {item : List Nat}
    (h : item ∈ arrangements k (List.range n)) :
    item.mergeSort ∈ selections k (List.range n) := by
  obtain ⟨hlen, hnodup, hbound⟩ := mem_arrangements_range_iff.mp h
  have hperm : item.mergeSort.Perm item := List.mergeSort_perm item _
  have hle : item.mergeSort.Pairwise (· ≤ ·) := List.pairwise_mergeSort' (· ≤ ·) item
  have hne : item.mergeSort.Pairwise (· ≠ ·) := hperm.nodup_iff.mpr hnodup
  have hlt : item.mergeSort.Pairwise (· < ·) :=
    (hle.and hne).imp fun hab => Nat.lt_of_le_of_ne hab.1 hab.2
  exact mem_selections_range_iff.mpr ⟨hperm.length_eq.trans hlen, hlt,
    fun i hi => hbound i (hperm.mem_iff.mp hi)⟩

/-! ## The orders of one selection -/

/-- The arrangements that sort to a selection are its orders, each once. -/
theorem filter_mergeSort_perm_permutations {n k : Nat} {chosen : List Nat}
    (h : chosen ∈ selections k (List.range n)) :
    ((arrangements k (List.range n)).filter (·.mergeSort == chosen)).Perm
      chosen.permutations := by
  obtain ⟨hlen, hascend, hbound⟩ := mem_selections_range_iff.mp h
  have harranged : (arrangements k (List.range n)).Nodup := nodup_arrangements List.nodup_range
  rw [List.perm_ext_iff_of_nodup (harranged.filter _)
    (List.nodup_permutations chosen hascend.nodup)]
  intro item
  rw [List.mem_filter, beq_iff_eq, mergeSort_eq_iff hascend, List.mem_permutations]
  constructor
  · exact And.right
  · intro horder
    refine ⟨mem_arrangements_range_iff.mpr ⟨horder.length_eq.trans hlen, ?_, ?_⟩, horder⟩
    · exact horder.nodup_iff.mpr hascend.nodup
    · exact fun i hi => hbound i (horder.mem_iff.mp hi)

theorem count_mergeSort_arrangements {n k : Nat} {chosen : List Nat}
    (h : chosen ∈ selections k (List.range n)) :
    ((arrangements k (List.range n)).map (·.mergeSort)).count chosen = k.factorial := by
  have hlen : chosen.length = k := (mem_selections_range_iff.mp h).1
  rw [List.count_eq_countP, List.countP_map, List.countP_eq_length_filter]
  have horders := (filter_mergeSort_perm_permutations h).length_eq
  rw [List.length_permutations, hlen] at horders
  exact horders

/-! ## The counts -/

/-- When the arrangements can be counted, so can the selections and the
orders of one selection. -/
theorem Count.permutations_eq_ok_mul {n k size : Nat} (h : permutations n k = .ok size) :
    combinations n k = .ok (n.choose k) ∧ factorial k = .ok k.factorial ∧
      size = n.choose k * k.factorial := by
  obtain ⟨hk, hsize, rfl⟩ := permutations_eq_ok_iff.mp h
  have hproduct : n.descFactorial k = n.choose k * k.factorial := by
    rw [Nat.descFactorial_eq_factorial_mul_choose, Nat.mul_comm]
  rw [hproduct] at hsize
  have hchoose : n.choose k ≤ capacity :=
    Nat.le_trans (Nat.le_mul_of_pos_right _ (Nat.factorial_pos k)) hsize
  have horders : k.factorial ≤ capacity :=
    Nat.le_trans (Nat.le_mul_of_pos_left _ (Nat.choose_pos hk)) hsize
  exact ⟨combinations_eq_ok_iff.mpr ⟨hk, hchoose, rfl⟩,
    factorial_eq_ok_iff.mpr ⟨horders, rfl⟩, hproduct⟩

/-- Whenever the arrangements can be counted, both listings succeed, the
count of arrangements is that of selections times that of orders, and the
sorted arrangements are the selections, each `k!` times. -/
theorem permutations_sort_to_combinations {n k size : Nat}
    (h : Count.permutations n k = .ok size) :
    ∃ count orders arranged selected,
      Count.combinations n k = .ok count ∧ Count.factorial k = .ok orders ∧
      size = count * orders ∧
      permutations n k = .ok arranged ∧ combinations n k = .ok selected ∧
      (∀ item ∈ selected, (arranged.map (·.mergeSort)).count item = k.factorial) ∧
      (∀ item ∈ arranged.map (·.mergeSort), item ∈ selected) := by
  obtain ⟨hcount, horders, hsize⟩ := Count.permutations_eq_ok_mul h
  refine ⟨n.choose k, k.factorial, arrangements k (List.range n), selections k (List.range n),
    hcount, horders, hsize, permutations_eq_ok h, combinations_eq_ok hcount,
    fun item => count_mergeSort_arrangements, fun item hitem => ?_⟩
  obtain ⟨arrangement, harrangement, rfl⟩ := List.mem_map.mp hitem
  exact mergeSort_mem_selections harrangement

/-- Three picks out of five have 6 orders each, and seven out of 300 have 5040. -/
theorem permutations_sort_to_combinations_sizes :
    (Count.permutations 5 3 = .ok 60 ∧
      ∃ arranged selected,
        permutations 5 3 = .ok arranged ∧ combinations 5 3 = .ok selected ∧
        (∀ item ∈ selected, (arranged.map (·.mergeSort)).count item = 6) ∧
        (∀ item ∈ arranged.map (·.mergeSort), item ∈ selected)) ∧
    Count.permutations 300 7 = .ok 203810340189456000 ∧
      ∃ arranged selected,
        permutations 300 7 = .ok arranged ∧ combinations 300 7 = .ok selected ∧
        (∀ item ∈ selected, (arranged.map (·.mergeSort)).count item = 5040) ∧
        (∀ item ∈ arranged.map (·.mergeSort), item ∈ selected) := by
  have htriples : Count.permutations 5 3 = .ok 60 := by decide
  obtain ⟨-, -, triples, picks, -, -, -, htriplesOk, hpicks, hsix, hall⟩ :=
    permutations_sort_to_combinations htriples
  have h : Count.permutations 300 7 = .ok 203810340189456000 := by decide
  obtain ⟨-, -, arranged, selected, -, -, -, harranged, hselected, heach, honly⟩ :=
    permutations_sort_to_combinations h
  exact ⟨⟨htriples, triples, picks, htriplesOk, hpicks, hsix, hall⟩,
    h, arranged, selected, harranged, hselected, heach, honly⟩

end Choices
