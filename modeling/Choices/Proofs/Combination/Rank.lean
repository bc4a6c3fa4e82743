/-
# `Choices.Proofs.Combination.Rank` — where a selection is stored

The index of a selection can be computed from the selection alone.  It is
easier to count what comes after it than what comes before.  A selection
that comes after `c₀ < c₁ < …` agrees with it up to some place `i` and has a
larger index there, so it picks `k - i` of the `n - 1 - c_i` indices behind
`c_i`, in any way.  Each place contributes one binomial coefficient
(`countAfter`), and the index is what is left of the count:

    C(n, k) - 1 - (C(n-1-c₀, k) + C(n-1-c₁, k-1) + …)

The induction is on the pool.  A selection that picks the first element has
all selections that pass over it behind it.  One that passes over it has the
others before it, and by Pascal's rule their number is what the index grows
by.

The spans of the first elements are where the branches put them, which only
needs that a selection tells the part it is from by its first entry.
-/
import Mathlib
import Choices.Proofs.Combination.Branches

namespace Choices

/-- How many selections of `k` indices below `n` come after an ascending
one. -/
def countAfter (n k : Nat) (item : List Nat) : Nat :=
  (item.mapIdx fun i c => (n - 1 - c).choose (k - i)).sum

theorem countAfter_nil (n k : Nat) : countAfter n k [] = 0 := rfl

theorem countAfter_cons (n k c : Nat) (item : List Nat) :
    countAfter n (k + 1) (c :: item) = (n - 1 - c).choose (k + 1) + countAfter n k item := by
  simp [countAfter, List.mapIdx_cons]

/-! ## The index of a selection -/

theorem nodup_selections {α : Type} {k : Nat} {pool : List α} (h : pool.Nodup) :
    (selections k pool).Nodup :=
  (pairwise_lex_selections h).imp List.Lex.to_ne

/-- Induction along the listing.  Counted from its end, an item that passes
over the first element stands where it stood without that element. -/
theorem exists_getElem?_selections : ∀ {k len start : Nat} {item : List Nat},
    item ∈ selections k (List.range' start len) →
    ∃ index, (selections k (List.range' start len))[index]? = some item ∧
      index + countAfter (start + len) k item + 1 = len.choose k
  | 0, len, start, item, h => by
      rw [selections_zero, List.mem_singleton] at h
      subst h
      exact ⟨0, by rw [selections_zero]; rfl, by rw [countAfter_nil, Nat.choose_zero_right]⟩
  | k + 1, 0, start, item, h => absurd h List.not_mem_nil
  | k + 1, len + 1, start, item, h => by
      have hend : start + (len + 1) = start + 1 + len := by omega
      have hfirst : ((selections k (List.range' (start + 1) len)).map (start :: ·)).length
          = len.choose k := by
        rw [List.length_map, length_selections, List.length_range']
      rw [List.range'_succ, selections_cons, List.mem_append] at h
      rw [List.range'_succ, selections_cons, Nat.choose_succ_succ', hend]
      rcases h with h | h
      · -- all selections that pass over `start` come after it
        obtain ⟨rest, hrest, rfl⟩ := List.mem_map.mp h
        obtain ⟨index, hget, hcount⟩ := exists_getElem?_selections hrest
        have hbehind : start + 1 + len - 1 - start = len := by omega
        refine ⟨index, ?_, ?_⟩
        · rw [List.getElem?_append_left (by omega), List.getElem?_map, hget]
          rfl
        · rw [countAfter_cons, hbehind]
          omega
      · -- all selections that pick `start` come before it
        obtain ⟨index, hget, hcount⟩ := exists_getElem?_selections h
        refine ⟨len.choose k + index, ?_, by omega⟩
        rw [List.getElem?_append_right (by omega), hfirst, Nat.add_sub_cancel_left, hget]

theorem getElem?_selections_range_iff {n k : Nat} {item : List Nat}
    (h : item ∈ selections k (List.range n)) :
    countAfter n k item < n.choose k ∧ ∀ index,
      (selections k (List.range n))[index]? = some item ↔
        index = n.choose k - 1 - countAfter n k item := by
  rw [List.range_eq_range'] at h ⊢
  obtain ⟨index, hget, hcount⟩ := exists_getElem?_selections h
  rw [Nat.zero_add] at hcount
  refine ⟨by omega, fun index' => ?_⟩
  have hindex : n.choose k - 1 - countAfter n k item = index := by omega
  have hnodup : (selections k (List.range' 0 n)).Nodup := nodup_selections List.nodup_range'
  rw [hindex]
  constructor
  · intro hget'
    have hlt := (List.getElem?_eq_some_iff.mp hget').1
    exact (List.getElem?_inj hlt hnodup).mp (hget'.trans hget.symm)
  · rintro rfl
    exact hget

/-! ## The spans of the first elements -/

theorem head?_of_mem_selectionsAt {n k first : Nat} (hfirst : first < n) :
    ∀ item ∈ selectionsAt k (List.range n) first, item.head? = some first := by
  intro item hitem
  rw [selectionsAt_of_getElem? (List.getElem?_range hfirst), List.mem_map] at hitem
  obtain ⟨rest, -, rfl⟩ := hitem
  rfl

theorem head?_getElem?_selections_iff {n k first : Nat} (hfirst : first < n - k) (index : Nat) :
    (selections (k + 1) (List.range n))[index]?.bind List.head? = some first ↔
      (Span.nth (firstLengths n k) first).start ≤ index ∧
        index < (Span.nth (firstLengths n k) first).stop := by
  have hhead : ∀ i < n - k, ∀ item ∈ selectionsAt k (List.range n) i, item.head? = some i :=
    fun i hi => head?_of_mem_selectionsAt (by omega)
  have hspan := Span.getElem?_flatMap_label_iff hhead hfirst index
  rw [length_selectionsAt_range] at hspan
  rw [selections_succ_eq_flatMap, List.length_range]
  exact hspan

/-- A branch has an item to write for each first element. -/
theorem start_lt_stop_firstLengths {n k first : Nat} (hfirst : first < n - k) :
    (Span.nth (firstLengths n k) first).start < (Span.nth (firstLengths n k) first).stop := by
  have hlength : first < (firstLengths n k).length := by
    rwa [firstLengths, List.length_map, List.length_range]
  have hpos : 0 < (n - 1 - first).choose k := Nat.choose_pos (by omega)
  rw [Span.stop_nth hlength]
  simpa [firstLengths] using hpos

/-- A counted request lists every ascending selection at the index that its
later selections leave, and nowhere else.  The selections with one first
element stand in the span of the branch for it, which starts where the counts
of the smaller first elements end. -/
theorem combinations_getElem?_iff_rank {n k size : Nat}
    (hcount : Count.combinations n k = .ok size) :
    ∃ items, combinations n k = .ok items ∧ items.length = size ∧
      (∀ item : List Nat, item.length = k → item.Pairwise (· < ·) → (∀ c ∈ item, c < n) →
        countAfter n k item < size ∧
        ∀ index, items[index]? = some item ↔ index = size - 1 - countAfter n k item) ∧
      (1 ≤ k → ∃ lengths branches,
        ((List.range (n - k + 1)).mapM fun first => Count.combinations (n - 1 - first) (k - 1))
          = .ok lengths ∧
        combinationBranches? n k size lengths = some branches ∧
        ∀ first ≤ n - k, ∃ branch, branches[first]? = some branch ∧
          branch.span = ⟨(lengths.take first).sum, (lengths.take (first + 1)).sum⟩ ∧
          branch.span.start < branch.span.stop ∧
          ∀ index, items[index]?.bind List.head? = some first ↔
            branch.span.start ≤ index ∧ index < branch.span.stop) := by
  obtain ⟨hk, hsize, rfl⟩ := Count.combinations_eq_ok_iff.mp hcount
  refine ⟨selections k (List.range n), combinations_eq_ok hcount, length_selections_range n k,
    fun item hlength hascend hbound =>
      getElem?_selections_range_iff (mem_selections_range_iff.mpr ⟨hlength, hascend, hbound⟩),
    fun hpos => ?_⟩
  obtain ⟨k, rfl⟩ := Nat.exists_eq_add_one.mpr hpos
  obtain ⟨branches, hbranches, rfl, -⟩ := makeUp_combinationBranches
  refine ⟨firstLengths n k, _, Count.mapM_combinations_first hk hsize, hbranches,
    fun first hfirst => ?_⟩
  have hlt : first < n - k := by omega
  refine ⟨combinationBranch (Array.range n) (k + 1) first (Span.nth (firstLengths n k) first),
    ?_, rfl, start_lt_stop_firstLengths hlt, head?_getElem?_selections_iff hlt⟩
  rw [List.getElem?_map, List.getElem?_range hlt]
  rfl

/-- One of the pairs below 6074001000, the most indices whose pairs can be
counted, and the triples below 7 that start with 2. -/
theorem combinations_getElem?_iff_rank_pairs :
    Count.combinations 6074001000 2 = .ok 18446744070963499500 ∧
      Count.combinations 7 3 = .ok 35 ∧
      (∃ items, combinations 6074001000 2 = .ok items ∧
        ∀ index, items[index]? = some [3000000000, 6000000000] ↔
          index = 13722003001499999999) ∧
      ∃ items, combinations 7 3 = .ok items ∧
        ∀ index, items[index]?.bind List.head? = some 2 ↔ 25 ≤ index ∧ index < 31 := by
  have hpairs : Count.combinations 6074001000 2 = .ok 18446744070963499500 := by decide
  have htriples : Count.combinations 7 3 = .ok 35 := by decide
  have hafter : countAfter 6074001000 2 [3000000000, 6000000000] = 4724741069463499500 := by
    simp [countAfter, Nat.choose_two_right]
  obtain ⟨items, hok, -, hrank, -⟩ := combinations_getElem?_iff_rank hpairs
  obtain ⟨items', hok', -, -, hblocks⟩ := combinations_getElem?_iff_rank htriples
  obtain ⟨lengths, branches, hlengths, -, hbranch⟩ := hblocks (by decide)
  obtain ⟨branch, -, hspan, -, hblock⟩ := hbranch 2 (by decide)
  obtain rfl : [15, 10, 6, 3, 1] = lengths := Except.ok.inj hlengths
  rw [hspan] at hblock
  have hindex := (hrank [3000000000, 6000000000] rfl (by decide) (by decide)).2
  rw [hafter] at hindex
  exact ⟨hpairs, htriples, ⟨items, hok, hindex⟩, items', hok', hblock⟩

end Choices
