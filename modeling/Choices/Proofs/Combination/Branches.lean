/-
# `Choices.Proofs.Combination.Branches` — selections do not depend on branches

The length of a branch comes from a count, what it writes from a recursion,
and one result has to hold both.  They agree part by part: the selections
that start at `first` are as many as `k - 1` can be picked behind it
(`length_selectionsAt`).  That the lengths add up to the count of the whole
is then no identity of its own.  It is the length of the list of selections,
read once as a list and once part by part.

No branch asks for a count that could fail, since no part is longer than the
whole.  Each starts with a fresh buffer, which the invariant of the buffer
allows to hold anything.
-/
import Choices.Combination.Branches
import Choices.Proofs.Branch
import Choices.Proofs.Combination.Selections

namespace Choices

/-- A list of counts that all succeed. -/
theorem mapM_eq_ok {β γ ε : Type} {f : β → Except ε γ} {g : β → γ} : ∀ {xs : List β},
    (∀ x ∈ xs, f x = .ok (g x)) → xs.mapM f = .ok (xs.map g)
  | [], _ => rfl
  | x :: xs, h => by
      rw [List.mapM_cons, h x List.mem_cons_self,
        mapM_eq_ok fun y hy => h y (List.mem_cons_of_mem x hy)]
      rfl

/-! ## The parts -/

theorem length_selectionsAt {α : Type} {k i : Nat} {pool : List α} (hi : i < pool.length) :
    (selectionsAt k pool i).length = (pool.length - 1 - i).choose k := by
  have hget : pool[i]? = some pool[i] := List.getElem?_eq_getElem hi
  rw [selectionsAt_of_getElem? hget, List.length_map, length_selections, List.length_drop,
    Nat.sub_sub, Nat.add_comm]

/-- How many selections there are for each first element. -/
def firstLengths (n k : Nat) : List Nat :=
  (List.range (n - k)).map fun first => (n - 1 - first).choose k

theorem length_selectionsAt_range (n k : Nat) :
    ((List.range (n - k)).map fun first => (selectionsAt k (List.range n) first).length)
      = firstLengths n k := by
  refine List.map_congr_left fun first hfirst => ?_
  have hlt : first < n - k := List.mem_range.mp hfirst
  rw [length_selectionsAt (by rw [List.length_range]; omega), List.length_range]

theorem sum_firstLengths (n k : Nat) : (firstLengths n k).sum = n.choose (k + 1) := by
  have hwhole : (selections (k + 1) (List.range n)).length = n.choose (k + 1) :=
    length_selections_range n (k + 1)
  rw [selections_succ_eq_flatMap, List.length_flatMap, List.length_range,
    length_selectionsAt_range] at hwhole
  exact hwhole

/-- The part of a branch is no longer than the whole. -/
theorem Count.combinations_first {n k first : Nat} (hsize : n.choose (k + 1) ≤ capacity)
    (hfirst : first < n - k) :
    combinations (n - 1 - first) k = .ok ((n - 1 - first).choose k) := by
  have hmem : (n - 1 - first).choose k ∈ firstLengths n k :=
    List.mem_map.mpr ⟨first, List.mem_range.mpr hfirst, rfl⟩
  have hle : (n - 1 - first).choose k ≤ n.choose (k + 1) := by
    rw [← sum_firstLengths]
    exact List.le_sum_of_mem hmem
  exact combinations_eq_ok_iff.mpr ⟨by omega, Nat.le_trans hle hsize, rfl⟩

theorem Count.mapM_combinations_first {n k : Nat} (hk : k + 1 ≤ n)
    (hsize : n.choose (k + 1) ≤ capacity) :
    ((List.range (n - (k + 1) + 1)).mapM fun first => combinations (n - 1 - first) (k + 1 - 1))
      = .ok (firstLengths n k) := by
  rw [show n - (k + 1) + 1 = n - k by omega]
  exact mapM_eq_ok fun first hfirst => combinations_first hsize (List.mem_range.mp hfirst)

/-! ## The branches -/

theorem fill?_combinationBranch {n k first : Nat} (hfirst : first < n - k) (span : Span)
    (region : Region Nat) :
    (combinationBranch (Array.range n) (k + 1) first span).fill? region
      = region.pushAll? (selectionsAt k (List.range n) first) := by
  have hget : (List.range n)[first]? = some first := List.getElem?_range (by omega)
  have helement : (Array.range n)[first]? = some first := by
    rwa [← Array.getElem?_toList, Array.toList_range]
  have hbehind : first + 1 + k ≤ (Array.range n).size := by
    rw [Array.size_range]
    omega
  obtain ⟨work₁, hwork₁, hput⟩ := (Worker.HasFront.replicate (k + 1) 0).writes_put? first
  have hrest := Worker.writes_choose? hbehind hwork₁
  have hrun := (hput.bind hrest).map_region region
  rw [Array.toList_range, Option.map_eq_bind, Option.bind_assoc] at hrun
  rw [selectionsAt_of_getElem? hget]
  show (Array.range n)[first]?.bind _ = _
  rw [helement]
  exact hrun

/-- The spans of a request, and the branches that fill them. -/
theorem makeUp_combinationBranches {n k : Nat} :
    ∃ branches,
      combinationBranches? n (k + 1) (n.choose (k + 1)) (firstLengths n k) = some branches ∧
      branches = (List.range (n - k)).map (fun first =>
        combinationBranch (Array.range n) (k + 1) first (Span.nth (firstLengths n k) first)) ∧
      Branch.MakeUp branches (selections (k + 1) (List.range n)) := by
  have hcount : (firstLengths n k).length = n - k := by
    rw [firstLengths, List.length_map, List.length_range]
  refine ⟨_, ?_, rfl, ?_⟩
  · rw [combinationBranches?, Span.cuts?_eq (Nat.le_of_eq (sum_firstLengths n k)), hcount]
    exact congrArg some
      (Branch.zipIdx_map_range _ _ fun first span => combinationBranch _ (k + 1) first span)
  · have hmakeUp := Branch.makeUp_of_parts (selectionsAt k (List.range n))
      (combinationBranch (Array.range n) (k + 1)) (fun _ _ => rfl)
      (fun first hfirst span region => fill?_combinationBranch hfirst span region)
    rw [length_selectionsAt_range] at hmakeUp
    rw [selections_succ_eq_flatMap, List.length_range]
    exact hmakeUp

theorem branchedCombinations_eq (n k : Nat) : branchedCombinations n k = combinations n k := by
  cases k with
  | zero => rw [branchedCombinations_zero, combinations_zero]
  | succ k =>
      rw [combinations_eq_map, branchedCombinations, if_neg (Nat.succ_ne_zero k)]
      cases hcount : Count.combinations n (k + 1) with
      | error fault => rfl
      | ok size =>
          obtain ⟨hk, hsize, rfl⟩ := Count.combinations_eq_ok_iff.mp hcount
          obtain ⟨branches, hbranches, -, hmakeUp⟩ := makeUp_combinationBranches
          have hrun := hmakeUp.schedules branches (List.Perm.refl branches)
          rw [length_selections_range] at hrun
          simp only [Count.mapM_combinations_first hk hsize, bind, Except.bind]
          rw [hbranches]
          simp only [Option.bind_some, hrun]
          rfl

/-- Branches answer what one run answers, for any request.  Where the listing
has an entry to choose, no count of a branch fails, the lengths add up to the
count of the whole, and the branches cut off at these lengths fill it, in any
order. -/
theorem branchedCombinations_eq_combinations (n k : Nat) :
    branchedCombinations n k = combinations n k ∧
      (1 ≤ k → k ≤ n → n.choose k ≤ capacity →
        ∃ lengths items branches,
          lengths.length = n - k + 1 ∧
          (∀ first ≤ n - k, ∃ length, lengths[first]? = some length ∧
            Count.combinations (n - 1 - first) (k - 1) = .ok length) ∧
          lengths.sum = n.choose k ∧
          combinations n k = .ok items ∧ items.length = n.choose k ∧
          combinationBranches? n k items.length lengths = some branches ∧
          branches = (List.range (n - k + 1)).map (fun first =>
            combinationBranch (Array.range n) k first (Span.nth lengths first)) ∧
          Branch.MakeUp branches items) := by
  refine ⟨branchedCombinations_eq n k, fun hpos hk hsize => ?_⟩
  obtain ⟨k, rfl⟩ := Nat.exists_eq_add_one.mpr hpos
  have hplaces : n - (k + 1) + 1 = n - k := by omega
  have hlength : (selections (k + 1) (List.range n)).length = n.choose (k + 1) :=
    length_selections_range n (k + 1)
  obtain ⟨branches, hbranches, hlist, hmakeUp⟩ := makeUp_combinationBranches
  rw [hplaces]
  have hcount : Count.combinations n (k + 1) = .ok (n.choose (k + 1)) :=
    Count.combinations_eq_ok_iff.mpr ⟨hk, hsize, rfl⟩
  refine ⟨firstLengths n k, selections (k + 1) (List.range n), branches, ?_, ?_,
    sum_firstLengths n k, combinations_eq_ok hcount, hlength, by rw [hlength, hbranches], hlist,
    hmakeUp⟩
  · rw [firstLengths, List.length_map, List.length_range]
  · intro first hfirst
    have hlt : first < n - k := by omega
    refine ⟨_, ?_, Count.combinations_first hsize hlt⟩
    rw [firstLengths, List.getElem?_map, List.getElem?_range hlt]
    rfl

/-- The triples from five, with the three branches run in reverse, and the middle
of row 67, the longest listing of a middle that fits. -/
theorem branchedCombinations_eq_combinations_sizes :
    (1 ≤ 3 ∧ 3 ≤ 5 ∧ Nat.choose 5 3 ≤ capacity ∧
      ∃ lengths items branches,
        combinations 5 3 = .ok items ∧ items.length = 10 ∧ lengths.sum = 10 ∧
        branches = (List.range 3).map (fun first =>
          combinationBranch (Array.range 5) 3 first (Span.nth lengths first)) ∧
        Branch.runAll? branches.reverse (Region.blankSlots 10) = some items.toArray) ∧
    1 ≤ 33 ∧ 33 ≤ 67 ∧ Nat.choose 67 33 ≤ capacity ∧
      ∃ lengths items branches,
        combinations 67 33 = .ok items ∧
        lengths.sum = items.length ∧
        branches = (List.range 35).map (fun first =>
          combinationBranch (Array.range 67) 33 first (Span.nth lengths first)) ∧
        Branch.MakeUp branches items := by
  have hpos : 1 ≤ 3 := by decide
  have htriples : 3 ≤ 5 := by decide
  have htriplesSize : Nat.choose 5 3 ≤ capacity := by decide
  obtain ⟨parts, triples, threes, -, -, hten, htriplesOk, htriplesLength, -, hthrees,
      hthreesMakeUp⟩ :=
    (branchedCombinations_eq_combinations 5 3).2 hpos htriples htriplesSize
  have hreversed := hthreesMakeUp.schedules threes.reverse (List.reverse_perm threes)
  rw [htriplesLength] at hreversed
  have hone : 1 ≤ 33 := by decide
  have hk : 33 ≤ 67 := by decide
  have hsize : Nat.choose 67 33 ≤ capacity := by
    rw [Nat.choose_eq_descFactorial_div_factorial]
    decide
  obtain ⟨lengths, items, branches, -, -, hsum, hok, hlength, -, hlist, hmakeUp⟩ :=
    (branchedCombinations_eq_combinations 67 33).2 hone hk hsize
  exact ⟨⟨hpos, htriples, htriplesSize, parts, triples, threes, htriplesOk, htriplesLength, hten,
      hthrees, hreversed⟩,
    hone, hk, hsize, lengths, items, branches, hok, hsum.trans hlength.symm, hlist, hmakeUp⟩

end Choices
