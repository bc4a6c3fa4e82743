/-
# `Choices.Proofs.Permutation.Branches` — arrangements do not depend on branches

One workspace goes through all exchanges when arrangements are listed in one
run.  A branch starts from a fresh one and makes a single exchange.  The two
meet because a subtree gives its workspace back: the run finds the fresh
workspace at the start of every round, and a round writes as many items as a
chunk is wide.  So branch `i` fills the chunk with index `i` with what the
run writes there, and `Branch.MakeUp` does the rest, for every schedule.
-/
import Choices.Permutation.Branches
import Choices.Proofs.Branch
import Choices.Proofs.Permutation.Arrangements

namespace Choices

theorem fill?_permutationBranch {n k i : Nat} (hi : i < n + 1) (hk : k ≤ n) (span : Span)
    (region : Region Nat) :
    (permutationBranch (n + 1) (k + 1) i span).fill? region
      = region.pushAll? (arrangementsAt k (List.range (n + 1)) i) := by
  have hget : (List.range (n + 1))[i]? = some i := List.getElem?_range hi
  have hfree : (vacate (List.range (n + 1)) i).length = n := by
    rw [length_vacate hget, List.length_range, Nat.add_sub_cancel]
  have hfix := Worker.writes_fix hget []
  have hrest := Worker.writes_arrange? (vacate (List.range (n + 1)) i) [i]
    (show k ≤ _ by rwa [hfree])
  rw [hfree] at hrest
  rw [List.length_range, Nat.add_sub_cancel, List.append_nil, List.toArray_range] at hfix
  have hrun := (hfix.bind hrest).map_region region
  rw [List.nil_append, ← arrangementsAt_of_getElem? hget, Option.map_eq_bind,
    Option.bind_assoc] at hrun
  exact hrun

/-- The chunks of a request, and the branches that fill them. -/
theorem makeUp_permutationBranches {n k : Nat} (hk : k ≤ n) :
    ∃ branches,
      permutationBranches? (n + 1) (k + 1) ((n + 1) * n.descFactorial k) (n.descFactorial k)
        = some branches ∧
      branches = (List.range (n + 1)).map (fun i => permutationBranch (n + 1) (k + 1) i
        ⟨i * n.descFactorial k, (i + 1) * n.descFactorial k⟩) ∧
      Branch.MakeUp branches (arrangements (k + 1) (List.range (n + 1))) := by
  have hwidth : 0 < n.descFactorial k := Nat.descFactorial_pos.mpr hk
  refine ⟨_, ?_, rfl, ?_⟩
  · rw [permutationBranches?, Span.chunks?_mul hwidth]
    exact congrArg some (Branch.zipIdx_map_range _ _ fun i span => permutationBranch _ _ i span)
  · have hlengths : (List.range (n + 1)).map
          (fun i => (arrangementsAt k (List.range (n + 1)) i).length)
        = List.replicate (n + 1) (n.descFactorial k) := by
      refine List.eq_replicate_iff.mpr ⟨by rw [List.length_map, List.length_range], ?_⟩
      intro length hlength
      obtain ⟨i, hi, rfl⟩ := List.mem_map.mp hlength
      rw [length_arrangementsAt (by simpa using hi), List.length_range, Nat.add_sub_cancel]
    have hmakeUp := Branch.makeUp_of_parts (arrangementsAt k (List.range (n + 1)))
      (permutationBranch (n + 1) (k + 1)) (fun _ _ => rfl)
      (fun i hi span region => fill?_permutationBranch hi hk span region)
    have hspans : ∀ i ∈ List.range (n + 1),
        permutationBranch (n + 1) (k + 1) i
            (Span.nth (List.replicate (n + 1) (n.descFactorial k)) i)
          = permutationBranch (n + 1) (k + 1) i
              ⟨i * n.descFactorial k, (i + 1) * n.descFactorial k⟩ := by
      intro i hi
      rw [Span.nth_replicate (List.mem_range.mp hi)]
    rw [hlengths, List.map_congr_left hspans] at hmakeUp
    rw [arrangements_succ_eq_flatMap, List.length_range]
    exact hmakeUp

theorem branchedPermutations_eq (n k : Nat) : branchedPermutations n k = permutations n k := by
  cases k with
  | zero => rw [branchedPermutations_zero, permutations_zero]
  | succ k =>
      rw [permutations_eq_map, branchedPermutations, if_neg (Nat.succ_ne_zero k)]
      cases hcount : Count.permutations n (k + 1) with
      | error fault => rfl
      | ok size =>
          obtain ⟨hk, hsize, -⟩ := Count.permutations_eq_ok_iff.mp hcount
          obtain ⟨n, rfl⟩ := Nat.exists_eq_add_one.mpr (Nat.lt_of_lt_of_le (Nat.succ_pos k) hk)
          obtain ⟨hcount', hwidth⟩ :=
            Count.permutations_succ_eq_ok (Nat.le_of_succ_le_succ hk) hsize
          obtain rfl : size = (n + 1) * n.descFactorial k :=
            Except.ok.inj (hcount.symm.trans hcount')
          obtain ⟨branches, hbranches, -, hmakeUp⟩ :=
            makeUp_permutationBranches (Nat.le_of_succ_le_succ hk)
          have hrun := hmakeUp.schedules branches (List.Perm.refl branches)
          rw [length_arrangements_range, Nat.succ_descFactorial_succ] at hrun
          simp only [Nat.add_sub_cancel, hwidth, bind, Except.bind]
          rw [hbranches]
          simp only [Option.bind_some, hrun]
          rfl

/-- Branches answer what one run answers, for any request.  Where the listing
has an entry to choose, the chunks are one for each index, all of the same
width, and the branches that start from the fresh workspace fill them with
what the run writes, in any order. -/
theorem branchedPermutations_eq_permutations (n k : Nat) :
    branchedPermutations n k = permutations n k ∧
      (1 ≤ k → k ≤ n → n.factorial / (n - k).factorial ≤ capacity →
        ∃ width items branches,
          Count.permutations (n - 1) (k - 1) = .ok width ∧ 1 ≤ width ∧
          permutations n k = .ok items ∧ items.length = n * width ∧
          permutationBranches? n k items.length width = some branches ∧
          branches = (List.range n).map (fun i =>
            permutationBranch n k i ⟨i * width, (i + 1) * width⟩) ∧
          Branch.MakeUp branches items) := by
  refine ⟨branchedPermutations_eq n k, fun hpos hk hsize => ?_⟩
  rw [← Nat.descFactorial_eq_div hk] at hsize
  obtain ⟨k, rfl⟩ := Nat.exists_eq_add_one.mpr hpos
  obtain ⟨n, rfl⟩ := Nat.exists_eq_add_one.mpr (Nat.lt_of_lt_of_le hpos hk)
  have hk' : k ≤ n := Nat.le_of_succ_le_succ hk
  obtain ⟨hcount, hwidth⟩ := Count.permutations_succ_eq_ok hk' hsize
  obtain ⟨branches, hbranches, hlist, hmakeUp⟩ := makeUp_permutationBranches hk'
  have hlength : (arrangements (k + 1) (List.range (n + 1))).length
      = (n + 1) * n.descFactorial k := by
    rw [length_arrangements_range, Nat.succ_descFactorial_succ]
  refine ⟨n.descFactorial k, arrangements (k + 1) (List.range (n + 1)), branches,
    hwidth, Nat.descFactorial_pos.mpr hk', permutations_eq_ok hcount, hlength,
    by rw [hlength, hbranches], hlist, hmakeUp⟩

/-- The pairs from four, with the four branches run in reverse, and all of 20,
the most there can be, from 20 branches of 19! items each. -/
theorem branchedPermutations_eq_permutations_sizes :
    (1 ≤ 2 ∧ 2 ≤ 4 ∧ Nat.factorial 4 / Nat.factorial (4 - 2) ≤ capacity ∧
      ∃ items branches,
        permutations 4 2 = .ok items ∧ items.length = 12 ∧
        branches = (List.range 4).map (fun i => permutationBranch 4 2 i ⟨i * 3, (i + 1) * 3⟩) ∧
        Branch.runAll? branches.reverse (Region.blankSlots 12) = some items.toArray) ∧
    1 ≤ 20 ∧ 20 ≤ 20 ∧ Nat.factorial 20 / Nat.factorial (20 - 20) ≤ capacity ∧
      ∃ items branches,
        permutations 20 20 = .ok items ∧
        branches = (List.range 20).map (fun i => permutationBranch 20 20 i
          ⟨i * 121645100408832000, (i + 1) * 121645100408832000⟩) ∧
        Branch.MakeUp branches items := by
  have hpos : 1 ≤ 2 := by decide
  have hpairs : 2 ≤ 4 := by decide
  have hpairsSize : Nat.factorial 4 / Nat.factorial (4 - 2) ≤ capacity := by decide
  obtain ⟨three, pairs, fours, hthree, -, hpairsOk, hpairsLength, -, hfours, hfoursMakeUp⟩ :=
    (branchedPermutations_eq_permutations 4 2).2 hpos hpairs hpairsSize
  obtain rfl : three = 3 := by
    obtain ⟨-, -, rfl⟩ := Count.permutations_eq_ok_iff.mp hthree
    decide
  have hreversed := hfoursMakeUp.schedules fours.reverse (List.reverse_perm fours)
  rw [hpairsLength] at hreversed
  have hone : 1 ≤ 20 := by decide
  have hk : 20 ≤ 20 := Nat.le_refl 20
  have hsize : Nat.factorial 20 / Nat.factorial (20 - 20) ≤ capacity := by decide
  obtain ⟨width, items, branches, hwidth, -, hok, -, -, hlist, hmakeUp⟩ :=
    (branchedPermutations_eq_permutations 20 20).2 hone hk hsize
  obtain rfl : width = 121645100408832000 := by
    obtain ⟨-, -, rfl⟩ := Count.permutations_eq_ok_iff.mp hwidth
    decide
  exact ⟨⟨hpos, hpairs, hpairsSize, pairs, fours, hpairsOk, hpairsLength, hfours, hreversed⟩,
    hone, hk, hsize, items, branches, hok, hlist, hmakeUp⟩

end Choices
