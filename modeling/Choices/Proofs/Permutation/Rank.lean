/-
# `Choices.Proofs.Permutation.Rank` — an arrangement from its index

Which arrangement stands at an index can be read off the index.  Of `k` out
of `n` there are as many with one last entry as `k - 1` can be arranged out
of the others, so the index divided by that count says which place the last
entry is taken from, and the remainder goes on in the same way.  These
quotients are the digits of the index (`rankDigit`), and the exchanges they
name, done on the fresh workspace one after another, leave the arrangement at
its end:

    d₀ = r / P(n-1, k-1),  d₁ = (r % P(n-1, k-1)) / P(n-2, k-2),  …
    exchange place d₀ with n-1, place d₁ with n-2, …

The enumeration does all its exchanges on one workspace and undoes each of
them.  That is why no exchange of an earlier subtree shows in a later one, and
`arrangements`, which has no workspace, has the order already.  What is left
is one induction on the number of picks: a digit selects a part of the list,
its exchange takes the pool to the pool of that part.
-/
import Mathlib.Data.List.DropRight
import Choices.Proofs.Branch
import Choices.Proofs.Permutation.Arrangements

namespace Choices

/-! ## Digits of an index -/

/-- What the digits before index `j` leave of a rank. -/
def rankRest (n k rank : Nat) : (j : Nat) → Nat
  | 0 => rank
  | j + 1 => rankRest n k rank j % (n - 1 - j).descFactorial (k - 1 - j)

/-- The digit of a rank with index `j`. -/
def rankDigit (n k rank j : Nat) : Nat :=
  rankRest n k rank j / (n - 1 - j).descFactorial (k - 1 - j)

/-- What the first digit leaves has the other digits. -/
theorem rankRest_succ (n k rank : Nat) : ∀ j : Nat,
    rankRest (n + 1) (k + 1) rank (j + 1) = rankRest n k (rank % n.descFactorial k) j := by
  intro j
  induction j with
  | zero => rfl
  | succ j ih =>
      have hn : n + 1 - 1 - (j + 1) = n - 1 - j := by omega
      have hk : k + 1 - 1 - (j + 1) = k - 1 - j := by omega
      rw [rankRest, ih, rankRest, hn, hk]

theorem rankDigit_succ (n k rank j : Nat) :
    rankDigit (n + 1) (k + 1) rank (j + 1) = rankDigit n k (rank % n.descFactorial k) j := by
  have hn : n + 1 - 1 - (j + 1) = n - 1 - j := by omega
  have hk : k + 1 - 1 - (j + 1) = k - 1 - j := by omega
  rw [rankDigit, rankRest_succ, rankDigit, hn, hk]

theorem rankDigit_zero (n k rank : Nat) :
    rankDigit (n + 1) (k + 1) rank 0 = rank / n.descFactorial k := rfl

variable {α : Type}

/-! ## Exchanges -/

/-- The workspace after the exchanges that the digits of a rank name. -/
def exchangeAll (n k rank : Nat) (work : Array α) : Array α :=
  (List.range k).foldl (fun work j => work.swapIfInBounds (rankDigit n k rank j) (n - 1 - j)) work

theorem exchangeAll_succ (n k rank : Nat) (work : Array α) :
    exchangeAll (n + 1) (k + 1) rank work
      = exchangeAll n k (rank % n.descFactorial k)
          (work.swapIfInBounds (rank / n.descFactorial k) n) := by
  have hround : ∀ j, n + 1 - 1 - (j + 1) = n - 1 - j := by
    intro j
    omega
  rw [exchangeAll, List.range_succ_eq_map, List.foldl_cons, List.foldl_map]
  simp only [rankDigit_succ, hround]
  rfl

theorem swapIfInBounds_toArray_append {pool : List α} {i : Nat} {a : α} (h : pool[i]? = some a)
    (tail : List α) :
    (pool ++ tail).toArray.swapIfInBounds i (pool.length - 1)
      = (vacate pool i ++ a :: tail).toArray := by
  obtain ⟨hi, hlast⟩ := Worker.lt_size_toArray_append h tail
  rw [Array.swapIfInBounds, dif_pos hi, dif_pos hlast]
  exact Worker.swap_toArray_append h hi hlast

/-! ## Parts of one length -/

/-- Where all parts have one length, an index divided by it is the index of the
part. -/
theorem getElem?_flatMap_range {β : Type} {count width r : Nat} {part : Nat → List β}
    (hwidth : ∀ i < count, (part i).length = width) (hr : r < count * width) :
    ((List.range count).flatMap part)[r]? = (part (r / width))[r % width]? := by
  have hpos : 0 < width := by
    refine Nat.pos_of_ne_zero fun hzero => ?_
    rw [hzero, Nat.mul_zero] at hr
    exact Nat.not_lt_zero r hr
  have hpart : r / width < count := Nat.div_lt_of_lt_mul (Nat.mul_comm count width ▸ hr)
  have hplace : r % width < width := Nat.mod_lt r hpos
  have hlengths : ((List.range count).map part).map List.length = List.replicate count width := by
    refine List.eq_replicate_iff.mpr ⟨by simp, fun length hlength => ?_⟩
    rw [List.map_map] at hlength
    obtain ⟨i, hi, rfl⟩ := List.mem_map.mp hlength
    exact hwidth i (List.mem_range.mp hi)
  have hpart' : r / width < ((List.range count).map part).length := by simpa using hpart
  have hplace' : r % width < ((List.range count).map part)[r / width].length := by
    simpa [hwidth _ hpart] using hplace
  have hentry := Span.getElem?_flatten_nth hpart' hplace'
  rw [hlengths, Span.nth_replicate hpart, Nat.div_add_mod', List.getElem_map,
    List.getElem_range] at hentry
  exact hentry

/-! ## The order of the arrangements -/

/-- The first digit of an index selects the part its arrangement is in, by the
last entry, and what is left of the index finds it there. -/
theorem getElem?_arrangements_succ {k n rank : Nat} {pool : List α} {a : α}
    (hlength : pool.length = n + 1) (hrank : rank < (n + 1) * n.descFactorial k)
    (hget : pool[rank / n.descFactorial k]? = some a) :
    (arrangements (k + 1) pool)[rank]?
      = (arrangements k (vacate pool (rank / n.descFactorial k)))[rank % n.descFactorial k]?.map
          (· ++ [a]) := by
  have hparts : ∀ i < pool.length, (arrangementsAt k pool i).length = n.descFactorial k := by
    intro i hi
    rw [length_arrangementsAt hi, hlength, Nat.add_sub_cancel]
  rw [arrangements_succ_eq_flatMap, getElem?_flatMap_range hparts (hlength ▸ hrank),
    arrangementsAt_of_getElem? hget, List.getElem?_map]

/-- Induction on the number of picks, along the digits.  An exchange takes the
pool to what is free after the entry it fixes. -/
theorem exists_exchangeAll : ∀ {k : Nat} {pool : List α} (tail : List α) {rank : Nat},
    k ≤ pool.length → rank < pool.length.descFactorial k →
    (∀ j < k, rankDigit pool.length k rank j < pool.length - j) ∧
      ∃ free item, (arrangements k pool)[rank]? = some item ∧
        exchangeAll pool.length k rank (pool ++ tail).toArray
          = (free ++ (item ++ tail)).toArray := by
  intro k
  induction k with
  | zero =>
      intro pool tail rank _ hrank
      obtain rfl : rank = 0 := Nat.lt_one_iff.mp hrank
      exact ⟨fun j hj => absurd hj (Nat.not_lt_zero j), pool, [], rfl, rfl⟩
  | succ k ih =>
      intro pool tail rank hk hrank
      obtain ⟨n, hn⟩ : ∃ n, pool.length = n + 1 :=
        Nat.exists_eq_add_one.mpr (Nat.lt_of_lt_of_le (Nat.succ_pos k) hk)
      rw [hn] at hk
      rw [hn, Nat.succ_descFactorial_succ] at hrank
      have hk' : k ≤ n := Nat.le_of_succ_le_succ hk
      have hdigit : rank / n.descFactorial k < n + 1 :=
        Nat.div_lt_of_lt_mul (Nat.mul_comm (n + 1) _ ▸ hrank)
      have hrest : rank % n.descFactorial k < n.descFactorial k :=
        Nat.mod_lt rank (Nat.descFactorial_pos.mpr hk')
      obtain ⟨a, hget⟩ : ∃ a, pool[rank / n.descFactorial k]? = some a :=
        ⟨_, List.getElem?_eq_getElem (hn ▸ hdigit)⟩
      have hfree : (vacate pool (rank / n.descFactorial k)).length = n := by
        rw [length_vacate hget, hn, Nat.add_sub_cancel]
      have hexchange := swapIfInBounds_toArray_append hget tail
      rw [hn, Nat.add_sub_cancel] at hexchange
      have hih := ih (a :: tail) (hfree ▸ hk') (hfree.symm ▸ hrest)
      rw [hfree] at hih
      obtain ⟨hdigits, free, item, hitem, hwork⟩ := hih
      refine ⟨fun j hj => ?_, free, item ++ [a], ?_, ?_⟩
      · cases j with
        | zero =>
            rw [hn, rankDigit_zero]
            exact hdigit
        | succ j =>
            rw [hn, rankDigit_succ, Nat.succ_sub_succ]
            exact hdigits j (Nat.lt_of_succ_lt_succ hj)
      · rw [getElem?_arrangements_succ hn hrank hget, hitem]
        rfl
      · rw [hn, exchangeAll_succ, hexchange, hwork, List.append_assoc]
        rfl

/-- The arrangement at an index is what the exchanges named by the digits of
the index leave at the end of the fresh workspace, and no digit names a place
that is fixed already. -/
theorem permutations_getElem?_rank {n k size rank : Nat}
    (hcount : Count.permutations n k = .ok size) (hrank : rank < size) :
    (∀ j < k, rankDigit n k rank j < n - j) ∧
      ∃ items, permutations n k = .ok items ∧ items.length = size ∧
        items[rank]? = some ((exchangeAll n k rank (Array.range n)).toList.rtake k) := by
  obtain ⟨hk, -, rfl⟩ := Count.permutations_eq_ok_iff.mp hcount
  have hlength : (List.range n).length = n := List.length_range
  have hranked := exists_exchangeAll [] (hlength.symm ▸ hk) (hlength.symm ▸ hrank)
  rw [hlength, List.append_nil, List.toArray_range] at hranked
  obtain ⟨hdigits, free, item, hitem, hwork⟩ := hranked
  have hpicks : item.length = k :=
    (mem_arrangements_range_iff.mp (List.mem_of_getElem? hitem)).1
  have hend : (free ++ item).rtake k = item := by
    rw [List.rtake, List.length_append, hpicks, Nat.add_sub_cancel, List.drop_left]
  refine ⟨hdigits, arrangements k (List.range n), permutations_eq_ok hcount,
    length_arrangements_range n k, ?_⟩
  rw [hwork, List.append_nil, hend]
  exact hitem

/-- One of the 360 arrangements of four out of six, and one of those of all of
20, from the middle of the list. -/
theorem permutations_getElem?_rank_sizes :
    (Count.permutations 6 4 = .ok 360 ∧ 200 < 360 ∧
      ∃ items, permutations 6 4 = .ok items ∧ items.length = 360 ∧
        items[200]? = some [5, 2, 1, 3]) ∧
    Count.permutations 20 20 = .ok 2432902008176640000 ∧
      1000000000000000000 < 2432902008176640000 ∧
      ∃ items, permutations 20 20 = .ok items ∧
        items[1000000000000000000]?
          = some [10, 0, 17, 6, 1, 11, 16, 2, 14, 13, 15, 9, 18, 19, 5, 12, 7, 3, 4, 8] := by
  have hfours : Count.permutations 6 4 = .ok 360 := by decide
  have hfoursRank : 200 < 360 := by decide
  obtain ⟨-, fours, hfoursOk, hfoursLength, hfour⟩ :=
    permutations_getElem?_rank hfours hfoursRank
  have hfourWork : (exchangeAll 6 4 200 (Array.range 6)).toList.rtake 4 = [5, 2, 1, 3] := by
    decide
  have hcount : Count.permutations 20 20 = .ok 2432902008176640000 := by decide
  have hrank : 1000000000000000000 < 2432902008176640000 := by decide
  obtain ⟨-, items, hok, -, hitem⟩ := permutations_getElem?_rank hcount hrank
  have hwork : (exchangeAll 20 20 1000000000000000000 (Array.range 20)).toList.rtake 20
      = [10, 0, 17, 6, 1, 11, 16, 2, 14, 13, 15, 9, 18, 19, 5, 12, 7, 3, 4, 8] := by decide
  exact ⟨⟨hfours, hfoursRank, fours, hfoursOk, hfoursLength,
      hfour.trans (congrArg some hfourWork)⟩,
    hcount, hrank, items, hok, hitem.trans (congrArg some hwork)⟩

end Choices
