/-
# `Choices.Proofs.Combination.Complement` — picking is leaving out

A selection of `k` of `n` leaves out `n - k` indices, and these are a
selection as well.  Put in place of the selections they are the listing for
`n - k`, read backwards: of two selections, the one that picks an element
where the other passes over it comes first, and what it leaves out comes
last.

The recursion shows both.  The selections that pick the first element leave
out what they leave out of the rest, and those that pass over it leave it
out in front.  So the two halves of the listing change places, and each of
them is turned round by the same argument on a shorter pool
(`reverse_map_leftOut`).

The counts agree since a row of Pascal's triangle reads the same from both
ends, so either both listings are refused or neither is.
-/
import Choices.Proofs.Combination.Selections

namespace Choices

variable {α : Type} [DecidableEq α]

/-! ## What an item leaves out -/

/-- The elements of a pool that are not in an item, in the order of the
pool. -/
def leftOut (pool item : List α) : List α :=
  pool.filter (· ∉ item)

theorem leftOut_nil (pool : List α) : leftOut pool [] = pool := by
  simp [leftOut]

/-- An element that is picked once does not matter for the others. -/
theorem leftOut_cons_cons {pool item : List α} {a : α} (h : a ∉ pool) :
    leftOut (a :: pool) (a :: item) = leftOut pool item := by
  rw [leftOut, List.filter_cons_of_neg (by simp)]
  refine List.filter_congr fun b hb => ?_
  have hne : b ≠ a := fun heq => h (heq ▸ hb)
  simp [hne]

theorem leftOut_cons_of_notMem {pool item : List α} {a : α} (h : a ∉ item) :
    leftOut (a :: pool) item = a :: leftOut pool item := by
  simp [leftOut, h]

/-- In a pool of one element more, the selections that pick it leave out what
they left out before, and the others leave it out in front. -/
theorem map_leftOut_selections_cons {k : Nat} {pool : List α} {a : α} (h : a ∉ pool) :
    (selections (k + 1) (a :: pool)).map (leftOut (a :: pool))
      = (selections k pool).map (leftOut pool)
        ++ ((selections (k + 1) pool).map (leftOut pool)).map (a :: ·) := by
  rw [selections_cons, List.map_append, List.map_map, List.map_map]
  refine congrArg₂ _ ?_ ?_
  · exact List.map_congr_left fun item _ => leftOut_cons_cons h
  · refine List.map_congr_left fun item hitem => leftOut_cons_of_notMem fun ha => ?_
    exact h ((mem_selections_iff.mp hitem).2.subset ha)

/-! ## The listing read backwards -/

/-- Induction on the pool.  At both ends of a row there is one selection, and
between them the two halves change places. -/
theorem reverse_map_leftOut : ∀ {pool : List α} {j k : Nat}, pool.Nodup → j + k = pool.length →
    ((selections k pool).map (leftOut pool)).reverse = selections j pool := by
  intro pool
  induction pool with
  | nil =>
      intro j k _ h
      obtain ⟨rfl, rfl⟩ := Nat.add_eq_zero_iff.mp h
      rfl
  | cons a pool ih =>
      intro j k hpool h
      obtain ⟨ha, hpool⟩ := List.nodup_cons.mp hpool
      rw [List.length_cons] at h
      cases k with
      | zero =>
          obtain rfl : j = pool.length + 1 := h
          have hrest := ih hpool (Nat.add_zero pool.length)
          have hnone : selections (pool.length + 1) pool = [] :=
            selections_eq_nil (Nat.lt_succ_self _)
          rw [selections_zero, List.map_singleton, leftOut_nil, List.reverse_singleton] at hrest ⊢
          rw [selections_cons, hnone, ← hrest, List.append_nil, List.map_singleton]
      | succ k =>
          rw [map_leftOut_selections_cons ha, List.reverse_append, ← List.map_reverse]
          cases j with
          | zero =>
              have hnone : selections (k + 1) pool = [] := selections_eq_nil (by omega)
              rw [hnone, ih hpool (show 0 + k = pool.length by omega), selections_zero,
                selections_zero]
              rfl
          | succ j =>
              rw [ih hpool (show j + (k + 1) = pool.length by omega),
                ih hpool (show j + 1 + k = pool.length by omega), selections_cons]

example : ((selections 3 [0, 1, 2, 3]).map (leftOut [0, 1, 2, 3])).reverse
    = [[0], [1], [2], [3]] := by
  decide

/-- The listings for `k` and for `n - k` are refused together, with an
overflow, or both are there.  Then the one is the other backwards, with every
selection replaced by the ascending list of the indices it leaves out. -/
theorem combinations_sub_eq_reverse {n k : Nat} (hk : k ≤ n) :
    (capacity < n.choose k ∧
        combinations n k = .error (.overflow .combinations) ∧
        combinations n (n - k) = .error (.overflow .combinations)) ∨
      (n.choose k ≤ capacity ∧
        ∃ items, combinations n k = .ok items ∧
          combinations n (n - k) = .ok (items.map (leftOut (List.range n))).reverse) := by
  have hsub : n - k ≤ n := Nat.sub_le n k
  have hsymm : n.choose (n - k) = n.choose k := Nat.choose_symm hk
  rcases Nat.lt_or_ge capacity (n.choose k) with hlarge | hsize
  · exact Or.inl ⟨hlarge,
      combinations_eq_error ((Count.combinations_eq_overflow_iff hk).mpr hlarge),
      combinations_eq_error ((Count.combinations_eq_overflow_iff hsub).mpr (hsymm ▸ hlarge))⟩
  · have hlength : n - k + k = (List.range n).length := by
      rw [List.length_range, Nat.sub_add_cancel hk]
    refine Or.inr ⟨hsize, selections k (List.range n), ?_, ?_⟩
    · exact combinations_eq_ok (Count.combinations_eq_ok_iff.mpr ⟨hk, hsize, rfl⟩)
    · rw [reverse_map_leftOut List.nodup_range hlength]
      exact combinations_eq_ok (Count.combinations_eq_ok_iff.mpr ⟨hsub, hsymm ▸ hsize, rfl⟩)

/-- Pairs and triples from five.  Row 67 still fits, with 33 picked or left out,
and in row 68 neither does. -/
theorem combinations_sub_eq_reverse_sizes :
    3 ≤ 5 ∧ 33 ≤ 67 ∧ 33 ≤ 68 ∧
      (∃ items, combinations 5 3 = .ok items ∧
        (items.map (leftOut (List.range 5))).reverse
          = [[0, 1], [0, 2], [0, 3], [0, 4], [1, 2], [1, 3], [1, 4], [2, 3], [2, 4], [3, 4]]) ∧
      (∃ items, combinations 67 33 = .ok items ∧
        combinations 67 34 = .ok (items.map (leftOut (List.range 67))).reverse) ∧
      combinations 68 33 = .error (.overflow .combinations) ∧
      combinations 68 35 = .error (.overflow .combinations) := by
  have htriples : 3 ≤ 5 := by decide
  have hk : 33 ≤ 67 := by decide
  have hk' : 33 ≤ 68 := by decide
  have hlisting : combinations 5 2
      = .ok [[0, 1], [0, 2], [0, 3], [0, 4], [1, 2], [1, 3], [1, 4], [2, 3], [2, 4], [3, 4]] := by
    decide +kernel
  have hsize : Nat.choose 67 33 ≤ capacity := by
    rw [Nat.choose_eq_descFactorial_div_factorial]
    decide
  have hlarge : capacity < Nat.choose 68 33 := by
    rw [Nat.choose_eq_descFactorial_div_factorial]
    decide
  rcases combinations_sub_eq_reverse htriples with ⟨hover, -⟩ | ⟨-, triples, hpicks, hpairs⟩
  · exact absurd hover (by decide)
  rcases combinations_sub_eq_reverse hk with ⟨hover, -⟩ | ⟨-, hitems⟩
  · exact absurd hsize (Nat.not_le.mpr hover)
  rcases combinations_sub_eq_reverse hk' with ⟨-, hpicked, hleft⟩ | ⟨hfits, -⟩
  · have hcomplement := Except.ok.inj (hpairs.symm.trans hlisting)
    exact ⟨htriples, hk, hk', ⟨triples, hpicks, hcomplement⟩, hitems, hpicked, hleft⟩
  · exact absurd hfits (Nat.not_le.mpr hlarge)

end Choices
