/-
# `Choices.Proofs.Coefficients` — what the loop over a row of coefficients passes

The count of selections is exact, or an overflow, as the binomial
coefficient itself decides.  This module is about the way there.

`Passes n total steps i acc` says that the loop for `total` steps along row
`n` comes to its call at index `i` with accumulator `acc` and `steps` left.
The invariant is one equation, `acc = n.choose i`, and all else is read off
it: the division that follows is exact, the product before the division
stays below the square of the capacity and so below 128 bits, and the exit
on a coefficient past the capacity is never taken when the last coefficient
fits, since coefficients only grow up to the middle of the row.
-/
import Mathlib.Data.Nat.Choose.Basic
import Choices.Proofs.Count

namespace Choices

/-- The largest number of 128 bits, which the products on the way have to
stay within. -/
def wideCapacity : Nat := Nat.pow 2 128 - 1

/-- The calls that the loop for `total` steps along row `n` comes to: the
first one, and from each the next, unless the coefficient to hand on is past
the capacity. -/
inductive Passes (n total : Nat) : (steps i acc : Nat) → Prop
  | start : Passes n total total 0 1
  | step {steps i acc : Nat} : Passes n total (steps + 1) i acc →
      acc * (n - i) / (i + 1) ≤ capacity →
      Passes n total steps (i + 1) (acc * (n - i) / (i + 1))

namespace Passes

variable {n total steps i acc : Nat}

/-- The answer of the loop is the answer of each call it comes to. -/
theorem binomial?_eq (h : Passes n total steps i acc) :
    binomial? n total 0 1 = binomial? n steps i acc := by
  induction h with
  | start => rfl
  | step _ hnext ih => rw [ih, binomial?, if_pos hnext]

/-- The invariant. -/
theorem acc_eq (h : Passes n total steps i acc) : acc = n.choose i := by
  induction h with
  | start => rw [Nat.choose_zero_right]
  | step _ _ ih => rw [ih, choose_mul_sub_div]

theorem acc_le (h : Passes n total steps i acc) : acc ≤ capacity := by
  cases h with
  | start => decide
  | step _ hnext => exact hnext

theorem succ_dvd (h : Passes n total steps i acc) : i + 1 ∣ acc * (n - i) := by
  rw [h.acc_eq, ← Nat.choose_succ_right_eq]
  exact Nat.dvd_mul_left (i + 1) _

theorem product_le (h : Passes n total steps i acc) (hn : n ≤ capacity) :
    acc * (n - i) ≤ wideCapacity := by
  have hfactor : n - i ≤ capacity := Nat.le_trans (Nat.sub_le n i) hn
  calc acc * (n - i) ≤ capacity * capacity := Nat.mul_le_mul h.acc_le hfactor
    _ ≤ wideCapacity := by decide

/-- Induction on the index.  A coefficient on the way is no larger than the
last one, so the loop does not exit before it. -/
theorem of_fits (hhalf : 2 * total ≤ n) (hfits : n.choose total ≤ capacity) :
    ∀ {i : Nat}, i ≤ total → Passes n total (total - i) i (n.choose i) := by
  intro i
  induction i with
  | zero =>
      intro _
      rw [Nat.choose_zero_right]
      exact .start
  | succ i ih =>
      intro hi
      have hcall := ih (Nat.le_of_succ_le hi)
      rw [show total - i = total - (i + 1) + 1 by omega] at hcall
      have hgrow : n.choose (i + 1) ≤ n.choose (i + 1 + (total - (i + 1))) :=
        choose_le_choose_add (by omega)
      rw [Nat.add_sub_cancel' hi] at hgrow
      have hnext := hcall.step
      rw [choose_mul_sub_div] at hnext
      exact hnext (Nat.le_trans hgrow hfits)

end Passes

/-- The count of selections is a domain fault exactly when more are to be
picked than there are, and otherwise the binomial coefficient or an overflow,
as that coefficient decides.  On the way the accumulator is the coefficient
of its index, divisions are exact, products fit 128 bits, and a loop whose
last coefficient fits passes all indices. -/
theorem combinations_exact (n k : Nat) :
    (Count.combinations n k = .error (.domain n k) ↔ n < k) ∧
      (k ≤ n →
        (∀ count, Count.combinations n k = .ok count ↔
          count = n.choose k ∧ n.choose k ≤ capacity) ∧
        (Count.combinations n k = .error (.overflow .combinations) ↔ capacity < n.choose k) ∧
        (∀ steps i acc, Passes n (min k (n - k)) steps i acc →
          Count.combinations n k = orOverflow .combinations (binomial? n steps i acc) ∧
          acc = n.choose i ∧
          i + 1 ∣ acc * (n - i) ∧
          (n ≤ capacity → acc * (n - i) ≤ wideCapacity)) ∧
        (n.choose k ≤ capacity → ∀ i ≤ min k (n - k),
          Passes n (min k (n - k)) (min k (n - k) - i) i (n.choose i))) := by
  refine ⟨Count.combinations_eq_domain_iff, fun hk =>
    ⟨fun count => ?_, Count.combinations_eq_overflow_iff hk, fun steps i acc h => ?_,
      fun hfits i hi => ?_⟩⟩
  · rw [Count.combinations_eq_ok_iff]
    constructor
    · rintro ⟨-, hfits, rfl⟩
      exact ⟨rfl, hfits⟩
    · rintro ⟨rfl, hfits⟩
      exact ⟨hk, hfits, rfl⟩
  · have hrun : Count.combinations n k
        = orOverflow .combinations (binomial? n (min k (n - k)) 0 1) :=
      if_neg (Nat.not_lt.mpr hk)
    exact ⟨by rw [hrun, h.binomial?_eq], h.acc_eq, h.succ_dvd, h.product_le⟩
  · rw [← choose_min_sub hk] at hfits
    exact Passes.of_fits (by omega) hfits hi

/-- The middle of row 67 is passed to its end, 14226520737620288370.  In the
longest row there is, the first step is taken and the second one is not: its
product still fits 128 bits, its coefficient is past the capacity. -/
theorem combinations_exact_edges :
    33 ≤ 67 ∧ Nat.choose 67 33 ≤ capacity ∧
      Count.combinations 67 33 = .ok (Nat.choose 67 33) ∧
      Passes 67 33 0 33 (Nat.choose 67 33) ∧
      2 ≤ capacity ∧ capacity < capacity.choose 2 ∧
      Passes capacity 2 1 1 capacity ∧ capacity * (capacity - 1) ≤ wideCapacity ∧
      Count.combinations capacity 2 = .error (.overflow .combinations) := by
  have hk : 33 ≤ 67 := by decide
  have hsize : Nat.choose 67 33 ≤ capacity := by
    rw [Nat.choose_eq_descFactorial_div_factorial]
    decide
  obtain ⟨hok, -, -, hpasses⟩ := (combinations_exact 67 33).2 hk
  have hpair : 2 ≤ capacity := by decide
  have hlarge : capacity < capacity.choose 2 := by
    rw [Nat.choose_two_right]
    decide
  have hfirst : Passes capacity 2 1 1 capacity := Passes.start.step (by decide)
  obtain ⟨-, hoverflow, hcall, -⟩ := (combinations_exact capacity 2).2 hpair
  obtain ⟨-, -, -, hproduct⟩ := hcall 1 1 capacity hfirst
  exact ⟨hk, hsize, (hok _).mpr ⟨rfl, hsize⟩, hpasses hsize 33 (by decide), hpair,
    hlarge, hfirst, hproduct (Nat.le_refl _), hoverflow.mpr hlarge⟩

end Choices
