/-
# `Choices.Proofs.Factors` — what the loop over consecutive factors passes

A factorial and a count of arrangements are both products of consecutive
factors, `2, …, n` for the one and `n - k + 1, …, n` for the other, and one
loop multiplies them up from the smallest.  It gives up at the first product
past the capacity, long before it has seen the last factor.  This module is
about the way there.

`Multiplies first total count factor acc` says that the loop over `total`
factors from `first` comes to its call with `count` factors left, `factor`
next and `acc` so far.  There are two invariants, `factor + count = first +
total` and

    acc * factor.ascFactorial count = first.ascFactorial total

The first says that no factor is larger than the last one, `n` for both
counts, so an index and the factor that follows it are numbers of 64 bits
when `n` is.  The second says that what is left multiplies the product so far
up to the whole one.  Factors are at least 1, so no product on the way is
larger than the whole, and giving up early is never a mistake.
-/
import Mathlib.Data.Nat.Factorial.Basic
import Choices.Proofs.Count

namespace Choices

/-- The calls that the loop over `total` factors from `first` comes to: the
first one, and from each the next, unless the product to hand on is past the
capacity. -/
inductive Multiplies (first total : Nat) : (count factor acc : Nat) → Prop
  | start : Multiplies first total total first 1
  | step {count factor acc : Nat} : Multiplies first total (count + 1) factor acc →
      acc * factor ≤ capacity → Multiplies first total count (factor + 1) (acc * factor)

namespace Multiplies

variable {first total count factor acc : Nat}

/-- The answer of the loop is the answer of each call it comes to. -/
theorem risingProduct?_eq (h : Multiplies first total count factor acc) :
    risingProduct? total first 1 = risingProduct? count factor acc := by
  induction h with
  | start => rfl
  | step _ hnext ih => rw [ih, risingProduct?, if_pos hnext]

theorem factor_add_count (h : Multiplies first total count factor acc) :
    factor + count = first + total := by
  induction h with
  | start => rfl
  | step _ _ ih => omega

/-- What is left multiplies the product so far up to the whole one. -/
theorem acc_mul (h : Multiplies first total count factor acc) :
    acc * factor.ascFactorial count = first.ascFactorial total := by
  induction h with
  | start => exact Nat.one_mul _
  | step _ _ ih => rw [← mul_ascFactorial_succ, ih]

theorem acc_le (h : Multiplies first total count factor acc) : acc ≤ capacity := by
  cases h with
  | start => decide
  | step _ hnext => exact hnext

theorem first_le (h : Multiplies first total count factor acc) : first ≤ factor := by
  induction h with
  | start => exact Nat.le_refl _
  | step _ _ ih => exact Nat.le_succ_of_le ih

/-- The next product is no larger than the whole one. -/
theorem product_le (h : Multiplies first total (count + 1) factor acc) :
    acc * factor ≤ first.ascFactorial total := by
  have hrest : 0 < (factor + 1).ascFactorial count := Nat.ascFactorial_pos factor count
  calc acc * factor ≤ acc * factor * (factor + 1).ascFactorial count :=
        Nat.le_mul_of_pos_right _ hrest
    _ = acc * factor.ascFactorial (count + 1) := (mul_ascFactorial_succ acc factor count).symm
    _ = first.ascFactorial total := h.acc_mul

/-- Induction on the number of factors taken.  A loop whose product fits never
gives up. -/
theorem of_fits (hfits : first.ascFactorial total ≤ capacity) :
    ∀ {taken : Nat}, taken ≤ total →
      Multiplies first total (total - taken) (first + taken) (first.ascFactorial taken) := by
  intro taken
  induction taken with
  | zero => intro _; exact .start
  | succ taken ih =>
      intro htaken
      have hcall := ih (Nat.le_of_succ_le htaken)
      rw [show total - taken = total - (taken + 1) + 1 by omega] at hcall
      have hnext := hcall.step (Nat.le_trans hcall.product_le hfits)
      rw [Nat.mul_comm, ← Nat.ascFactorial_succ] at hnext
      exact hnext

end Multiplies

/-- Both counts are exact or an overflow, as the whole product decides, and a
count of arrangements is a domain fault exactly when more are to be picked than
there are.  On the way no factor is larger than `n`, no product larger than the
whole one, and a loop whose product fits takes every factor.  Where the
factorial of `n` fits, so do the count of arrangements and the factorial of
what it leaves out, and it is their product. -/
theorem permutations_factorial_exact (n k : Nat) :
    (Count.permutations n k = .error (.domain n k) ↔ n < k) ∧
      (k ≤ n →
        (∀ count, Count.permutations n k = .ok count ↔
          count = n.descFactorial k ∧ n.descFactorial k ≤ capacity) ∧
        (Count.permutations n k = .error (.overflow .permutations) ↔
          capacity < n.descFactorial k) ∧
        (∀ count factor acc, Multiplies (n - k + 1) k (count + 1) factor acc →
          Count.permutations n k
              = orOverflow .permutations (risingProduct? (count + 1) factor acc) ∧
            factor ≤ n ∧ acc ≤ capacity ∧ acc * factor ≤ n.descFactorial k) ∧
        (n.descFactorial k ≤ capacity → ∀ taken ≤ k,
          Multiplies (n - k + 1) k (k - taken) (n - k + 1 + taken)
            ((n - k + 1).ascFactorial taken))) ∧
      (∀ count, Count.factorial n = .ok count ↔ count = n.factorial ∧ n.factorial ≤ capacity) ∧
      (Count.factorial n = .error (.overflow .factorial) ↔ capacity < n.factorial) ∧
      (∀ count factor acc, Multiplies 2 (n - 1) (count + 1) factor acc →
        Count.factorial n = orOverflow .factorial (risingProduct? (count + 1) factor acc) ∧
          factor ≤ n ∧ acc ≤ capacity ∧ acc * factor ≤ n.factorial) ∧
      (k ≤ n → ∀ whole, Count.factorial n = .ok whole →
        ∃ arranged rest, Count.permutations n k = .ok arranged ∧
          Count.factorial (n - k) = .ok rest ∧ arranged * rest = whole) := by
  refine ⟨Count.permutations_eq_domain_iff, fun hk => ⟨fun count => ?_,
    Count.permutations_eq_overflow_iff hk, fun count factor acc h => ?_,
    fun hfits taken htaken => ?_⟩, fun count => ?_, Count.factorial_eq_overflow_iff,
    fun count factor acc h => ?_, fun hk whole hwhole => ?_⟩
  · rw [Count.permutations_eq hk, orOverflow_within?_eq_ok_iff]
    exact and_comm
  · have hrun : Count.permutations n k
        = orOverflow .permutations (risingProduct? k (n - k + 1) 1) :=
      if_neg (Nat.not_lt.mpr hk)
    have hlast := h.factor_add_count
    have hproduct := h.product_le
    rw [ascFactorial_sub_succ hk] at hproduct
    exact ⟨by rw [hrun, h.risingProduct?_eq], by omega, h.acc_le, hproduct⟩
  · rw [← ascFactorial_sub_succ hk] at hfits
    exact Multiplies.of_fits hfits htaken
  · rw [Count.factorial_eq_ok_iff]
    exact and_comm
  · have hfirst := h.first_le
    have hlast := h.factor_add_count
    have hproduct := h.product_le
    rw [ascFactorial_two_pred] at hproduct
    exact ⟨by rw [Count.factorial, h.risingProduct?_eq], by omega, h.acc_le, hproduct⟩
  · obtain ⟨hfits, rfl⟩ := Count.factorial_eq_ok_iff.mp hwhole
    have hsplit : n.descFactorial k * (n - k).factorial = n.factorial := by
      rw [Nat.mul_comm, Nat.factorial_mul_descFactorial hk]
    have harranged : n.descFactorial k ≤ n.factorial :=
      Nat.le_of_dvd n.factorial_pos (⟨_, hsplit.symm⟩)
    have hrest : (n - k).factorial ≤ n.factorial := Nat.factorial_le (Nat.sub_le n k)
    exact ⟨_, _, Count.permutations_eq_ok_iff.mpr ⟨hk, Nat.le_trans harranged hfits, rfl⟩,
      Count.factorial_eq_ok_iff.mpr ⟨Nat.le_trans hrest hfits, rfl⟩, hsplit⟩

/-- 20 is the last number whose factorial fits, and the count of its
arrangements by sevens is the quotient.  The two largest factors there are come
to a product past the capacity, and the loop has both of them within it. -/
theorem permutations_factorial_exact_edges :
    7 ≤ 20 ∧ Count.factorial 20 = .ok 2432902008176640000 ∧
      (∃ arranged rest, Count.permutations 20 7 = .ok arranged ∧
        Count.factorial 13 = .ok rest ∧ arranged * rest = 2432902008176640000) ∧
      Count.factorial 21 = .error (.overflow .factorial) ∧
      2 ≤ capacity ∧ Multiplies (capacity - 2 + 1) 2 1 capacity (capacity - 1) ∧
      Count.permutations capacity 2
        = orOverflow .permutations (risingProduct? 1 capacity (capacity - 1)) ∧
      Count.permutations capacity 2 = .error (.overflow .permutations) := by
  have hk : 7 ≤ 20 := by decide
  have hlast : Count.factorial 20 = .ok 2432902008176640000 := by decide
  obtain ⟨-, -, -, -, -, hquotient⟩ := permutations_factorial_exact 20 7
  obtain ⟨-, -, -, hpast, -⟩ := permutations_factorial_exact 21 0
  have hpair : 2 ≤ capacity := by decide
  have hcall : Multiplies (capacity - 2 + 1) 2 1 capacity (capacity - 1) :=
    Multiplies.start.step (by decide)
  have hlarge : capacity < capacity.descFactorial 2 := by decide
  obtain ⟨-, hoverflow, hcalls, -⟩ := (permutations_factorial_exact capacity 2).2.1 hpair
  exact ⟨hk, hlast, hquotient hk _ hlast, hpast.mpr (by decide), hpair, hcall,
    (hcalls _ _ _ hcall).1, hoverflow.mpr hlarge⟩

end Choices
