/-
# `Choices.Proofs.Count` — the counts are exact

A count is either the number it stands for or a fault, and which of the two
is decided by that number alone:

    Count.factorial n = orOverflow .factorial (within? n.factorial)
    Count.permutations n k = orOverflow .permutations (within? (n.descFactorial k))
    Count.combinations n k = orOverflow .combinations (within? (n.choose k))

the last two for `k ≤ n`.  All loops give up at the first value past the capacity, so
what has to be shown is that no value on the way is larger than the last
one.  A rising product only grows because its factors are at least 1.  The
coefficients of one row of Pascal's triangle grow up to the middle of the
row, and `Count.combinations` never walks further than that.
-/
import Mathlib.Data.Nat.Choose.Basic
import Mathlib.Data.Nat.Factorial.Basic
import Choices.Count

namespace Choices

/-- A number that may be handed on as a count, or `none` past the capacity. -/
def within? (count : Nat) : Option Nat :=
  if count ≤ capacity then some count else none

theorem within?_of_le {count : Nat} (h : count ≤ capacity) : within? count = some count :=
  if_pos h

theorem within?_of_lt {count : Nat} (h : capacity < count) : within? count = none :=
  if_neg (Nat.not_le.mpr h)

theorem within?_eq_some_iff {count c : Nat} :
    within? count = some c ↔ count ≤ capacity ∧ c = count := by
  by_cases h : count ≤ capacity
  · simp [within?, h, eq_comm]
  · simp [within?, h]

theorem within?_eq_none_iff {count : Nat} : within? count = none ↔ capacity < count := by
  by_cases h : count ≤ capacity
  · simp [within?, h]
  · simp [within?, h, Nat.lt_of_not_le h]

/-! ## Counts that fit or do not -/

theorem orOverflow_within?_eq_ok_iff {what : Quantity} {count size : Nat} :
    orOverflow what (within? count) = .ok size ↔ count ≤ capacity ∧ size = count := by
  rw [orOverflow_eq_ok_iff, within?_eq_some_iff]

theorem orOverflow_within?_eq_overflow_iff {what : Quantity} {count : Nat} :
    orOverflow what (within? count) = .error (.overflow what) ↔ capacity < count := by
  rw [orOverflow_eq_error_iff, within?_eq_none_iff]
  exact and_iff_left rfl

section

/-! Both counts of picking `k` out of `n` are domain faults for `n < k` and
otherwise a number that fits or does not. -/

variable {what : Quantity} {answer : Except Fault Nat} {n k count : Nat}

theorem eq_ok_iff_of_pick (hfew : n < k → answer = .error (.domain n k))
    (hcount : k ≤ n → answer = orOverflow what (within? count)) {size : Nat} :
    answer = .ok size ↔ k ≤ n ∧ count ≤ capacity ∧ size = count := by
  rcases Nat.lt_or_ge n k with hlt | hle
  · rw [hfew hlt]
    exact ⟨fun h => (by cases h), fun h => absurd h.1 (Nat.not_le.mpr hlt)⟩
  · rw [hcount hle, orOverflow_within?_eq_ok_iff]
    exact (and_iff_right hle).symm

theorem eq_domain_iff_of_pick (hfew : n < k → answer = .error (.domain n k))
    (hcount : k ≤ n → answer = orOverflow what (within? count)) :
    answer = .error (.domain n k) ↔ n < k := by
  refine ⟨fun h => ?_, hfew⟩
  rcases Nat.lt_or_ge n k with hlt | hle
  · exact hlt
  · rw [hcount hle, orOverflow_eq_error_iff] at h
    cases h.2

end

/-! ## Rising products -/

/-- The first factor of a rising product goes to what is multiplied already. -/
theorem mul_ascFactorial_succ (acc first count : Nat) :
    acc * first.ascFactorial (count + 1) = acc * first * (first + 1).ascFactorial count := by
  rw [Nat.ascFactorial_succ, ← Nat.succ_ascFactorial, Nat.mul_assoc]

theorem risingProduct?_eq : ∀ {count first acc : Nat}, 0 < first → acc ≤ capacity →
    risingProduct? count first acc = within? (acc * first.ascFactorial count) := by
  intro count
  induction count with
  | zero =>
      intro first acc _ hacc
      rw [risingProduct?, Nat.ascFactorial_zero, Nat.mul_one, within?_of_le hacc]
  | succ count ih =>
      intro first acc hfirst hacc
      rw [mul_ascFactorial_succ, risingProduct?]
      by_cases hnext : acc * first ≤ capacity
      · rw [if_pos hnext]
        exact ih (Nat.succ_pos first) hnext
      · -- the factors that are left are at least 1, so the product stays too large
        have hrest := Nat.ascFactorial_pos first count
        have hlarge : capacity < acc * first * (first + 1).ascFactorial count :=
          Nat.lt_of_lt_of_le (Nat.not_le.mp hnext) (Nat.le_mul_of_pos_right _ hrest)
        rw [if_neg hnext, within?_of_lt hlarge]

/-- The `k` factors up to `n`. -/
theorem ascFactorial_sub_succ {n k : Nat} (h : k ≤ n) :
    (n - k + 1).ascFactorial k = n.descFactorial k := by
  rw [← Nat.add_descFactorial_eq_ascFactorial, Nat.sub_add_cancel h]

/-- The factors from 2 to `n`. -/
theorem ascFactorial_two_pred (n : Nat) : Nat.ascFactorial 2 (n - 1) = n.factorial := by
  cases n with
  | zero => rfl
  | succ n =>
      have hfrom := Nat.factorial_mul_ascFactorial 1 n
      rw [Nat.factorial_one, Nat.one_mul, Nat.add_comm 1 n] at hfrom
      exact hfrom

/-! ## One row of Pascal's triangle -/

/-- The division on the way from one coefficient to the next is exact. -/
theorem choose_mul_sub_div (n i : Nat) :
    n.choose i * (n - i) / (i + 1) = n.choose (i + 1) := by
  rw [← Nat.choose_succ_right_eq]
  exact Nat.mul_div_cancel _ (Nat.succ_pos i)

/-- Coefficients grow up to the middle of the row. -/
theorem choose_le_choose_add {n i : Nat} : ∀ {steps : Nat}, 2 * (i + steps) ≤ n →
    n.choose i ≤ n.choose (i + steps) := by
  intro steps
  induction steps with
  | zero => intro _; exact Nat.le_refl _
  | succ steps ih =>
      intro h
      have hhalf : i + steps < n / 2 := by omega
      exact Nat.le_trans (ih (by omega)) (Nat.choose_le_succ_of_lt_half_left hhalf)

theorem binomial?_eq {n : Nat} : ∀ {steps i : Nat}, 2 * (i + steps) ≤ n →
    n.choose i ≤ capacity →
    binomial? n steps i (n.choose i) = within? (n.choose (i + steps)) := by
  intro steps
  induction steps with
  | zero =>
      intro i _ hacc
      rw [binomial?, Nat.add_zero, within?_of_le hacc]
  | succ steps ih =>
      intro i hhalf _
      have hhalf' : 2 * (i + 1 + steps) ≤ n := by omega
      rw [binomial?, choose_mul_sub_div, show i + (steps + 1) = i + 1 + steps by omega]
      by_cases hnext : n.choose (i + 1) ≤ capacity
      · rw [if_pos hnext]
        exact ih hhalf' hnext
      · have hlarge : capacity < n.choose (i + 1 + steps) :=
          Nat.lt_of_lt_of_le (Nat.not_le.mp hnext) (choose_le_choose_add hhalf')
        rw [if_neg hnext, within?_of_lt hlarge]

/-- Walking to the nearer of the two ends gives the same coefficient. -/
theorem choose_min_sub {n k : Nat} (h : k ≤ n) : n.choose (min k (n - k)) = n.choose k := by
  rcases Nat.le_total k (n - k) with hk | hk
  · rw [Nat.min_eq_left hk]
  · rw [Nat.min_eq_right hk, Nat.choose_symm h]

namespace Count

/-! ## The three counts -/

theorem permutations_eq {n k : Nat} (h : k ≤ n) :
    permutations n k = orOverflow .permutations (within? (n.descFactorial k)) := by
  have hone : 1 ≤ capacity := by decide
  rw [permutations, if_neg (Nat.not_lt.mpr h), risingProduct?_eq (Nat.succ_pos _) hone,
    Nat.one_mul, ascFactorial_sub_succ h]

theorem combinations_eq {n k : Nat} (h : k ≤ n) :
    combinations n k = orOverflow .combinations (within? (n.choose k)) := by
  have hone : n.choose 0 ≤ capacity := by
    rw [Nat.choose_zero_right]
    decide
  have hhalf : 2 * (0 + min k (n - k)) ≤ n := by omega
  have hrow := binomial?_eq hhalf hone
  rw [Nat.choose_zero_right, Nat.zero_add, choose_min_sub h] at hrow
  rw [combinations, if_neg (Nat.not_lt.mpr h), hrow]

theorem factorial_eq (n : Nat) : factorial n = orOverflow .factorial (within? n.factorial) := by
  have hone : 1 ≤ capacity := by decide
  rw [factorial, risingProduct?_eq (by decide) hone, Nat.one_mul, ascFactorial_two_pred]

theorem factorial_eq_ok_iff {n size : Nat} :
    factorial n = .ok size ↔ n.factorial ≤ capacity ∧ size = n.factorial := by
  rw [factorial_eq, orOverflow_within?_eq_ok_iff]

theorem factorial_eq_overflow_iff {n : Nat} :
    factorial n = .error (.overflow .factorial) ↔ capacity < n.factorial := by
  rw [factorial_eq, orOverflow_within?_eq_overflow_iff]

theorem permutations_eq_ok_iff {n k size : Nat} :
    permutations n k = .ok size ↔
      k ≤ n ∧ n.descFactorial k ≤ capacity ∧ size = n.descFactorial k :=
  eq_ok_iff_of_pick permutations_domain permutations_eq

theorem permutations_eq_domain_iff {n k : Nat} :
    permutations n k = .error (.domain n k) ↔ n < k :=
  eq_domain_iff_of_pick permutations_domain permutations_eq

theorem permutations_eq_overflow_iff {n k : Nat} (h : k ≤ n) :
    permutations n k = .error (.overflow .permutations) ↔ capacity < n.descFactorial k := by
  rw [permutations_eq h, orOverflow_within?_eq_overflow_iff]

theorem combinations_eq_ok_iff {n k size : Nat} :
    combinations n k = .ok size ↔
      k ≤ n ∧ n.choose k ≤ capacity ∧ size = n.choose k :=
  eq_ok_iff_of_pick combinations_domain combinations_eq

theorem combinations_eq_domain_iff {n k : Nat} :
    combinations n k = .error (.domain n k) ↔ n < k :=
  eq_domain_iff_of_pick combinations_domain combinations_eq

theorem combinations_eq_overflow_iff {n k : Nat} (h : k ≤ n) :
    combinations n k = .error (.overflow .combinations) ↔ capacity < n.choose k := by
  rw [combinations_eq h, orOverflow_within?_eq_overflow_iff]

/-- With a choice to make, the count is a product: the choices for one entry
times the count for the others. -/
theorem permutations_succ_eq_ok {n k : Nat} (hk : k ≤ n)
    (hsize : (n + 1).descFactorial (k + 1) ≤ capacity) :
    permutations (n + 1) (k + 1) = .ok ((n + 1) * n.descFactorial k) ∧
      permutations n k = .ok (n.descFactorial k) := by
  have hrest : n.descFactorial k ≤ capacity := by
    refine Nat.le_trans ?_ hsize
    rw [Nat.succ_descFactorial_succ]
    exact Nat.le_mul_of_pos_left _ (Nat.succ_pos n)
  constructor
  · rw [← Nat.succ_descFactorial_succ]
    exact permutations_eq_ok_iff.mpr ⟨Nat.succ_le_succ hk, hsize, rfl⟩
  · exact permutations_eq_ok_iff.mpr ⟨hk, hrest, rfl⟩

end Count
end Choices
