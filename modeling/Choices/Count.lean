/-
# `Choices.Count` — how many choices there are

`factorial n`, `permutations n k` (ordered, `k` of `n`) and
`combinations n k` (unordered, `k` of `n`), each exact or a fault.

All three multiply up from 1 and give up at the first value past the
capacity.  That is what makes them fast on any input — a product of more
than twenty growing factors is past 2⁶⁴ — and it is sound because the
values on the way only grow: the factors of `risingProduct?` are at least
1, and `binomial?` stops at the middle of its row of Pascal's triangle.
-/
import Choices.Fault

namespace Choices

/-! ## Products of consecutive numbers -/

/-- `acc * first * (first + 1) * …` over `count` factors, or `none` once a
product is past the capacity. -/
def risingProduct? : (count first acc : Nat) → Option Nat
  | 0, _, acc => some acc
  | count + 1, first, acc =>
    if acc * first ≤ capacity then risingProduct? count (first + 1) (acc * first) else none

/-- Binomial coefficients of `n` from index `i`, where `acc` is the one, on
over `steps` indices, or `none` once one of them is past the capacity.  Each
division is exact: the product before it is `(i + 1)` times the next
coefficient. -/
def binomial? (n : Nat) : (steps i acc : Nat) → Option Nat
  | 0, _, acc => some acc
  | steps + 1, i, acc =>
    let next := acc * (n - i) / (i + 1)
    if next ≤ capacity then binomial? n steps (i + 1) next else none

namespace Count

/-! ## The three counts -/

/-- The number of orders of `n` things. -/
def factorial (n : Nat) : Except Fault Nat :=
  orOverflow .factorial (risingProduct? (n - 1) 2 1)

/-- The number of ordered arrangements of `k` out of `n`: the `k` factors
`n - k + 1, …, n`. -/
def permutations (n k : Nat) : Except Fault Nat :=
  if n < k then .error (.domain n k)
  else orOverflow .permutations (risingProduct? k (n - k + 1) 1)

/-- The number of unordered selections of `k` out of `n`.  Picking `k` is
leaving out `n - k`, so the shorter of the two runs is enough. -/
def combinations (n k : Nat) : Except Fault Nat :=
  if n < k then .error (.domain n k)
  else orOverflow .combinations (binomial? n (min k (n - k)) 0 1)

theorem permutations_zero (n : Nat) : permutations n 0 = .ok 1 := by
  simp [permutations, risingProduct?, orOverflow]

theorem combinations_zero (n : Nat) : combinations n 0 = .ok 1 := by
  simp [combinations, binomial?, orOverflow]

theorem permutations_domain {n k : Nat} (h : n < k) :
    permutations n k = .error (.domain n k) := by
  simp [permutations, h]

theorem combinations_domain {n k : Nat} (h : n < k) :
    combinations n k = .error (.domain n k) := by
  simp [combinations, h]

end Count
end Choices
