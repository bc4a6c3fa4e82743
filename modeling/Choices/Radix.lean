/-
# `Choices.Radix` — numbers whose digits have radices of their own

A list of radices gives every number a list of digits, the first one the
least significant: the digit at a radix is the remainder, and the quotient
goes on to the next radix.  With radices above 0, the lists of digits that
stay below their radices correspond one to one to the numbers below the
product of the radices, by `digits_value` and `value_digits`.

The top is dropped: a number past the product has the digits of its
remainder.
-/

namespace Choices.Radix

/-- The digits of a number, least significant first. -/
def digits : (radices : List Nat) → Nat → List Nat
  | [], _ => []
  | r :: rs, number => number % r :: digits rs (number / r)

/-- The number with the given digits, least significant first. -/
def value : (radices digits : List Nat) → Nat
  | r :: rs, d :: ds => d + r * value rs ds
  | _, _ => 0

/-- How many numbers the radices tell apart. -/
def volume : (radices : List Nat) → Nat
  | [] => 1
  | r :: rs => r * volume rs

/-- Every digit stays below its radix, and there is one for each. -/
inductive Within : (digits radices : List Nat) → Prop
  | nil : Within [] []
  | cons {d r : Nat} {ds rs : List Nat} : d < r → Within ds rs → Within (d :: ds) (r :: rs)

/-! ## Digits and numbers correspond -/

theorem within_digits {radices : List Nat} (h : ∀ r ∈ radices, 0 < r) (number : Nat) :
    Within (digits radices number) radices := by
  induction radices generalizing number with
  | nil => exact .nil
  | cons r rs ih =>
    exact .cons (Nat.mod_lt _ (h r List.mem_cons_self))
      (ih (fun r' hr' => h r' (List.mem_cons_of_mem _ hr')) _)

theorem value_digits (radices : List Nat) (number : Nat) :
    value radices (digits radices number) = number % volume radices := by
  induction radices generalizing number with
  | nil => simp [value, volume, Nat.mod_one]
  | cons r rs ih => rw [digits, value, volume, ih, Nat.mod_mul]

theorem value_lt {ds radices : List Nat} (h : Within ds radices) :
    value radices ds < volume radices := by
  induction h with
  | nil => simp [value, volume]
  | @cons d r ds rs hd _ ih =>
    have hle : r * (value rs ds + 1) ≤ r * volume rs := Nat.mul_le_mul_left r ih
    rw [value, volume]
    rw [Nat.mul_add, Nat.mul_one] at hle
    omega

theorem digits_value {ds radices : List Nat} (h : Within ds radices) :
    digits radices (value radices ds) = ds := by
  induction h with
  | nil => rfl
  | @cons d r ds rs hd _ ih =>
    have hr : 0 < r := by omega
    rw [value, digits, Nat.add_mul_mod_self_left, Nat.mod_eq_of_lt hd,
      Nat.add_mul_div_left _ _ hr, Nat.div_eq_of_lt hd, Nat.zero_add, ih]

end Choices.Radix
