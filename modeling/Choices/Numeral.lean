/-
# `Choices.Numeral` — numbers as they are typed

A numeral is one or more of the digits `0 … 9`, with at most one `+` in
front.  Leading zeros change nothing.  A numeral past the capacity is none,
and so is the empty text, a sign alone, or a digit of any other script.
-/
import Choices.Fault

namespace Choices.Numeral

/-- The number that a list of decimal digits stands for, after digits that
stand for `acc`. -/
def value (acc : Nat) : List Char → Nat
  | [] => acc
  | c :: cs => value (10 * acc + (c.toNat - '0'.toNat)) cs

/-- A number written in digits alone. -/
def unsigned? (digits : List Char) : Option Nat :=
  if digits ≠ [] ∧ digits.all Char.isDigit ∧ value 0 digits ≤ capacity then
    some (value 0 digits)
  else none

/-- A number as it is typed. -/
def read? (text : String) : Option Nat :=
  match text.toList with
  | '+' :: digits => unsigned? digits
  | digits => unsigned? digits

theorem unsigned?_eq_some_iff {digits : List Char} {n : Nat} :
    unsigned? digits = some n ↔
      digits ≠ [] ∧ digits.all Char.isDigit ∧ n = value 0 digits ∧ n ≤ capacity := by
  unfold unsigned?
  constructor
  · intro h
    split at h
    · next hd => cases h; exact ⟨hd.1, hd.2.1, rfl, hd.2.2⟩
    · cases h
  · rintro ⟨h₁, h₂, rfl, h₃⟩
    rw [if_pos ⟨h₁, h₂, h₃⟩]

end Choices.Numeral
