/-
# `Choices.Proofs.Radix` — counting up runs through nested loops

Counting `0, 1, 2, …` and reading each number with the radices of a list is
the same as one loop per radix, the first radix in the innermost loop:

    (List.range (volume radices)).map (digits radices)
      = (radices.map List.range).sections

Here `List.sections` is the list of the nested loops, defined by
`sections (l :: L) = L.sections.flatMap fun s => l.map (· :: s)`.  It is the
step of the proof as well: a run of `r` numbers from `q * r` on has the same
quotient, and its remainders run through the innermost loop once.
-/
import Mathlib.Algebra.BigOperators.Group.List.Basic
import Mathlib.Data.List.Nodup
import Mathlib.Data.List.Sections
import Choices.Radix

namespace Choices.Radix

theorem volume_eq_prod (radices : List Nat) : volume radices = radices.prod := by
  induction radices with
  | nil => rfl
  | cons r rs ih => rw [volume, ih, List.prod_cons]

/-- The top is dropped. -/
theorem digits_mod_volume {radices : List Nat} (h : ∀ r ∈ radices, 0 < r) (number : Nat) :
    digits radices (number % volume radices) = digits radices number := by
  rw [← value_digits, digits_value (within_digits h number)]

/-! ## Runs of numbers -/

theorem range_mul_eq_flatMap (count width : Nat) :
    List.range (count * width)
      = (List.range count).flatMap fun q => (List.range width).map (q * width + ·) := by
  induction count with
  | zero => rw [Nat.zero_mul, List.range_zero, List.flatMap_nil]
  | succ count ih =>
      rw [Nat.succ_mul, List.range_add, ih, List.range_succ, List.flatMap_append,
        List.flatMap_singleton]

/-- A run with one quotient goes through the first digits in order. -/
theorem digits_cons_run {r d : Nat} (hd : d < r) (rs : List Nat) (q : Nat) :
    digits (r :: rs) (q * r + d) = d :: digits rs q := by
  have hr : 0 < r := Nat.lt_of_le_of_lt (Nat.zero_le d) hd
  rw [digits, Nat.mul_comm, Nat.mul_add_mod, Nat.mod_eq_of_lt hd, Nat.mul_add_div hr,
    Nat.div_eq_of_lt hd, Nat.add_zero]

theorem map_digits_range (radices : List Nat) :
    (List.range (volume radices)).map (digits radices)
      = (radices.map List.range).sections := by
  induction radices with
  | nil => rfl
  | cons r rs ih =>
      rw [volume, Nat.mul_comm, range_mul_eq_flatMap, List.map_flatMap, List.map_cons,
        List.sections, ← ih, List.flatMap_map]
      refine List.flatMap_congr fun q _ => ?_
      rw [List.map_map]
      exact List.map_congr_left fun d hd => digits_cons_run (List.mem_range.mp hd) rs q

/-! ## What the loops give -/

theorem mem_sections_range {radices places : List Nat} (h : ∀ r ∈ radices, 0 < r) :
    places ∈ (radices.map List.range).sections ↔ Within places radices := by
  rw [← map_digits_range, List.mem_map]
  constructor
  · rintro ⟨number, -, rfl⟩
    exact within_digits h number
  · intro hwithin
    exact ⟨value radices places, List.mem_range.mpr (value_lt hwithin), digits_value hwithin⟩

theorem nodup_sections_range (radices : List Nat) : (radices.map List.range).sections.Nodup := by
  rw [← map_digits_range]
  refine List.Nodup.of_map (value radices) ?_
  have hback : ∀ number ∈ List.range (volume radices),
      (value radices ∘ digits radices) number = id number := by
    intro number hnumber
    exact (value_digits radices number).trans (Nat.mod_eq_of_lt (List.mem_range.mp hnumber))
  rw [List.map_map, List.map_congr_left hback, List.map_id]
  exact List.nodup_range

theorem length_sections_range (radices : List Nat) :
    (radices.map List.range).sections.length = volume radices := by
  rw [← map_digits_range, List.length_map, List.length_range]

end Choices.Radix
