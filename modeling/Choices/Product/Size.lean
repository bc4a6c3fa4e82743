/-
# `Choices.Product.Size` — the rows of a product, and its size

Rows are lists to pick from, one element each.  The product of rows has as
many items as the lengths of the rows multiplied together.  It is refused
when there are no rows, when a row is empty, and when its size is past the
capacity.  Rows are looked at in order, and the first one that is empty or
takes the running product past the capacity decides: an empty row behind an
overflow is never seen, nor an overflow behind an empty row.

`sizeOfRows` asks of a row its length only, so it serves rows of any make;
`Rows.size` is it for the rows that products are read from.
-/
import Choices.Fault

namespace Choices

/-- The running product `total` taken on over rows that start at index
`row`. -/
def sizeOfRowsFrom {ρ : Type} (length : ρ → Nat) : (row total : Nat) → List ρ → Except Fault Nat
  | _, total, [] => .ok total
  | row, total, r :: rs =>
    if length r = 0 then .error (.emptyRow row)
    else if total * length r ≤ capacity then
      sizeOfRowsFrom length (row + 1) (total * length r) rs
    else .error (.overflow .cartesianProduct)

/-- The number of items in the product of rows with the given lengths. -/
def sizeOfRows {ρ : Type} (length : ρ → Nat) : List ρ → Except Fault Nat
  | [] => .error .emptyInput
  | r :: rs => sizeOfRowsFrom length 0 1 (r :: rs)

/-- The rows of a product, each an array to pick one element from. -/
abbrev Rows (α : Type) : Type := List (Array α)

namespace Rows

variable {α : Type}

/-- The number of items in the product of the rows. -/
def size (rows : Rows α) : Except Fault Nat :=
  sizeOfRows Array.size rows

def lengths (rows : Rows α) : List Nat :=
  rows.map Array.size

/-- The item that takes, from each row, the element at the given place. -/
def pick? : Rows α → (places : List Nat) → Option (List α)
  | [], [] => some []
  | row :: rows, place :: places => do
    let element ← row[place]?
    let rest ← pick? rows places
    return element :: rest
  | _, _ => none

end Rows

/-! ## What a size says -/

theorem sizeOfRowsFrom_eq_ok {ρ : Type} {length : ρ → Nat} {row total size : Nat}
    {rows : List ρ} (h : sizeOfRowsFrom length row total rows = .ok size) :
    ∀ r ∈ rows, 0 < length r := by
  induction rows generalizing row total with
  | nil => simp
  | cons r rs ih =>
    simp only [sizeOfRowsFrom] at h
    split at h
    · cases h
    · next hr =>
      split at h
      · simpa [Nat.pos_iff_ne_zero, hr] using ih h
      · cases h

theorem sizeOfRows_eq_ok {ρ : Type} {length : ρ → Nat} {size : Nat} {rows : List ρ}
    (h : sizeOfRows length rows = .ok size) : ∀ r ∈ rows, 0 < length r := by
  cases rows with
  | nil => simp
  | cons r rs => exact sizeOfRowsFrom_eq_ok h

end Choices
