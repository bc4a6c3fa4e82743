/-
# `Choices.Product.Basic` — products of rows, item by item

A `Product` is a list of rows together with its size, so whoever holds one
knows that there are rows, that none is empty, and that the size is exact.

Items have positions `1 … size`.  A position is read as a number whose
radices are the lengths of the rows, and its digits are the places to pick
from: the first row changes fastest, and the top position `size` wraps every
digit to 0.  The item at index `i` is the one at position `i + 1`, so the
item that takes the first element of every row is the last.
-/
import Choices.Product.Size
import Choices.Radix

namespace Choices

theorem Rows.isSome_pick? {α : Type} {rows : Rows α} {places : List Nat}
    (h : Radix.Within places rows.lengths) : (rows.pick? places).isSome := by
  induction rows generalizing places with
  | nil => cases h; rfl
  | cons row rows ih =>
    cases h with
    | cons hd hs =>
      obtain ⟨rest, hrest⟩ := Option.isSome_iff_exists.mp (ih hs)
      simp [Rows.pick?, hd, hrest]

/-- Rows whose product has a size. -/
structure Product (α : Type) where
  rows : Rows α
  size : Nat
  size_eq : rows.size = .ok size

namespace Product

variable {α : Type}

/-- The product of the rows, or why there is none. -/
def ofRows (rows : Rows α) : Except Fault (Product α) :=
  match h : rows.size with
  | .ok size => .ok ⟨rows, size, h⟩
  | .error fault => .error fault

/-- The places that a position picks from. -/
def places (P : Product α) (position : Nat) : List Nat :=
  Radix.digits P.rows.lengths position

theorem within_places (P : Product α) (position : Nat) :
    Radix.Within (P.places position) P.rows.lengths :=
  Radix.within_digits (by simpa [Rows.lengths] using sizeOfRows_eq_ok P.size_eq) position

/-- The item at a position. -/
def item (P : Product α) (position : Nat) : List α :=
  (P.rows.pick? (P.places position)).get (Rows.isSome_pick? (P.within_places position))

/-- The item at an index, or `none` from the size on. -/
def item? (P : Product α) (index : Nat) : Option (List α) :=
  if index < P.size then some (P.item (index + 1)) else none

/-! ## What a product is made from -/

theorem exists_of_size {rows : Rows α} {size : Nat} (h : rows.size = .ok size) :
    ∃ P : Product α, P.rows = rows ∧ P.size = size :=
  ⟨⟨rows, size, h⟩, rfl, rfl⟩

theorem pick?_places (P : Product α) (position : Nat) :
    P.rows.pick? (P.places position) = some (P.item position) := by
  simp [item]

theorem ofRows_eq_ok_iff {rows : Rows α} {P : Product α} :
    ofRows rows = .ok P ↔ P.rows = rows := by
  obtain ⟨rows', size, h⟩ := P
  constructor
  · intro e
    simp only [ofRows] at e
    split at e
    · cases e; rfl
    · cases e
  · rintro rfl
    simp only [ofRows]
    split
    · next size' h' =>
      rw [h] at h'
      cases h'
      rfl
    · next fault h' =>
      rw [h] at h'
      cases h'

theorem ofRows_eq_error_iff {rows : Rows α} {fault : Fault} :
    ofRows rows = .error fault ↔ rows.size = .error fault := by
  simp only [ofRows]
  split
  · next size h => simp [h]
  · next fault' h => simp [h]

end Product

/-- The single item at an index of the product, or `none` past its end. -/
def productAt {α : Type} (rows : Rows α) (index : Nat) : Except Fault (Option (List α)) :=
  (Product.ofRows rows).map (·.item? index)

theorem productAt_rows {α : Type} (P : Product α) (index : Nat) :
    productAt P.rows index = .ok (P.item? index) := by
  rw [productAt, Product.ofRows_eq_ok_iff.mpr rfl]
  rfl

end Choices
