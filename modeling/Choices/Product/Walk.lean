/-
# `Choices.Product.Walk` — a product read lazily from both ends

A `Walk` is a product and a cursor over its positions.  It holds two
numbers besides the rows, however large the product is, and makes an item
only when the item is handed out.  The whole product is what a fresh walk
has left.
-/
import Choices.Product.Basic
import Choices.Product.Cursor

namespace Choices

/-- A product, and what of it has not been handed out. -/
structure Walk (α : Type) where
  product : Product α
  cursor : Cursor

namespace Walk

variable {α : Type}

/-- The walk over the whole product. -/
def start (P : Product α) : Walk α := ⟨P, Cursor.start P.size⟩

/-- How many items are left. -/
def left (w : Walk α) : Nat := w.cursor.left

/-- The items that are left, front to back. -/
def toList (w : Walk α) : List (List α) := w.cursor.positions.map w.product.item

/-- The answer to a move, and the walk after it. -/
def apply (move : Move) (w : Walk α) : Reply (List α) × Walk α :=
  let (reply, cursor) := Cursor.apply move w.cursor
  (reply.map w.product.item, { w with cursor := cursor })

theorem length_toList (w : Walk α) : w.toList.length = w.left := by
  simp [toList, Cursor.positions, left]

end Walk

/-- Every item of the product of the rows, in order of position. -/
def product {α : Type} (rows : Rows α) : Except Fault (List (List α)) :=
  (Product.ofRows rows).map fun P => (Walk.start P).toList

theorem product_rows {α : Type} (P : Product α) :
    product P.rows = .ok (Walk.start P).toList := by
  rw [product, Product.ofRows_eq_ok_iff.mpr rfl]
  rfl

theorem product_eq_error_iff {α : Type} {rows : Rows α} {fault : Fault} :
    product rows = .error fault ↔ rows.size = .error fault := by
  rw [← Product.ofRows_eq_error_iff, product]
  cases Product.ofRows rows with
  | error f => simp [Except.map]
  | ok P => simp [Except.map]

end Choices
