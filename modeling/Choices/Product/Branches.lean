/-
# `Choices.Product.Branches` — a product from independent branches

Every item of a product is made from its position alone, so any cut of the
positions into consecutive spans will do, and the branches need nothing
from each other.  `branchedProduct` cuts into spans of `branchWidth`.
-/
import Choices.Branch
import Choices.Product.Walk

namespace Choices

/-- The branch that fills `span` with the items at its indices. -/
def productBranch {α : Type} (P : Product α) (span : Span) : Branch α where
  span := span
  fill? region :=
    region.pushAll? ((List.range' (span.start + 1) (span.stop - span.start)).map P.item)

/-- The product filled along the given spans, in the order they are given. -/
def Product.fillAlong? {α : Type} (P : Product α) (spans : List Span) :
    Option (Array (List α)) :=
  Branch.runAll? (spans.map (productBranch P)) (Region.blankSlots P.size)

/-- How many items a branch makes. -/
def branchWidth : Nat := 4096

/-- Every item of the product of the rows, found by branches. -/
def branchedProduct {α : Type} (rows : Rows α) : Except Fault (List (List α)) := do
  let P ← Product.ofRows rows
  -- the spans make up the product, so each branch has just the slots it needs
  let slots := (Span.chunks? P.size branchWidth).bind P.fillAlong?
  .ok (slots.elim [] Array.toList)

theorem branchedProduct_eq_error_iff {α : Type} {rows : Rows α} {fault : Fault} :
    branchedProduct rows = .error fault ↔ rows.size = .error fault := by
  rw [← Product.ofRows_eq_error_iff, branchedProduct]
  cases Product.ofRows rows with
  | error f => simp [bind, Except.bind]
  | ok P => simp [bind, Except.bind]

end Choices
