/-
# `Choices.Proofs.Product.Readings` — a product is one list, however it is read

There are five ways to ask for a product: its size, all of its items, a walk
over them, the item at an index, and the items made by branches.  All start
from the size of the rows.  Where it is a fault, each way ends with that
fault.  Where it is a number, each way reads the list

    (Walk.start P).toList = (List.range' 1 P.size).map P.item

or a part of it.  An index reads one entry (`Product.item?_eq_getElem?`).  A
branch writes the part its span covers (`Product.writesPart_productBranch`),
so any spans that make up the indices give the list, in any order.

A position is an index plus 1, and that is the one sum whose result could be
past the capacity.  `Product.itemBy?` leaves the sum open.  An index below
the size has a position up to the size, and no other index has its position
asked for, so any sum that is right as long as it fits gives the same item.
-/
import Choices.Product.Branches
import Choices.Proofs.Branch
import Choices.Proofs.Product.Loops
import Choices.Proofs.Product.Sections

namespace Choices

variable {α : Type}

namespace Product

variable (P : Product α)

/-! ## Items by index -/

theorem length_toList_start : (Walk.start P).toList.length = P.size :=
  (Walk.start P).length_toList

theorem item?_eq_getElem? (index : Nat) : P.item? index = (Walk.start P).toList[index]? := by
  rw [toList_start, List.getElem?_map, item?]
  by_cases h : index < P.size
  · rw [if_pos h, List.getElem?_range' h, Nat.one_mul, Nat.add_comm]
    rfl
  · have hlength : (List.range' 1 P.size).length ≤ index := by
      rw [List.length_range']
      exact Nat.not_lt.mp h
    rw [if_neg h, List.getElem?_eq_none hlength]
    rfl

/-- The item at an index, with the sum that gives its position left open.  A
sum of `none` is one that cannot be done. -/
def itemBy? (succ? : Nat → Option Nat) (index : Nat) : Option (Option (List α)) :=
  if index < P.size then (succ? index).map fun position => some (P.item position) else some none

theorem itemBy?_eq {succ? : Nat → Option Nat} (h : ∀ i < capacity, succ? i = some (i + 1))
    (index : Nat) : P.itemBy? succ? index = some (P.item? index) := by
  rw [itemBy?, item?]
  by_cases hindex : index < P.size
  · have hfits : index < capacity := Nat.lt_of_lt_of_le hindex P.size_le_capacity
    rw [if_pos hindex, if_pos hindex, h index hfits]
    rfl
  · rw [if_neg hindex, if_neg hindex]

/-! ## Items by a walk -/

theorem reply_collect_start : ((Walk.start P).apply .collect).1 = .items (Walk.start P).toList := by
  have hall : (Cursor.start P.size).first P.size = (Cursor.start P.size).positions := by
    rw [Cursor.first_eq_take]
    exact List.take_of_length_le (Nat.le_of_eq (Cursor.length_positions _))
  exact congrArg (fun positions => Reply.items (positions.map P.item)) hall

/-- Asked for the next item until there is none, a walk hands out the list. -/
theorem loop_collect_start :
    (DoubleEnded.loop .collect (Walk.start P)).1 = .items (Walk.start P).toList := by
  rw [← Walk.apply_eq_loop (Cursor.inside_start P.size), P.reply_collect_start]

/-! ## Items by branches -/

theorem part_toList_start {span : Span} (h : span.stop ≤ P.size) :
    span.part (Walk.start P).toList
      = (List.range' (span.start + 1) (span.stop - span.start)).map P.item := by
  have hsplit : List.range' 1 P.size
      = List.range' 1 span.stop ++ List.range' (1 + span.stop) (P.size - span.stop) := by
    rw [List.range'_append_1, Nat.add_sub_cancel' h]
  have htake : (List.range' 1 P.size).take span.stop = List.range' 1 span.stop := by
    rw [hsplit, List.take_left' List.length_range']
  rw [Span.part, toList_start, ← List.map_take, ← List.map_drop, htake, List.drop_range',
    Nat.mul_one, Nat.add_comm]

theorem writesPart_productBranch {span : Span} (h : span.stop ≤ P.size) :
    (productBranch P span).WritesPart (Walk.start P).toList := by
  intro region
  exact congrArg region.pushAll? (P.part_toList_start h).symm

/-- Spans that follow each other through all indices make up the product. -/
theorem makeUp_productBranches {spans : List Span} (h : Span.Covers spans 0 P.size) :
    Branch.MakeUp (spans.map (productBranch P)) (Walk.start P).toList := by
  have hspans : (spans.map (productBranch P)).map Branch.span = spans := by
    rw [List.map_map]
    exact List.map_id spans
  refine Branch.makeUp_of_writesPart ?_ ?_
  · rw [hspans, P.length_toList_start]
    exact h
  · intro branch hbranch
    obtain ⟨span, hspan, rfl⟩ := List.mem_map.mp hbranch
    exact P.writesPart_productBranch (h.bounds.2 span hspan).2

theorem fillAlong?_eq {spans order : List Span} (h : Span.Covers spans 0 P.size)
    (horder : order.Perm spans) : P.fillAlong? order = some (Walk.start P).toList.toArray := by
  have hrun := (P.makeUp_productBranches h).schedules _ (horder.map (productBranch P))
  rw [P.length_toList_start] at hrun
  exact hrun

end Product

theorem branchedProduct_eq (rows : Rows α) : branchedProduct rows = product rows := by
  rw [branchedProduct, product]
  cases Product.ofRows rows with
  | error fault => rfl
  | ok P =>
      obtain ⟨spans, hspans⟩ : ∃ spans, Span.chunks? P.size branchWidth = some spans := ⟨_, rfl⟩
      have hfill := P.fillAlong?_eq (Span.covers_of_chunks? hspans) (List.Perm.refl spans)
      show Except.ok (((Span.chunks? P.size branchWidth).bind P.fillAlong?).elim [] Array.toList)
        = Except.ok (Walk.start P).toList
      rw [hspans, Option.bind_some, hfill]
      rfl

/-! ## All readings -/

/-- The size of rows does not depend on their make, and all readings of their
product end with one fault, or they read one list, as long as the size says.
Then a walk that draws to its end hands out the list, an index reads the entry
it has there, if any, however a position past the capacity would be computed,
and any spans that follow each other through all indices give the list, in any
order. -/
theorem product_readings_agree (rows : Rows α) :
    (∀ {ρ : Type} (length : ρ → Nat) (views : List ρ), views.map length = rows.lengths →
      sizeOfRows length views = rows.size) ∧
    ((∃ fault, rows.size = .error fault ∧
        product rows = .error fault ∧ branchedProduct rows = .error fault ∧
        Product.ofRows rows = .error fault ∧ ∀ index, productAt rows index = .error fault) ∨
      ∃ (P : Product α) (items : List (List α)),
        rows.size = .ok items.length ∧
        product rows = .ok items ∧ branchedProduct rows = .ok items ∧
        Product.ofRows rows = .ok P ∧ (Walk.start P).left = items.length ∧
        (DoubleEnded.loop .collect (Walk.start P)).1 = .items items ∧
        (∀ index, productAt rows index = .ok items[index]?) ∧
        (∀ succ? : Nat → Option Nat, (∀ i < capacity, succ? i = some (i + 1)) →
          ∀ index, P.itemBy? succ? index = some items[index]?) ∧
        ∀ spans, Span.Covers spans 0 items.length → ∀ order : List Span, order.Perm spans →
          P.fillAlong? order = some items.toArray) := by
  refine ⟨fun length views hviews => sizeOfRows_eq_size length hviews, ?_⟩
  cases hsize : rows.size with
  | error fault =>
      have hrows : Product.ofRows rows = .error fault := Product.ofRows_eq_error_iff.mpr hsize
      refine Or.inl ⟨fault, rfl, product_eq_error_iff.mpr hsize,
        branchedProduct_eq_error_iff.mpr hsize, hrows, fun index => ?_⟩
      rw [productAt, hrows]
      rfl
  | ok size =>
      obtain ⟨P, rfl, rfl⟩ := Product.exists_of_size hsize
      have hproduct : product P.rows = .ok (Walk.start P).toList := product_rows P
      refine Or.inr ⟨P, (Walk.start P).toList, by rw [P.length_toList_start], hproduct,
        (branchedProduct_eq P.rows).trans hproduct, Product.ofRows_eq_ok_iff.mpr rfl,
        (Walk.start P).length_toList.symm, P.loop_collect_start, fun index => ?_,
        fun succ? hsucc index => ?_, fun spans hcovers order horder => ?_⟩
      · rw [productAt_rows, P.item?_eq_getElem?]
      · rw [P.itemBy?_eq hsucc, P.item?_eq_getElem?]
      · rw [P.length_toList_start] at hcovers
        exact P.fillAlong?_eq hcovers horder

/-- Two letters and three, sized as lists, cut at 1 and at 4, filled from the
end on.  The index past all others is answered although no position belongs to
it. -/
theorem product_readings_agree_letters :
    [["a0", "a1"], ["b0", "b1", "b2"]].map List.length
      = Rows.lengths [#["a0", "a1"], #["b0", "b1", "b2"]] ∧
    sizeOfRows List.length [["a0", "a1"], ["b0", "b1", "b2"]] = .ok 6 ∧
    Span.Covers [⟨0, 1⟩, ⟨1, 4⟩, ⟨4, 6⟩] 0 6 ∧
    (∀ i < capacity, (if i < capacity then some (i + 1) else none) = some (i + 1)) ∧
    ∃ P, Product.ofRows [#["a0", "a1"], #["b0", "b1", "b2"]] = .ok P ∧
      P.fillAlong? [⟨4, 6⟩, ⟨0, 1⟩, ⟨1, 4⟩] = some #[["a1", "b0"], ["a0", "b1"], ["a1", "b1"],
        ["a0", "b2"], ["a1", "b2"], ["a0", "b0"]] ∧
      P.itemBy? (fun i => if i < capacity then some (i + 1) else none) capacity = some none ∧
      productAt [#["a0", "a1"], #["b0", "b1", "b2"]] 5 = .ok (some ["a0", "b0"]) := by
  have hlengths : [["a0", "a1"], ["b0", "b1", "b2"]].map List.length
      = Rows.lengths [#["a0", "a1"], #["b0", "b1", "b2"]] := rfl
  have hcovers : Span.Covers [⟨0, 1⟩, ⟨1, 4⟩, ⟨4, 6⟩] 0 6 :=
    .cons (by decide) (.cons (by decide) (.cons (by decide) .nil))
  have hsucc : ∀ i < capacity, (if i < capacity then some (i + 1) else none) = some (i + 1) :=
    fun i hi => if_pos hi
  have hitems : product [#["a0", "a1"], #["b0", "b1", "b2"]] = .ok
      [["a1", "b0"], ["a0", "b1"], ["a1", "b1"], ["a0", "b2"], ["a1", "b2"], ["a0", "b0"]] := rfl
  obtain ⟨hviews, hread⟩ := product_readings_agree [#["a0", "a1"], #["b0", "b1", "b2"]]
  rcases hread with ⟨fault, -, hfault, -⟩ | ⟨P, items, -, hproduct, -, hP, -, -, hat, hby, hfill⟩
  · cases hitems.symm.trans hfault
  · obtain rfl := Except.ok.inj (hitems.symm.trans hproduct)
    exact ⟨hlengths, hviews List.length _ hlengths, hcovers, hsucc, P, hP,
      hfill _ hcovers _ (by decide), hby _ hsucc capacity, hat 5⟩

end Choices
