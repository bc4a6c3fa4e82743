/-
# `Choices.Proofs.Product.Sections` — a product is a nest of loops, rotated

A product reads each item off a number.  Written with loops, one per row,
the first row in the innermost one, it would be

    (rows.map Array.toList).sections

(`List.sections`, whose step is
`sections (l :: L) = L.sections.flatMap fun s => l.map (· :: s)`).  The two
lists differ by one place: positions count from 1, and the last of them
wraps to the number 0, so the item the loops give first comes last.

The proof keeps to places until the end.  The places of the numbers below
the size are what loops over ranges give (`Radix.map_digits_range`), picking
along loops over ranges is looping over rows (`map_pick?_sections`), and the
positions `1 … size` are the numbers below the size rotated
(`map_mod_positions`).
-/
import Mathlib.Data.List.Rotate
import Mathlib.Data.List.Sections
import Mathlib.Data.Option.Basic
import Choices.Product.Walk
import Choices.Proofs.Product.Size
import Choices.Proofs.Radix

namespace Choices

variable {α : Type}

/-! ## Positions and numbers -/

/-- The positions, with the last one wrapped. -/
theorem map_mod_positions (size : Nat) :
    (List.range' 1 size).map (· % size) = (List.range size).rotate 1 := by
  cases size with
  | zero => rfl
  | succ n =>
      have hkeep : ∀ position ∈ List.range' 1 n, position % (n + 1) = id position := by
        intro position hposition
        have := List.mem_range'_1.mp hposition
        exact Nat.mod_eq_of_lt (by omega)
      have hfirst : (List.range (n + 1)).rotate 1 = List.range' 1 n ++ [0] := by
        rw [List.range_eq_range', List.range'_succ, List.rotate_cons_succ, List.rotate_zero]
      rw [hfirst, List.range'_1_concat, List.map_append, List.map_congr_left hkeep, List.map_id,
        List.map_singleton, Nat.add_comm 1 n, Nat.mod_self]

/-! ## Picking along loops -/

theorem map_getElem?_range_size (row : Array α) :
    (List.range row.size).map (row[·]?) = row.toList.map some := by
  refine List.ext_getElem (by simp) fun i hi _ => ?_
  have hlt : i < row.size := by simpa using hi
  simp [hlt]

/-- The innermost loop, behind a choice `rest?` for the other rows. -/
def innerLoop (row : Array α) (rest? : Option (List α)) : List (Option (List α)) :=
  (List.range row.size).map fun place => row[place]?.bind fun a => rest?.map (a :: ·)

theorem innerLoop_some (row : Array α) (rest : List α) :
    innerLoop row (some rest) = (row.toList.map (· :: rest)).map some := by
  have hrow := congrArg (List.map (Option.map (· :: rest))) (map_getElem?_range_size row)
  simpa [innerLoop, Function.comp_def, Option.map_eq_bind] using hrow

theorem map_pick?_range_size (row : Array α) (rows : Rows α) (places : List Nat) :
    ((List.range row.size).map (· :: places)).map (Rows.pick? (row :: rows))
      = innerLoop row (rows.pick? places) := by
  rw [List.map_map]
  refine List.map_congr_left fun place _ => ?_
  simp only [Function.comp_apply, Rows.pick?, Option.map_eq_bind]
  rfl

theorem map_pick?_sections : ∀ rows : Rows α,
    (rows.lengths.map List.range).sections.map rows.pick?
      = (rows.map Array.toList).sections.map some := by
  intro rows
  induction rows with
  | nil => rfl
  | cons row rows ih =>
      have hplaces : (Rows.lengths (row :: rows)).map List.range
          = List.range row.size :: (Rows.lengths rows).map List.range := rfl
      rw [hplaces, List.sections, List.map_flatMap]
      calc ((Rows.lengths rows).map List.range).sections.flatMap
            (fun places => ((List.range row.size).map (· :: places)).map (Rows.pick? (row :: rows)))
          = (((Rows.lengths rows).map List.range).sections.map (Rows.pick? rows)).flatMap
              (innerLoop row) := by
            rw [List.flatMap_map]
            exact List.flatMap_congr fun places _ => map_pick?_range_size row rows places
        _ = ((rows.map Array.toList).sections.map some).flatMap (innerLoop row) := by rw [ih]
        _ = ((row :: rows).map Array.toList).sections.map some := by
            rw [List.flatMap_map, List.map_cons, List.sections, List.map_flatMap]
            exact List.flatMap_congr fun rest _ => innerLoop_some row rest

/-- The loops begin with the first element of every row. -/
theorem exists_sections_eq_cons : ∀ {rows : Rows α}, (∀ row ∈ rows, 0 < row.size) →
    ∃ first rest, (rows.map Array.toList).sections = first :: rest ∧
      first.map some = rows.map (·[0]?) := by
  intro rows
  induction rows with
  | nil => intro _; exact ⟨[], [], rfl, rfl⟩
  | cons row rows ih =>
      intro h
      obtain ⟨first, rest, hsections, hfirst⟩ :=
        ih fun r hr => h r (List.mem_cons_of_mem row hr)
      have hrow : 0 < row.size := h row List.mem_cons_self
      obtain ⟨a, as, hcons⟩ : ∃ a as, row.toList = a :: as :=
        List.exists_cons_of_length_pos (by simpa using hrow)
      have ha : row[0]? = some a := by
        rw [← Array.getElem?_toList, hcons, List.getElem?_cons_zero]
      rw [List.map_cons, List.sections, hsections, List.flatMap_cons, hcons, List.map_cons,
        List.cons_append]
      exact ⟨_, _, rfl, by rw [List.map_cons, List.map_cons, ha, hfirst]⟩

/-! ## The whole product -/

namespace Product

variable (P : Product α)

theorem size_eq_volume : P.size = Radix.volume P.rows.lengths := by
  obtain ⟨-, -, -, hsize⟩ := Rows.size_eq_ok_iff.mp P.size_eq
  rw [Radix.volume_eq_prod, hsize]

theorem lengths_pos : ∀ length ∈ P.rows.lengths, 0 < length := by
  intro length hlength
  obtain ⟨row, hrow, rfl⟩ := List.mem_map.mp hlength
  exact sizeOfRows_eq_ok P.size_eq row hrow

theorem size_le_capacity : P.size ≤ capacity := by
  obtain ⟨-, -, hprod, hsize⟩ := Rows.size_eq_ok_iff.mp P.size_eq
  exact hsize ▸ hprod

/-- Places come round after as many positions as there are items. -/
theorem places_mod_size (position : Nat) : P.places (position % P.size) = P.places position := by
  rw [places, P.size_eq_volume, Radix.digits_mod_volume P.lengths_pos]
  rfl

/-- The places of the items, in the order of the items. -/
theorem map_places_positions :
    (List.range' 1 P.size).map P.places = (P.rows.lengths.map List.range).sections.rotate 1 := by
  have hwrap : ∀ position ∈ List.range' 1 P.size,
      P.places position = (Radix.digits P.rows.lengths ∘ (· % P.size)) position :=
    fun position _ => (P.places_mod_size position).symm
  rw [List.map_congr_left hwrap, ← List.map_map, map_mod_positions, List.map_rotate,
    P.size_eq_volume, Radix.map_digits_range]

theorem toList_start : (Walk.start P).toList = (List.range' 1 P.size).map P.item := rfl

/-- Each item picks at its places. -/
theorem map_some_toList_start :
    (Walk.start P).toList.map some
      = ((P.rows.lengths.map List.range).sections.rotate 1).map P.rows.pick? := by
  rw [toList_start, ← map_places_positions, List.map_map, List.map_map]
  exact List.map_congr_left fun position _ => (P.pick?_places position).symm

theorem toList_start_eq_rotate :
    (Walk.start P).toList = (P.rows.map Array.toList).sections.rotate 1 := by
  refine List.map_injective_iff.mpr (Option.some_injective _) ?_
  rw [map_some_toList_start, List.map_rotate, map_pick?_sections, List.map_rotate]

/-- The slots of an item hold elements of their rows. -/
theorem forall₂_of_mem_toList_start {item : List α} (h : item ∈ (Walk.start P).toList) :
    List.Forall₂ (· ∈ ·) item P.rows := by
  rw [P.toList_start_eq_rotate, List.mem_rotate, List.mem_sections,
    List.forall₂_map_right_iff] at h
  exact h.imp fun _ _ => Array.mem_toList_iff.mp

end Product

/-- Rows with a size have the product of nested loops, the last row in the
outermost one and the first row in the innermost one, with the item they give
first moved to the end.  So it has as many items as the lengths of the rows
multiplied together, the slots of an item hold elements of their rows, and
every choice of places is picked once. -/
theorem product_eq_rotate_sections {rows : Rows α} (hrows : rows ≠ [])
    (hrow : ∀ row ∈ rows, 0 < row.size) (hsize : rows.lengths.prod ≤ capacity) :
    ∃ items first rest,
      product rows = .ok items ∧
      items = (rows.map Array.toList).sections.rotate 1 ∧
      (rows.map Array.toList).sections = first :: rest ∧ items = rest ++ [first] ∧
      first.map some = rows.map (·[0]?) ∧
      items.length = rows.lengths.prod ∧
      (∀ item ∈ items, List.Forall₂ (· ∈ ·) item rows) ∧
      ∃ choices : List (List Nat),
        items.map some = choices.map rows.pick? ∧ choices.Nodup ∧
        ∀ places, places ∈ choices ↔ Radix.Within places rows.lengths := by
  have hok : rows.size = .ok rows.lengths.prod :=
    Rows.size_eq_ok_iff.mpr ⟨hrows, hrow, hsize, rfl⟩
  obtain ⟨P, rfl⟩ : ∃ P : Product α, P.rows = rows := ⟨⟨rows, _, hok⟩, rfl⟩
  obtain ⟨first, rest, hsections, hfirst⟩ := exists_sections_eq_cons hrow
  have hitems := P.toList_start_eq_rotate
  refine ⟨(Walk.start P).toList, first, rest, ?_, hitems, hsections, ?_, hfirst, ?_, ?_,
    (P.rows.lengths.map List.range).sections.rotate 1, P.map_some_toList_start, ?_, ?_⟩
  · rw [product, Product.ofRows_eq_ok_iff.mpr rfl]
    rfl
  · rw [hitems, hsections, List.rotate_cons_succ, List.rotate_zero]
  · rw [hitems, List.length_rotate, ← List.length_map, ← map_pick?_sections, List.length_map,
      Radix.length_sections_range, Radix.volume_eq_prod]
  · intro item hitem
    rw [hitems, List.mem_rotate, List.mem_sections, List.forall₂_map_right_iff] at hitem
    exact hitem.imp fun _ _ => Array.mem_toList_iff.mp
  · exact List.nodup_rotate.mpr (Radix.nodup_sections_range _)
  · intro places
    rw [List.mem_rotate]
    exact Radix.mem_sections_range P.lengths_pos

/-- Two letters in front of three: the first letter changes fastest, and the
item of first letters comes last. -/
theorem product_eq_rotate_sections_letters :
    [#["a0", "a1"], #["b0", "b1", "b2"]] ≠ ([] : Rows String) ∧
      (∀ row ∈ ([#["a0", "a1"], #["b0", "b1", "b2"]] : Rows String), 0 < row.size) ∧
      Rows.lengths [#["a0", "a1"], #["b0", "b1", "b2"]] = [2, 3] ∧ [2, 3].prod ≤ capacity ∧
      product [#["a0", "a1"], #["b0", "b1", "b2"]] = .ok
        [["a1", "b0"], ["a0", "b1"], ["a1", "b1"], ["a0", "b2"], ["a1", "b2"], ["a0", "b0"]] := by
  have hrows : [#["a0", "a1"], #["b0", "b1", "b2"]] ≠ ([] : Rows String) := by decide
  have hrow : ∀ row ∈ ([#["a0", "a1"], #["b0", "b1", "b2"]] : Rows String), 0 < row.size := by
    decide
  have hlengths : Rows.lengths [#["a0", "a1"], #["b0", "b1", "b2"]] = [2, 3] := rfl
  have hsize : [2, 3].prod ≤ capacity := by decide
  obtain ⟨items, -, -, hok, rfl, -⟩ := product_eq_rotate_sections hrows hrow (hlengths ▸ hsize)
  exact ⟨hrows, hrow, hlengths, hsize, hok⟩

end Choices
