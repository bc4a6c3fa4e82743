/-
# `Choices.Proofs.Product.Size` — the size of a product is exact

Rows have a size exactly when there are rows, none of them is empty, and the
lengths multiplied together stay within the capacity.  The size is then that
product.  The running product is compared at every row, but since no row is
empty it only grows, and only its last value matters, so the order of the rows
does not.

What rows without a size are refused for does depend on their order.
`StopsAt lengths j` says that the running product does not get past the row at
index `j`, because that row is empty or because the product has become too
large.  The first such row decides (`sizeOfRows_of_stopsAt`), and what is behind
it is never looked at.
-/
import Mathlib.Algebra.BigOperators.Group.List.Basic
import Mathlib.Algebra.Order.BigOperators.Group.List
import Mathlib.Data.Nat.Find
import Choices.Product.Size

namespace Choices

/-! ## Only lengths count -/

theorem sizeOfRowsFrom_eq_map {ρ : Type} (length : ρ → Nat) : ∀ {rows : List ρ}
    {row total : Nat},
    sizeOfRowsFrom length row total rows = sizeOfRowsFrom id row total (rows.map length) := by
  intro rows
  induction rows with
  | nil => intro _ _; rfl
  | cons r rs ih =>
      intro row total
      simp only [List.map_cons, sizeOfRowsFrom, id_eq, ih]

theorem sizeOfRows_eq_map {ρ : Type} (length : ρ → Nat) (rows : List ρ) :
    sizeOfRows length rows = sizeOfRows id (rows.map length) := by
  cases rows with
  | nil => rfl
  | cons r rs => exact sizeOfRowsFrom_eq_map length

/-- Rows of another make, with the same lengths, have the same size. -/
theorem sizeOfRows_eq_size {α ρ : Type} {rows : Rows α} (length : ρ → Nat) {views : List ρ}
    (h : views.map length = rows.lengths) : sizeOfRows length views = rows.size := by
  have hrows : rows.size = sizeOfRows id rows.lengths := sizeOfRows_eq_map Array.size rows
  rw [sizeOfRows_eq_map, h, hrows]

/-! ## Sizes are products -/

theorem sizeOfRowsFrom_eq_ok_iff {ρ : Type} {length : ρ → Nat} : ∀ {rows : List ρ}
    {row total size : Nat}, total ≤ capacity →
    (sizeOfRowsFrom length row total rows = .ok size ↔
      (∀ r ∈ rows, 0 < length r) ∧ total * (rows.map length).prod ≤ capacity ∧
        size = total * (rows.map length).prod) := by
  intro rows
  induction rows with
  | nil =>
      intro row total size htotal
      simp [sizeOfRowsFrom, htotal, eq_comm]
  | cons r rs ih =>
      intro row total size htotal
      rw [sizeOfRowsFrom, List.map_cons, List.prod_cons, ← Nat.mul_assoc, List.forall_mem_cons]
      by_cases hr : length r = 0
      · simp [hr]
      · have hpos : 0 < length r := Nat.pos_of_ne_zero hr
        rw [if_neg hr]
        by_cases hnext : total * length r ≤ capacity
        · rw [if_pos hnext, ih hnext]
          simp only [hpos, true_and]
        · -- the rows that are left have elements, so the product stays too large
          rw [if_neg hnext]
          constructor
          · intro h; cases h
          · rintro ⟨⟨-, hrest⟩, hsize, -⟩
            have hgrow : 1 ≤ (rs.map length).prod := by
              refine List.one_le_prod_of_one_le fun l hl => ?_
              obtain ⟨r', hr', rfl⟩ := List.mem_map.mp hl
              exact hrest r' hr'
            exact absurd (Nat.le_trans (Nat.le_mul_of_pos_right _ hgrow) hsize) hnext

theorem sizeOfRows_eq_ok_iff {ρ : Type} {length : ρ → Nat} {rows : List ρ} {size : Nat} :
    sizeOfRows length rows = .ok size ↔
      rows ≠ [] ∧ (∀ row ∈ rows, 0 < length row) ∧ (rows.map length).prod ≤ capacity ∧
        size = (rows.map length).prod := by
  cases rows with
  | nil => simp [sizeOfRows]
  | cons row rows =>
      rw [sizeOfRows, sizeOfRowsFrom_eq_ok_iff (by decide), Nat.one_mul]
      simp

theorem Rows.size_eq_ok_iff {α : Type} {rows : Rows α} {size : Nat} :
    rows.size = .ok size ↔
      rows ≠ [] ∧ (∀ row ∈ rows, 0 < row.size) ∧ rows.lengths.prod ≤ capacity ∧
        size = rows.lengths.prod :=
  sizeOfRows_eq_ok_iff

/-- A size does not depend on the order of the rows. -/
theorem sizeOfRows_eq_ok_of_perm {ρ : Type} {length : ρ → Nat} {rows rows' : List ρ} {size : Nat}
    (h : sizeOfRows length rows = .ok size) (hperm : rows'.Perm rows) :
    sizeOfRows length rows' = .ok size := by
  obtain ⟨hsome, hpos, hfits, rfl⟩ := sizeOfRows_eq_ok_iff.mp h
  have hprod : (rows'.map length).prod = (rows.map length).prod := (hperm.map length).prod_eq
  have hsome' : rows' ≠ [] := fun hnil => hsome (hnil ▸ hperm).symm.eq_nil
  have hpos' : ∀ row ∈ rows', 0 < length row := fun row hrow => hpos row (hperm.mem_iff.mp hrow)
  exact sizeOfRows_eq_ok_iff.mpr ⟨hsome', hpos', hprod.symm ▸ hfits, hprod.symm⟩

/-! ## The row that decides -/

/-- The running product of the lengths does not get past the row at index `j`:
the row is empty, or the product of the lengths up to it is past the
capacity. -/
def StopsAt (lengths : List Nat) (j : Nat) : Prop :=
  j < lengths.length ∧ (lengths[j]? = some 0 ∨ capacity < (lengths.take (j + 1)).prod)

instance (lengths : List Nat) (j : Nat) : Decidable (StopsAt lengths j) :=
  inferInstanceAs (Decidable (_ ∧ _))

theorem exists_first_stop {lengths : List Nat} (h : ∃ j, StopsAt lengths j) :
    ∃ j, StopsAt lengths j ∧ ∀ i < j, ¬StopsAt lengths i :=
  ⟨Nat.find h, Nat.find_spec h, fun _ hi => Nat.find_min h hi⟩

theorem stopsAt_next_iff {seen rest : List Nat} {r : Nat} :
    StopsAt (seen ++ r :: rest) seen.length ↔ r = 0 ∨ capacity < seen.prod * r := by
  have htake : (seen ++ r :: rest).take (seen.length + 1) = seen ++ [r] :=
    List.take_length_add_append 1
  rw [StopsAt, htake, List.prod_append, List.prod_singleton]
  simp

/-- Induction on the rows that are left, behind those that were `seen`. -/
theorem sizeOfRowsFrom_of_stopsAt : ∀ {rest seen : List Nat} {j : Nat}, seen.length ≤ j →
    StopsAt (seen ++ rest) j → (∀ i < j, ¬StopsAt (seen ++ rest) i) →
    sizeOfRowsFrom id seen.length seen.prod rest
      = .error (if (seen ++ rest)[j]? = some 0 then .emptyRow j
          else .overflow .cartesianProduct) := by
  intro rest
  induction rest with
  | nil =>
      intro seen j hle hstop _
      rw [List.append_nil] at hstop
      exact absurd hstop.1 (Nat.not_lt.mpr hle)
  | cons r rest ih =>
      intro seen j hle hstop hfirst
      rw [sizeOfRowsFrom, id_eq]
      rcases Nat.eq_or_lt_of_le hle with rfl | hlt
      · have hget : (seen ++ r :: rest)[seen.length]? = some r := by simp
        rw [hget]
        rcases stopsAt_next_iff.mp hstop with rfl | hlarge
        · rfl
        · have hr : r ≠ 0 := by
            rintro rfl
            exact absurd hlarge (Nat.not_lt.mpr (Nat.zero_le _))
          rw [if_neg hr, if_neg (Nat.not_le.mpr hlarge), if_neg (fun h => hr (Option.some.inj h))]
      · -- the next row does not stop, so it is seen as well
        have hnext := mt stopsAt_next_iff.mpr (hfirst seen.length hlt)
        rw [not_or, Nat.not_lt] at hnext
        have hseen : seen ++ r :: rest = (seen ++ [r]) ++ rest := by simp
        have hlength : (seen ++ [r]).length = seen.length + 1 := by simp
        have hprod : (seen ++ [r]).prod = seen.prod * r := by simp
        rw [if_neg hnext.1, if_pos hnext.2, ← hlength, ← hprod, hseen]
        rw [hseen] at hstop hfirst
        exact ih (hlength.symm ▸ hlt) hstop hfirst

theorem sizeOfRows_of_stopsAt {ρ : Type} {length : ρ → Nat} {rows : List ρ} {j : Nat}
    (hstop : StopsAt (rows.map length) j) (hfirst : ∀ i < j, ¬StopsAt (rows.map length) i) :
    sizeOfRows length rows
      = .error (if (rows.map length)[j]? = some 0 then .emptyRow j
          else .overflow .cartesianProduct) := by
  rw [sizeOfRows_eq_map]
  cases hlengths : rows.map length with
  | nil =>
      rw [hlengths] at hstop
      cases hstop.1
  | cons r rest =>
      rw [hlengths] at hstop hfirst
      exact @sizeOfRowsFrom_of_stopsAt (r :: rest) [] j (Nat.zero_le j) hstop hfirst

/-- Where no row stops the running product, all of it is the size. -/
theorem sizeOfRows_of_not_stopsAt {ρ : Type} {length : ρ → Nat} {rows : List ρ} (hsome : rows ≠ [])
    (h : ∀ j, ¬StopsAt (rows.map length) j) :
    sizeOfRows length rows = .ok (rows.map length).prod := by
  have hpos : ∀ row ∈ rows, 0 < length row := by
    intro row hrow
    refine Nat.pos_of_ne_zero fun hzero => ?_
    obtain ⟨j, hj⟩ := List.mem_iff_getElem?.mp (List.mem_map_of_mem hrow : length row ∈ _)
    rw [hzero] at hj
    exact h j ⟨(List.getElem?_eq_some_iff.mp hj).1, Or.inl hj⟩
  have hfits : (rows.map length).prod ≤ capacity := by
    refine Nat.not_lt.mp fun hlarge => ?_
    have hlast : 0 < (rows.map length).length := by
      rw [List.length_map]
      exact List.length_pos_iff.mpr hsome
    refine h ((rows.map length).length - 1) ⟨Nat.sub_lt hlast Nat.one_pos, Or.inr ?_⟩
    rw [Nat.sub_add_cancel hlast, List.take_length]
    exact hlarge
  exact sizeOfRows_eq_ok_iff.mpr ⟨hsome, hpos, hfits, rfl⟩

/-- No rows are refused for that reason alone.  Otherwise the first row that
stops the running product decides, by being empty or not, and without one the
product of the lengths is the size.  So rows have a size when there are some,
none is empty and the product fits, in any order, and rows of any make, with
the same lengths, have the same. -/
theorem sizeOfRows_decided {ρ : Type} (length : ρ → Nat) (rows : List ρ) :
    (∀ {α : Type} (arrays : Rows α), arrays.lengths = rows.map length →
      arrays.size = sizeOfRows length rows) ∧
    (sizeOfRows length rows = .error .emptyInput ↔ rows = []) ∧
    (rows ≠ [] → (∀ j, ¬StopsAt (rows.map length) j) →
      sizeOfRows length rows = .ok (rows.map length).prod) ∧
    (∀ j, StopsAt (rows.map length) j → (∀ i < j, ¬StopsAt (rows.map length) i) →
      sizeOfRows length rows
        = .error (if (rows.map length)[j]? = some 0 then .emptyRow j
            else .overflow .cartesianProduct)) ∧
    (∀ size, sizeOfRows length rows = .ok size ↔
      rows ≠ [] ∧ (∀ row ∈ rows, 0 < length row) ∧ (rows.map length).prod ≤ capacity ∧
        size = (rows.map length).prod) ∧
    (∀ size, sizeOfRows length rows = .ok size → ∀ rows' : List ρ, rows'.Perm rows →
      sizeOfRows length rows' = .ok size) := by
  refine ⟨fun arrays harrays => (sizeOfRows_eq_size length harrays.symm).symm, ?_,
    fun hsome hnone => sizeOfRows_of_not_stopsAt hsome hnone,
    fun j hstop hfirst => sizeOfRows_of_stopsAt hstop hfirst,
    fun size => sizeOfRows_eq_ok_iff,
    fun size hsize rows' hperm => sizeOfRows_eq_ok_of_perm hsize hperm⟩
  constructor
  · intro hempty
    by_contra hsome
    by_cases hstops : ∃ j, StopsAt (rows.map length) j
    · obtain ⟨j, hstop, hfirst⟩ := exists_first_stop hstops
      rw [sizeOfRows_of_stopsAt hstop hfirst] at hempty
      split at hempty
      · cases hempty
      · cases hempty
    · rw [sizeOfRows_of_not_stopsAt hsome (fun j hj => hstops ⟨j, hj⟩)] at hempty
      cases hempty
  · rintro rfl
    rfl

/-- Rows told by their lengths.  An overflow at the second row hides the empty
row behind it, an empty row hides the one that is too long, and 64 bits less one
are a size in any order. -/
theorem sizeOfRows_decided_lengths :
    StopsAt [4294967296, 4294967296, 0] 1 ∧
      (∀ i < 1, ¬StopsAt [4294967296, 4294967296, 0] i) ∧
      sizeOfRows id [4294967296, 4294967296, 0] = .error (.overflow .cartesianProduct) ∧
    StopsAt [3, 0, 18446744073709551616] 1 ∧
      (∀ i < 1, ¬StopsAt [3, 0, 18446744073709551616] i) ∧
      sizeOfRows id [3, 0, 18446744073709551616] = .error (.emptyRow 1) ∧
    sizeOfRows id [4294967295, 1, 4294967297] = .ok capacity ∧
      [4294967297, 4294967295, 1].Perm [4294967295, 1, 4294967297] ∧
      sizeOfRows id [4294967297, 4294967295, 1] = .ok capacity := by
  have hlong : StopsAt [4294967296, 4294967296, 0] 1 := by decide
  have hlongFirst : ∀ i < 1, ¬StopsAt [4294967296, 4294967296, 0] i := by decide
  have hhole : StopsAt [3, 0, 18446744073709551616] 1 := by decide
  have hholeFirst : ∀ i < 1, ¬StopsAt [3, 0, 18446744073709551616] i := by decide
  have hsize : sizeOfRows id [4294967295, 1, 4294967297] = .ok capacity := by decide
  have hperm : [4294967297, 4294967295, 1].Perm [4294967295, 1, 4294967297] := by decide
  obtain ⟨-, -, -, hdecided, -⟩ := sizeOfRows_decided id [4294967296, 4294967296, 0]
  obtain ⟨-, -, -, hdecided', -⟩ := sizeOfRows_decided id [3, 0, 18446744073709551616]
  obtain ⟨-, -, -, -, -, horder⟩ := sizeOfRows_decided id [4294967295, 1, 4294967297]
  exact ⟨hlong, hlongFirst, hdecided 1 hlong hlongFirst, hhole, hholeFirst,
    hdecided' 1 hhole hholeFirst, hsize, hperm, horder _ hsize _ hperm⟩

end Choices
