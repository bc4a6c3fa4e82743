/-
# `Choices.Proofs.Product.Ranking` — where an item of a product is stored

An item is a choice of one place in each row, and a choice is a number, its
places being digits with the lengths of the rows as radices:

    d₀ + d₁ · l₀ + d₂ · l₀ · l₁ + …

The product starts with the number 1 and comes to 0 last, so the index of a
choice is its number one place back, and the choice of all first elements, the
number 0, goes round to the end (`Rows.indexOf`).  Reading the item at an index
goes the other way, one place on and into digits (`Product.places`).  Both
steps are inverse to each other: digits by the two round trips of `Radix`, the
place back and the place on because both are taken modulo the size.
-/
import Mathlib
import Choices.Proofs.Product.Sections

namespace Choices

/-! ## Numbers as sums -/

namespace Radix

theorem sum_mapIdx_mul_left {β : Type} (r : Nat) : ∀ (xs : List β) (f : Nat → β → Nat),
    (xs.mapIdx fun i x => r * f i x).sum = r * (xs.mapIdx f).sum := by
  intro xs
  induction xs with
  | nil => intro _; rfl
  | cons x xs ih =>
      intro f
      rw [List.mapIdx_cons, List.mapIdx_cons, List.sum_cons, List.sum_cons, Nat.mul_add]
      exact congrArg (r * f 0 x + ·) (ih fun i => f (i + 1))

/-- The number with given digits, each weighed by the radices before its own. -/
theorem value_eq_sum {radices ds : List Nat} (h : Within ds radices) :
    value radices ds = (ds.mapIdx fun i d => d * (radices.take i).prod).sum := by
  induction h with
  | nil => rfl
  | @cons d r ds rs _ _ ih =>
      have hweights : (fun (i : Nat) (d : Nat) => d * ((r :: rs).take (i + 1)).prod)
          = fun i d => r * (d * (rs.take i).prod) := by
        funext i d
        rw [List.take_succ_cons, List.prod_cons, Nat.mul_left_comm]
      rw [value, ih, List.mapIdx_cons, List.sum_cons, List.take_zero, List.prod_nil, Nat.mul_one,
        hweights, sum_mapIdx_mul_left]

/-- First places are there in rows that are not empty. -/
theorem within_map_zero {β : Type} {length : β → Nat} : ∀ {xs : List β},
    (∀ x ∈ xs, 0 < length x) → Within (xs.map fun _ => 0) (xs.map length) := by
  intro xs
  induction xs with
  | nil => intro _; exact .nil
  | cons x xs ih =>
      intro h
      exact .cons (h x List.mem_cons_self) (ih fun y hy => h y (List.mem_cons_of_mem x hy))

/-- All first places are the digits of 0. -/
theorem value_map_zero {β : Type} (radices : List Nat) (xs : List β) :
    value radices (xs.map fun _ => 0) = 0 := by
  induction xs generalizing radices with
  | nil => cases radices <;> rfl
  | cons x xs ih =>
      cases radices with
      | nil => rfl
      | cons r rs => rw [List.map_cons, value, ih, Nat.mul_zero]

end Radix

variable {α : Type}

/-! ## Picking -/

theorem Rows.pick?_nil_eq_some {places : List Nat} {item : List α}
    (h : Rows.pick? [] places = some item) : places = [] ∧ item = [] := by
  cases places with
  | nil => cases h; exact ⟨rfl, rfl⟩
  | cons place places => cases h

theorem Rows.pick?_cons_eq_some {row : Array α} {rows : Rows α} {places : List Nat}
    {item : List α} (h : Rows.pick? (row :: rows) places = some item) :
    ∃ place places' a rest, places = place :: places' ∧ item = a :: rest ∧
      row[place]? = some a ∧ rows.pick? places' = some rest := by
  cases places with
  | nil => cases h
  | cons place places =>
      simp only [Rows.pick?, Option.bind_eq_bind, Option.bind_eq_some_iff] at h
      obtain ⟨a, ha, rest, hrest, hitem⟩ := h
      exact ⟨place, places, a, rest, rfl, (Option.some.inj hitem).symm, ha, hrest⟩

/-- Each slot of a picked item holds what its row has at the place for it. -/
theorem Rows.map_some_of_pick? : ∀ {rows : Rows α} {places : List Nat} {item : List α},
    rows.pick? places = some item →
    item.map some = List.zipWith (fun row place => row[place]?) rows places := by
  intro rows
  induction rows with
  | nil =>
      intro places item h
      obtain ⟨rfl, rfl⟩ := pick?_nil_eq_some h
      rfl
  | cons row rows ih =>
      intro places item h
      obtain ⟨place, places, a, rest, rfl, rfl, ha, hrest⟩ := pick?_cons_eq_some h
      rw [List.map_cons, List.zipWith_cons_cons, ha, ih hrest]

/-! ## Places and indices -/

/-- The index of the item that picks at the given places. -/
def Rows.indexOf (rows : Rows α) (places : List Nat) : Nat :=
  ((places.mapIdx fun i place => place * (rows.lengths.take i).prod).sum
    + rows.lengths.prod - 1) % rows.lengths.prod

/-- One place on undoes one place back, going round at the size. -/
theorem succ_mod_pred {size : Nat} (h : 0 < size) (number : Nat) :
    ((number + (size - 1)) % size + 1) % size = number % size := by
  rw [Nat.mod_add_mod, Nat.add_assoc, Nat.sub_add_cancel h, Nat.add_mod_right]

namespace Product

variable (P : Product α)

theorem size_pos : 0 < P.size := by
  rw [P.size_eq_volume]
  exact Nat.lt_of_le_of_lt (Nat.zero_le _) (Radix.value_lt (P.within_places 0))

theorem prod_lengths : P.rows.lengths.prod = P.size := by
  rw [P.size_eq_volume, Radix.volume_eq_prod]

variable {P} {places : List Nat}

theorem value_lt_size (h : Radix.Within places P.rows.lengths) :
    Radix.value P.rows.lengths places < P.size := by
  rw [P.size_eq_volume]
  exact Radix.value_lt h

/-- The number of a choice, one place back. -/
theorem indexOf_eq (h : Radix.Within places P.rows.lengths) :
    P.rows.indexOf places = (Radix.value P.rows.lengths places + (P.size - 1)) % P.size := by
  rw [Rows.indexOf, ← Radix.value_eq_sum h, P.prod_lengths, Nat.add_sub_assoc P.size_pos]

theorem indexOf_lt (h : Radix.Within places P.rows.lengths) : P.rows.indexOf places < P.size := by
  rw [indexOf_eq h]
  exact Nat.mod_lt _ P.size_pos

/-- One place on, the index of a choice has the places of the choice. -/
theorem places_indexOf (h : Radix.Within places P.rows.lengths) :
    P.places (P.rows.indexOf places + 1) = places := by
  have hback : (P.rows.indexOf places + 1) % P.size = Radix.value P.rows.lengths places := by
    rw [indexOf_eq h, succ_mod_pred P.size_pos, Nat.mod_eq_of_lt (value_lt_size h)]
  rw [← P.places_mod_size, hback, Product.places, Radix.digits_value h]

/-- The places an index reads have that index. -/
theorem indexOf_places {index : Nat} (h : index < P.size) :
    P.rows.indexOf (P.places (index + 1)) = index := by
  have hone : 1 ≤ P.size := P.size_pos
  rw [indexOf_eq (P.within_places _), Product.places, Radix.value_digits, ← P.size_eq_volume,
    Nat.mod_add_mod, Nat.add_assoc, Nat.add_sub_cancel' hone, Nat.add_mod_right,
    Nat.mod_eq_of_lt h]

theorem indexOf_map_zero : P.rows.indexOf (P.rows.map fun _ => 0) = P.size - 1 := by
  have hwithin : Radix.Within (P.rows.map fun _ => 0) P.rows.lengths :=
    Radix.within_map_zero (sizeOfRows_eq_ok P.size_eq)
  rw [indexOf_eq hwithin, Radix.value_map_zero, Nat.zero_add,
    Nat.mod_eq_of_lt (Nat.sub_lt P.size_pos Nat.one_pos)]

/-- The item at an index is picked at the places of the next position. -/
theorem exists_productAt {index : Nat} (h : index < P.size) :
    ∃ item, productAt P.rows index = .ok (some item) ∧
      item.map some
        = List.zipWith (fun row place => row[place]?) P.rows (P.places (index + 1)) := by
  have hitem : P.item? index = some (P.item (index + 1)) := if_pos h
  exact ⟨P.item (index + 1), hitem ▸ productAt_rows P index,
    Rows.map_some_of_pick? (P.pick?_places _)⟩

end Product

/-- The choices of places in rows with a product correspond one to one to the
indices of its items.  The index of a choice is below the size and stores the
item picked there, the places read off that index are the choice, and the
places read off any index have that index.  The choice of all first elements
is stored last. -/
theorem productAt_indexOf {rows : Rows α} (hrows : rows ≠ [])
    (hrow : ∀ row ∈ rows, 0 < row.size) (hsize : rows.lengths.prod ≤ capacity) :
    ∃ P : Product α, Product.ofRows rows = .ok P ∧ P.size = rows.lengths.prod ∧
      (∀ places, Radix.Within places rows.lengths →
        rows.indexOf places < rows.lengths.prod ∧
        P.places (rows.indexOf places + 1) = places ∧
        ∃ item, productAt rows (rows.indexOf places) = .ok (some item) ∧
          item.map some = List.zipWith (fun row place => row[place]?) rows places) ∧
      (∀ index < rows.lengths.prod,
        Radix.Within (P.places (index + 1)) rows.lengths ∧
        rows.indexOf (P.places (index + 1)) = index ∧
        ∃ item, productAt rows index = .ok (some item) ∧
          item.map some
            = List.zipWith (fun row place => row[place]?) rows (P.places (index + 1))) ∧
      rows.indexOf (rows.map fun _ => 0) = rows.lengths.prod - 1 := by
  have hok : rows.size = .ok rows.lengths.prod :=
    Rows.size_eq_ok_iff.mpr ⟨hrows, hrow, hsize, rfl⟩
  obtain ⟨P, rfl, -⟩ := Product.exists_of_size hok
  rw [P.prod_lengths]
  refine ⟨P, Product.ofRows_eq_ok_iff.mpr rfl, rfl, fun places hwithin => ?_,
    fun index hindex => ?_, Product.indexOf_map_zero⟩
  · have hitem := Product.exists_productAt (Product.indexOf_lt hwithin)
    rw [Product.places_indexOf hwithin] at hitem
    exact ⟨Product.indexOf_lt hwithin, Product.places_indexOf hwithin, hitem⟩
  · exact ⟨P.within_places _, Product.indexOf_places hindex, Product.exists_productAt hindex⟩

/-- Forty rows of three, nearly as many items as there can be: the choice of all
last elements is the last but one, before that of all first elements. -/
theorem productAt_indexOf_forty :
    List.replicate 40 #["a", "b", "c"] ≠ ([] : Rows String) ∧
      (∀ row ∈ List.replicate 40 #["a", "b", "c"], 0 < row.size) ∧
      (Rows.lengths (List.replicate 40 #["a", "b", "c"])).prod = 12157665459056928801 ∧
      12157665459056928801 ≤ capacity ∧
      Radix.Within (List.replicate 40 2) (Rows.lengths (List.replicate 40 #["a", "b", "c"])) ∧
      productAt (List.replicate 40 #["a", "b", "c"]) 12157665459056928799
        = .ok (some (List.replicate 40 "c")) ∧
      Rows.indexOf (List.replicate 40 #["a", "b", "c"]) (List.replicate 40 0)
        = 12157665459056928800 := by
  have hrows : List.replicate 40 #["a", "b", "c"] ≠ ([] : Rows String) := by decide
  have hrow : ∀ row ∈ List.replicate 40 #["a", "b", "c"], 0 < row.size := by
    intro row hmem
    rw [List.eq_of_mem_replicate hmem]
    decide
  have hprod : (Rows.lengths (List.replicate 40 #["a", "b", "c"])).prod = 12157665459056928801 := by
    decide
  have hsize : 12157665459056928801 ≤ capacity := by decide
  have hwithin : Radix.Within (List.replicate 40 2)
      (Rows.lengths (List.replicate 40 #["a", "b", "c"])) := by
    have hpos : ∀ r ∈ Rows.lengths (List.replicate 40 #["a", "b", "c"]), 0 < r := by decide
    exact Radix.within_digits hpos 12157665459056928800
  have hindex : Rows.indexOf (List.replicate 40 #["a", "b", "c"]) (List.replicate 40 2)
      = 12157665459056928799 := by decide
  obtain ⟨P, -, -, hplaces, -, hfirst⟩ := productAt_indexOf hrows hrow (hprod ▸ hsize)
  obtain ⟨-, -, item, hitem, hslots⟩ := hplaces _ hwithin
  rw [hindex] at hitem
  have hlast : item = List.replicate 40 "c" :=
    List.map_injective_iff.mpr (Option.some_injective _) hslots
  rw [hprod] at hfirst
  exact ⟨hrows, hrow, hprod, hsize, hwithin, hlast ▸ hitem, hfirst⟩

end Choices
