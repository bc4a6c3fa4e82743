/-
# `Choices.Proofs.Product.Concatenation` — the product of rows behind rows

A product of rows `left ++ right` has an item for each pair of an item of
`left` and one of `right`.  Which pair stands at which position is one
division: the digits of a position for `left ++ right` are its digits for
`left`, and those of its quotient by the size of `left` for `right`
(`Radix.digits_append`).

For indices this is less simple than it looks.  A position is an index plus
1, and going from positions back to indices the two parts do not move
together.  The remainder of an index is the index of the front.  The index of
the back is one less than the quotient of the position, not of the index,
and the quotient 0 goes round to the last item of `right`.
-/
import Choices.Proofs.Product.Ranking

namespace Choices

/-! ## Numbers with two lists of radices -/

namespace Radix

theorem digits_append (radices radices' : List Nat) (number : Nat) :
    digits (radices ++ radices') number
      = digits radices number ++ digits radices' (number / volume radices) := by
  induction radices generalizing number with
  | nil => rw [volume, Nat.div_one]; rfl
  | cons r rs ih =>
      rw [List.cons_append, digits, ih, Nat.div_div_eq_div_mul, digits, volume, List.cons_append]

end Radix

variable {α : Type}

namespace Rows

theorem lengths_append (left right : Rows α) :
    lengths (left ++ right) = left.lengths ++ right.lengths :=
  List.map_append

theorem pick?_append {right : Rows α} {places' : List Nat} {back : List α}
    (hback : right.pick? places' = some back) : ∀ {left : Rows α} {places : List Nat}
    {front : List α}, left.pick? places = some front →
    pick? (left ++ right) (places ++ places') = some (front ++ back) := by
  intro left
  induction left with
  | nil =>
      intro places front h
      obtain ⟨rfl, rfl⟩ := pick?_nil_eq_some h
      exact hback
  | cons row left ih =>
      intro places front h
      obtain ⟨place, places, a, rest, rfl, rfl, ha, hrest⟩ := pick?_cons_eq_some h
      simp [pick?, ha, ih hrest]

/-- The sizes of two lists of rows multiply, as far as the product fits. -/
theorem size_append {left right : Rows α} {a b : Nat} (hleft : left.size = .ok a)
    (hright : right.size = .ok b) (hsize : a * b ≤ capacity) :
    size (left ++ right) = .ok (a * b) := by
  obtain ⟨hrows, hrow, -, rfl⟩ := size_eq_ok_iff.mp hleft
  obtain ⟨-, hrow', -, rfl⟩ := size_eq_ok_iff.mp hright
  have hprod : (lengths (left ++ right)).prod = left.lengths.prod * right.lengths.prod := by
    rw [lengths_append, List.prod_append]
  refine size_eq_ok_iff.mpr ⟨List.append_ne_nil_of_left_ne_nil hrows right, ?_, ?_, hprod.symm⟩
  · intro row hmem
    rcases List.mem_append.mp hmem with hmem | hmem
    · exact hrow row hmem
    · exact hrow' row hmem
  · rwa [hprod]

end Rows

/-! ## Items in two parts -/

namespace Product

/-- Positions that are equal up to the size have the same item. -/
theorem item_eq_of_mod_eq (P : Product α) {position position' : Nat}
    (h : position % P.size = position' % P.size) : P.item position = P.item position' := by
  have hplaces : P.places position = P.places position' := by
    rw [← P.places_mod_size position, h, P.places_mod_size]
  have hpick := P.pick?_places position
  rw [hplaces, P.pick?_places] at hpick
  exact (Option.some.inj hpick).symm

theorem item_append {P Q R : Product α} (h : R.rows = P.rows ++ Q.rows) (position : Nat) :
    R.item position = P.item position ++ Q.item (position / P.size) := by
  have hplaces : R.places position = P.places position ++ Q.places (position / P.size) := by
    rw [places, h, Rows.lengths_append, Radix.digits_append, ← P.size_eq_volume]
    rfl
  have hpick := Rows.pick?_append (Q.pick?_places (position / P.size)) (P.pick?_places position)
  rw [← h, ← hplaces, R.pick?_places] at hpick
  exact Option.some.inj hpick

end Product

/-- Rows behind rows have the product of the two sizes, if it fits.  An item
of theirs is an item of the first rows, the one at the remainder of the index,
and behind it one of the second rows, the one before the quotient of the
position, where the last one is before the first. -/
theorem productAt_append {left right : Rows α} {a b : Nat} (hleft : left.size = .ok a)
    (hright : right.size = .ok b) (hsize : a * b ≤ capacity) :
    Rows.size (left ++ right) = .ok (a * b) ∧
      ∀ index < a * b, ∃ front back,
        productAt left (index % a) = .ok (some front) ∧
        productAt right (((index + 1) / a + b - 1) % b) = .ok (some back) ∧
        productAt (left ++ right) index = .ok (some (front ++ back)) := by
  have hwhole := Rows.size_append hleft hright hsize
  refine ⟨hwhole, fun index hindex => ?_⟩
  obtain ⟨P, rfl, rfl⟩ := Product.exists_of_size hleft
  obtain ⟨Q, rfl, rfl⟩ := Product.exists_of_size hright
  obtain ⟨R, hrows, hR⟩ := Product.exists_of_size hwhole
  have hfront : P.item (index % P.size + 1) = P.item (index + 1) :=
    P.item_eq_of_mod_eq (Nat.mod_add_mod index P.size 1)
  have hback : Q.item (((index + 1) / P.size + Q.size - 1) % Q.size + 1)
      = Q.item ((index + 1) / P.size) := by
    rw [Nat.add_sub_assoc Q.size_pos]
    exact Q.item_eq_of_mod_eq (succ_mod_pred Q.size_pos _)
  refine ⟨P.item (index + 1), Q.item ((index + 1) / P.size), ?_, ?_, ?_⟩
  · rw [productAt_rows, Product.item?, if_pos (Nat.mod_lt index P.size_pos), hfront]
  · rw [productAt_rows, Product.item?, if_pos (Nat.mod_lt _ Q.size_pos), hback]
  · rw [← hrows, productAt_rows, Product.item?, if_pos (hR ▸ hindex), Product.item_append hrows]

/-- Twenty rows of three behind twenty of the same, nearly as many items as
there can be.  The back moves on when the front comes to its last item, and at
the last index of all it has gone round. -/
theorem productAt_append_forty :
    Rows.size (List.replicate 20 #["a", "b", "c"]) = .ok 3486784401 ∧
      3486784401 * 3486784401 ≤ capacity ∧
      3486784400 < 3486784401 * 3486784401 ∧
      12157665459056928800 < 3486784401 * 3486784401 ∧
      Rows.size (List.replicate 20 #["a", "b", "c"] ++ List.replicate 20 #["a", "b", "c"])
        = .ok 12157665459056928801 ∧
      productAt (List.replicate 20 #["a", "b", "c"] ++ List.replicate 20 #["a", "b", "c"])
        3486784400 = .ok (some (List.replicate 20 "a" ++ "b" :: List.replicate 19 "a")) ∧
      productAt (List.replicate 20 #["a", "b", "c"] ++ List.replicate 20 #["a", "b", "c"])
        12157665459056928800 = .ok (some (List.replicate 20 "a" ++ List.replicate 20 "a")) := by
  have hrows : Rows.size (List.replicate 20 #["a", "b", "c"]) = .ok 3486784401 := by decide
  have hsize : 3486784401 * 3486784401 ≤ capacity := by decide
  have hfirst : 3486784400 < 3486784401 * 3486784401 := by decide
  have hlast : 12157665459056928800 < 3486784401 * 3486784401 := by decide
  have hfront : productAt (List.replicate 20 #["a", "b", "c"]) 3486784400
      = .ok (some (List.replicate 20 "a")) := rfl
  have hback : productAt (List.replicate 20 #["a", "b", "c"]) 0
      = .ok (some ("b" :: List.replicate 19 "a")) := rfl
  obtain ⟨hwhole, hitems⟩ := productAt_append hrows hrows hsize
  obtain ⟨front, back, hfront₁, hback₁, hitem₁⟩ := hitems 3486784400 hfirst
  obtain ⟨front', back', hfront₂, hback₂, hitem₂⟩ := hitems 12157665459056928800 hlast
  obtain rfl := Option.some.inj (Except.ok.inj (hfront.symm.trans hfront₁))
  obtain rfl := Option.some.inj (Except.ok.inj (hback.symm.trans hback₁))
  obtain rfl := Option.some.inj (Except.ok.inj (hfront.symm.trans hfront₂))
  obtain rfl := Option.some.inj (Except.ok.inj (hfront.symm.trans hback₂))
  exact ⟨hrows, hsize, hfirst, hlast, hwhole, hitem₁, hitem₂⟩

end Choices
