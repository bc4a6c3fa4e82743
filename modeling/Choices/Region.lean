/-
# `Choices.Region` — the part of a result that is being filled

A result is an array of item slots, sized from its count before anything
is written.  A `Region` is such an array together with the stretch of it
that is still open: `push?` writes the next open slot, and a full region
takes nothing more.

Nothing is written out of range: a push that would be answers `none`.  When
a list of items has been pushed, the stretch of slots it went to holds just
those items, in their order, and every other slot holds what it held before
(`getElem?_of_pushAll?`).  So several regions of one array, if their
stretches do not overlap, can be filled in any order.
-/

namespace Choices

/-- A result under construction: its slots, and the stretch from `next` to
`stop` that is still open. -/
structure Region (α : Type) where
  slots : Array (List α)
  next : Nat
  stop : Nat

namespace Region

variable {α : Type}

/-- A result of `size` slots, none of them written. -/
def blankSlots (size : Nat) : Array (List α) := Array.replicate size []

/-- The whole of a blank result. -/
def blank (size : Nat) : Region α := ⟨blankSlots size, 0, size⟩

/-- Writes the next open slot, or `none` when there is none. -/
def push? : Region α → List α → Option (Region α)
  | ⟨slots, next, stop⟩, item =>
    if h : next < slots.size ∧ next < stop then
      some ⟨slots.set next item h.1, next + 1, stop⟩
    else none

/-- Writes a list of items, one slot each. -/
def pushAll? (region : Region α) (items : List (List α)) : Option (Region α) :=
  items.foldlM push? region

/-! ## What a push does -/

theorem push?_eq_some_iff {region region' : Region α} {item : List α} :
    region.push? item = some region' ↔
      ∃ h : region.next < region.slots.size ∧ region.next < region.stop,
        region' = ⟨region.slots.set region.next item h.1, region.next + 1, region.stop⟩ := by
  obtain ⟨slots, next, stop⟩ := region
  by_cases h : next < slots.size ∧ next < stop
  · simp [push?, h, eq_comm]
  · rw [push?, dif_neg h]
    constructor
    · intro e; cases e
    · rintro ⟨h', _⟩; exact absurd h' h

@[simp]
theorem pushAll?_nil (region : Region α) : region.pushAll? [] = some region := rfl

@[simp]
theorem pushAll?_cons (region : Region α) (item : List α) (items : List (List α)) :
    region.pushAll? (item :: items) = (region.push? item).bind (·.pushAll? items) := by
  simp only [pushAll?, List.foldlM_cons]
  rfl

theorem pushAll?_append (region : Region α) (items items' : List (List α)) :
    region.pushAll? (items ++ items') = (region.pushAll? items).bind (·.pushAll? items') := by
  simp only [pushAll?, List.foldlM_append]
  rfl

/-! ## What a list of pushes does -/

/-- The ends of the open stretch move by the number of items, and the result
keeps its size. -/
theorem bounds_of_pushAll? {region region' : Region α} {items : List (List α)}
    (h : region.pushAll? items = some region') :
    region'.next = region.next + items.length ∧ region'.stop = region.stop ∧
      region'.slots.size = region.slots.size := by
  induction items generalizing region with
  | nil =>
    cases h
    exact ⟨rfl, rfl, rfl⟩
  | cons item items ih =>
    rw [pushAll?_cons, Option.bind_eq_some_iff] at h
    obtain ⟨first, h₁, h₂⟩ := h
    obtain ⟨_, rfl⟩ := push?_eq_some_iff.mp h₁
    obtain ⟨hn, hs, hz⟩ := ih h₂
    refine ⟨?_, hs, by simpa using hz⟩
    dsimp only at hn
    rw [hn, List.length_cons]
    omega

/-- The items stand in the stretch they were pushed to, and no other slot
has changed. -/
theorem getElem?_of_pushAll? {region region' : Region α} {items : List (List α)}
    (h : region.pushAll? items = some region') (i : Nat) :
    region'.slots[i]? =
      if region.next ≤ i ∧ i < region.next + items.length then items[i - region.next]?
      else region.slots[i]? := by
  induction items generalizing region with
  | nil =>
    cases h
    rw [if_neg (by simp only [List.length_nil]; omega)]
  | cons item items ih =>
    rw [pushAll?_cons, Option.bind_eq_some_iff] at h
    obtain ⟨first, h₁, h₂⟩ := h
    obtain ⟨⟨hslot, _⟩, rfl⟩ := push?_eq_some_iff.mp h₁
    rw [ih h₂]
    simp only [List.length_cons]
    by_cases hi : i = region.next
    · -- the slot of the first item is not touched again
      subst hi
      rw [if_neg (by omega), if_pos (by omega)]
      simp [hslot]
    · by_cases hin : region.next + 1 ≤ i ∧ i < region.next + 1 + items.length
      · rw [if_pos hin, if_pos (by omega),
          show i - region.next = (i - (region.next + 1)) + 1 by omega, List.getElem?_cons_succ]
      · rw [if_neg hin, if_neg (by omega), Array.getElem?_set_ne]
        exact fun e => hi e.symm

/-- Items can be pushed as long as there is an open slot for each. -/
theorem isSome_pushAll? {region : Region α} {items : List (List α)}
    (hstop : region.next + items.length ≤ region.stop)
    (hsize : region.next + items.length ≤ region.slots.size) :
    (region.pushAll? items).isSome := by
  induction items generalizing region with
  | nil => rfl
  | cons item items ih =>
    rw [List.length_cons] at hstop hsize
    have hpush : region.next < region.slots.size ∧ region.next < region.stop := by omega
    rw [pushAll?_cons, push?_eq_some_iff.mpr ⟨hpush, rfl⟩, Option.bind_some]
    refine ih ?_ ?_
    · show region.next + 1 + items.length ≤ region.stop
      omega
    · rw [Array.size_set]
      show region.next + 1 + items.length ≤ region.slots.size
      omega

end Region
end Choices
