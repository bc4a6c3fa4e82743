/-
# `Choices.Product.Cursor` — two ends that move towards each other

A walk over a product hands out positions from the front and from the back.
What is left lies between two numbers: `front`, the last position handed
out in front, and `back`, the last one not yet handed out behind.  So
position `front + 1` is next in front, position `back` is next behind, and
nothing is left when the two are equal.

A `Move` asks something of a cursor, and `Cursor.apply` gives the `Reply`
and the cursor after it.  Skipping is arithmetic: a skip of any length is
one step, and it is cut short at the other end.

`Cursor.positions` is how a cursor is looked at: the list of what is left.
The lemmas at the end say what each operation does to that list — the front
works on its head, the back on its last element — for cursors whose ends
are in order, and `Inside.apply` says that they always are.
-/

namespace Choices

/-- What may be asked of something with two ends. -/
inductive Move where
  | next
  | nextBack
  /-- The next one from the front after skipping `n`. -/
  | nth (n : Nat)
  /-- The next one from the back after skipping `n`. -/
  | nthBack (n : Nat)
  /-- Bounds on how many are left. -/
  | sizeHint
  /-- Up to `n` from the front. -/
  | take (n : Nat)
  /-- Up to `n` from the back, last one first. -/
  | takeBack (n : Nat)
  | collect
  | collectBack
  /-- The last one left, using up the others. -/
  | last
  /-- How many are left, using them up. -/
  | count
deriving DecidableEq

/-- The answer to a move. -/
inductive Reply (β : Type) where
  | item (item : Option β)
  | items (items : List β)
  | bounds (low high : Nat)
  | tally (n : Nat)
  /-- There is nothing to say. -/
  | silent
deriving DecidableEq

/-- The same answer about other things. -/
def Reply.map {β γ : Type} (f : β → γ) : Reply β → Reply γ
  | .item o => .item (o.map f)
  | .items l => .items (l.map f)
  | .bounds low high => .bounds low high
  | .tally n => .tally n
  | .silent => .silent

/-- The two ends of what is left. -/
structure Cursor where
  front : Nat
  back : Nat
deriving DecidableEq

namespace Cursor

def start (size : Nat) : Cursor := ⟨0, size⟩

/-- How many positions are left. -/
def left (c : Cursor) : Nat := c.back - c.front

/-- The positions that are left, front to back. -/
def positions (c : Cursor) : List Nat := List.range' (c.front + 1) c.left

def next (c : Cursor) : Option Nat × Cursor :=
  if c.front = c.back then (none, c) else (some (c.front + 1), { c with front := c.front + 1 })

def nextBack (c : Cursor) : Option Nat × Cursor :=
  if c.front = c.back then (none, c) else (some c.back, { c with back := c.back - 1 })

/-- Passes over up to `n` positions in front. -/
def skip (c : Cursor) (n : Nat) : Cursor := { c with front := c.front + min n c.left }

/-- Passes over up to `n` positions behind. -/
def skipBack (c : Cursor) (n : Nat) : Cursor := { c with back := c.back - min n c.left }

/-- The first up to `n` positions that are left. -/
def first (c : Cursor) (n : Nat) : List Nat := List.range' (c.front + 1) (min n c.left)

/-- The last up to `n` positions that are left, the last one first. -/
def final (c : Cursor) (n : Nat) : List Nat :=
  (List.range' (c.back - min n c.left + 1) (min n c.left)).reverse

/-- The answer to a move, and the cursor after it. -/
def apply : Move → Cursor → Reply Nat × Cursor
  | .next, c => (.item c.next.1, c.next.2)
  | .nextBack, c => (.item c.nextBack.1, c.nextBack.2)
  | .nth n, c => (.item (c.skip n).next.1, (c.skip n).next.2)
  | .nthBack n, c => (.item (c.skipBack n).nextBack.1, (c.skipBack n).nextBack.2)
  | .sizeHint, c => (.bounds c.left c.left, c)
  | .take n, c => (.items (c.first n), c.skip n)
  | .takeBack n, c => (.items (c.final n), c.skipBack n)
  | .collect, c => (.items (c.first c.left), c.skip c.left)
  | .collectBack, c => (.items (c.final c.left), c.skipBack c.left)
  | .last, c => (.item c.nextBack.1, c.skip c.left)
  | .count, c => (.tally c.left, c.skip c.left)

/-! ## The ends never pass each other -/

/-- The ends are in order, and inside `size` positions. -/
def Inside (size : Nat) (c : Cursor) : Prop := c.front ≤ c.back ∧ c.back ≤ size

theorem inside_start (size : Nat) : (start size).Inside size :=
  ⟨Nat.zero_le _, Nat.le_refl _⟩

theorem Inside.next {size : Nat} {c : Cursor} (h : c.Inside size) : c.next.2.Inside size := by
  obtain ⟨h₁, h₂⟩ := h
  unfold Cursor.next
  split
  · exact ⟨h₁, h₂⟩
  · constructor <;> dsimp only <;> omega

theorem Inside.nextBack {size : Nat} {c : Cursor} (h : c.Inside size) :
    c.nextBack.2.Inside size := by
  obtain ⟨h₁, h₂⟩ := h
  unfold Cursor.nextBack
  split
  · exact ⟨h₁, h₂⟩
  · constructor <;> dsimp only <;> omega

theorem Inside.skip {size : Nat} {c : Cursor} (h : c.Inside size) (n : Nat) :
    (c.skip n).Inside size := by
  obtain ⟨h₁, h₂⟩ := h
  constructor <;> dsimp only [Cursor.skip, left] <;> omega

theorem Inside.skipBack {size : Nat} {c : Cursor} (h : c.Inside size) (n : Nat) :
    (c.skipBack n).Inside size := by
  obtain ⟨h₁, h₂⟩ := h
  constructor <;> dsimp only [Cursor.skipBack, left] <;> omega

theorem Inside.apply {size : Nat} {c : Cursor} (h : c.Inside size) (move : Move) :
    (Cursor.apply move c).2.Inside size := by
  cases move with
  | next => exact h.next
  | nextBack => exact h.nextBack
  | nth n => exact (h.skip n).next
  | nthBack n => exact (h.skipBack n).nextBack
  | sizeHint => exact h
  | take n => exact h.skip n
  | takeBack n => exact h.skipBack n
  | collect => exact h.skip _
  | collectBack => exact h.skipBack _
  | last => exact h.skip _
  | count => exact h.skip _

/-! ## What each operation does to the positions -/

@[simp]
theorem length_positions (c : Cursor) : c.positions.length = c.left := by
  simp [positions]

theorem positions_eq_nil_iff {c : Cursor} (h : c.front ≤ c.back) :
    c.positions = [] ↔ c.front = c.back := by
  simp only [positions, left, List.range'_eq_nil_iff]
  omega

theorem positions_next {c : Cursor} (h : c.front ≤ c.back) :
    c.next.1 = c.positions.head? ∧ c.next.2.positions = c.positions.tail := by
  unfold next
  split
  · next he =>
    have hn : c.positions = [] := (positions_eq_nil_iff h).mpr he
    simp [hn]
  · next hne =>
    -- one position is left at least, so the list of them unfolds once
    obtain ⟨m, hm⟩ : ∃ m, c.left = m + 1 := ⟨c.left - 1, by simp only [left]; omega⟩
    have hm' : ({ c with front := c.front + 1 } : Cursor).left = m := by
      simp only [left] at hm ⊢
      omega
    simp [positions, hm, hm', List.range'_succ]

theorem positions_nextBack {c : Cursor} (h : c.front ≤ c.back) :
    c.nextBack.1 = c.positions.getLast? ∧ c.nextBack.2.positions = c.positions.dropLast := by
  unfold nextBack
  split
  · next he =>
    have hn : c.positions = [] := (positions_eq_nil_iff h).mpr he
    simp [hn]
  · next hne =>
    obtain ⟨m, hm⟩ : ∃ m, c.left = m + 1 := ⟨c.left - 1, by simp only [left]; omega⟩
    have hm' : ({ c with back := c.back - 1 } : Cursor).left = m := by
      simp only [left] at hm ⊢
      omega
    have hb : c.front + 1 + m = c.back := by
      simp only [left] at hm
      omega
    simp [positions, hm, hm', hb, List.range'_concat]

theorem positions_skip (c : Cursor) (n : Nat) :
    (c.skip n).positions = c.positions.drop n := by
  have hl : (c.skip n).left = c.left - n := by
    simp only [skip, left]
    omega
  by_cases hn : n ≤ c.left
  · simp only [positions, hl, List.drop_range']
    simp only [skip, Nat.min_eq_left hn]
    congr 1
    omega
  · have h₀ : c.left - n = 0 := by omega
    simp [positions, hl, h₀]

theorem positions_skipBack (c : Cursor) (n : Nat) :
    (c.skipBack n).positions = c.positions.take (c.left - n) := by
  have hl : (c.skipBack n).left = c.left - n := by
    simp only [skipBack, left]
    omega
  have hs : c.positions = List.range' (c.front + 1) (c.left - n) ++
      List.range' (c.front + 1 + (c.left - n)) (c.left - (c.left - n)) := by
    rw [List.range'_append_1, positions]
    congr 1
    omega
  rw [hs, List.take_left' (by simp), positions, hl]
  rfl

theorem first_eq_take (c : Cursor) (n : Nat) : c.first n = c.positions.take n := by
  have hs : c.positions = List.range' (c.front + 1) (min n c.left) ++
      List.range' (c.front + 1 + min n c.left) (c.left - n) := by
    rw [List.range'_append_1, positions]
    congr 1
    omega
  by_cases hn : n ≤ c.left
  · rw [hs, List.take_left' (by simp; omega), first]
  · rw [List.take_of_length_le (by simp; omega), first, Nat.min_eq_right (by omega), positions]

theorem final_eq_take_reverse {c : Cursor} (h : c.front ≤ c.back) (n : Nat) :
    c.final n = c.positions.reverse.take n := by
  have hm : c.left - n + min n c.left = c.left := by omega
  have hb : c.front + 1 + (c.left - n) = c.back - min n c.left + 1 := by
    simp only [left] at hm ⊢
    omega
  rw [List.take_reverse, length_positions, positions, List.drop_range', final]
  congr 2
  · omega
  · omega

end Cursor
end Choices
