/-
# `Choices.Proofs.Product.Loops` — every move is a loop of single draws

Two moves are enough to take something with two ends apart: the next item
from the front, and the next item from the back.  The other moves are loops
over these two.  `DoubleEnded.loop` says which: a skip asks `n` times and
drops the answers, a collection asks until there is no item, and so on.

A cursor does none of these loops.  It moves an end in one step however far
the move goes.  `Walk.apply_eq_loop` says that this is the same, in the
reply and in the state after it, for cursors whose ends are in order.
-/
import Choices.Product.Script

namespace Choices

namespace DoubleEnded

variable {σ β : Type} [DoubleEnded σ β]

/-- Asks `move` up to `n` times and stops early when there is no item. -/
def draw (move : Move) : Nat → σ → List β × σ
  | 0, s => ([], s)
  | n + 1, s =>
    match (apply move s).1 with
    | .item (some item) =>
      let (items, s) := draw move n (apply move s).2
      (item :: items, s)
    | _ => ([], (apply move s).2)

/-- The moves as loops of `next` and `nextBack`.  A loop that runs until there
is no item asks once more than there are items left. -/
def loop : Move → σ → Reply β × σ
  | .next, s => apply .next s
  | .nextBack, s => apply .nextBack s
  | .nth n, s => apply .next (draw .next n s).2
  | .nthBack n, s => apply .nextBack (draw .nextBack n s).2
  | .sizeHint, s => (.bounds (left s) (left s), s)
  | .take n, s => (.items (draw .next n s).1, (draw .next n s).2)
  | .takeBack n, s => (.items (draw .nextBack n s).1, (draw .nextBack n s).2)
  | .collect, s => (.items (draw .next (left s + 1) s).1, (draw .next (left s + 1) s).2)
  | .collectBack, s =>
    (.items (draw .nextBack (left s + 1) s).1, (draw .nextBack (left s + 1) s).2)
  | .last, s => (.item (draw .next (left s + 1) s).1.getLast?, (draw .next (left s + 1) s).2)
  | .count, s => (.tally (draw .next (left s + 1) s).1.length, (draw .next (left s + 1) s).2)

end DoubleEnded

namespace Cursor

instance : DoubleEnded Cursor Nat where
  left := left
  apply := apply

/-! ## Draws from a cursor -/

theorem first_succ {c : Cursor} (h : c.front < c.back) (n : Nat) :
    c.first (n + 1) = (c.front + 1) :: ({ c with front := c.front + 1 } : Cursor).first n := by
  have hmin : min (n + 1) (c.back - c.front) = min n (c.back - (c.front + 1)) + 1 := by omega
  simp only [first, left, hmin, List.range'_succ]

theorem skip_succ {c : Cursor} (h : c.front < c.back) (n : Nat) :
    c.skip (n + 1) = ({ c with front := c.front + 1 } : Cursor).skip n := by
  simp only [skip, left, Cursor.mk.injEq, and_true]
  omega

theorem final_succ {c : Cursor} (h : c.front < c.back) (n : Nat) :
    c.final (n + 1) = c.back :: ({ c with back := c.back - 1 } : Cursor).final n := by
  have hmin : min (n + 1) (c.back - c.front) = min n (c.back - 1 - c.front) + 1 := by omega
  have hlow : c.back - (min n (c.back - 1 - c.front) + 1) + 1
      = c.back - 1 - min n (c.back - 1 - c.front) + 1 := by omega
  have hhigh : c.back - 1 - min n (c.back - 1 - c.front) + 1 + min n (c.back - 1 - c.front)
      = c.back := by omega
  simp only [final, left, hmin, hlow, List.range'_1_concat, hhigh, List.reverse_append,
    List.reverse_singleton, List.singleton_append]

theorem skipBack_succ {c : Cursor} (h : c.front < c.back) (n : Nat) :
    c.skipBack (n + 1) = ({ c with back := c.back - 1 } : Cursor).skipBack n := by
  simp only [skipBack, left, Cursor.mk.injEq, true_and]
  omega

theorem draw_next : ∀ {n : Nat} {c : Cursor}, c.front ≤ c.back →
    DoubleEnded.draw .next n c = (c.first n, c.skip n) := by
  intro n
  induction n with
  | zero =>
      intro c _
      simp [DoubleEnded.draw, first, skip]
  | succ n ih =>
      intro c h
      rcases Nat.eq_or_lt_of_le h with he | hlt
      · obtain ⟨front, back⟩ := c
        obtain rfl : front = back := he
        simp [DoubleEnded.draw, DoubleEnded.apply, apply, next, first, skip, left]
      · have hrest := @ih { c with front := c.front + 1 } hlt
        simp [DoubleEnded.draw, DoubleEnded.apply, apply, next, Nat.ne_of_lt hlt, hrest,
          first_succ hlt, skip_succ hlt]

theorem draw_nextBack : ∀ {n : Nat} {c : Cursor}, c.front ≤ c.back →
    DoubleEnded.draw .nextBack n c = (c.final n, c.skipBack n) := by
  intro n
  induction n with
  | zero =>
      intro c _
      simp [DoubleEnded.draw, final, skipBack]
  | succ n ih =>
      intro c h
      rcases Nat.eq_or_lt_of_le h with he | hlt
      · obtain ⟨front, back⟩ := c
        obtain rfl : front = back := he
        simp [DoubleEnded.draw, DoubleEnded.apply, apply, nextBack, final, skipBack, left]
      · have hrest := @ih { c with back := c.back - 1 } (Nat.le_sub_one_of_lt hlt)
        simp [DoubleEnded.draw, DoubleEnded.apply, apply, nextBack, Nat.ne_of_lt hlt, hrest,
          final_succ hlt, skipBack_succ hlt]

/-- One draw more than there are positions finds no position, and draws what
there is. -/
theorem draw_next_all {c : Cursor} (h : c.front ≤ c.back) :
    DoubleEnded.draw .next (c.left + 1) c = (c.positions, c.skip c.left) := by
  have hmin : min (c.left + 1) c.left = c.left := Nat.min_eq_right (Nat.le_succ _)
  rw [draw_next h, first_eq_take, List.take_of_length_le (by simp)]
  simp only [skip, hmin, Nat.min_self]

theorem apply_eq_loop {c : Cursor} (h : c.front ≤ c.back) (move : Move) :
    apply move c = DoubleEnded.loop move c := by
  have hall : c.first c.left = c.positions := by
    rw [first_eq_take, List.take_of_length_le (Nat.le_of_eq (length_positions c))]
  cases move with
  | next => rfl
  | nextBack => rfl
  | nth n => simp only [DoubleEnded.loop, draw_next h]; rfl
  | nthBack n => simp only [DoubleEnded.loop, draw_nextBack h]; rfl
  | sizeHint => rfl
  | take n => simp only [DoubleEnded.loop, draw_next h]; rfl
  | takeBack n => simp only [DoubleEnded.loop, draw_nextBack h]; rfl
  | collect =>
      simp only [DoubleEnded.loop, DoubleEnded.left, draw_next_all h, apply, hall]
  | collectBack =>
      have hmin : min (c.left + 1) c.left = c.left := Nat.min_eq_right (Nat.le_succ _)
      simp only [DoubleEnded.loop, DoubleEnded.left, draw_nextBack h, apply, final, skipBack,
        hmin, Nat.min_self]
  | last =>
      simp only [DoubleEnded.loop, DoubleEnded.left, draw_next_all h, apply,
        (positions_nextBack h).1]
  | count =>
      simp only [DoubleEnded.loop, DoubleEnded.left, draw_next_all h, apply, length_positions]

end Cursor

namespace Walk

variable {α : Type}

/-! ## The same for walks -/

/-- A walk draws the items at the positions its cursor draws. -/
theorem draw_eq (move : Move) : ∀ {n : Nat} {w : Walk α},
    DoubleEnded.draw move n w
      = ((DoubleEnded.draw move n w.cursor).1.map w.product.item,
          { w with cursor := (DoubleEnded.draw move n w.cursor).2 }) := by
  intro n
  induction n with
  | zero => intro w; rfl
  | succ n ih =>
      intro w
      have happly : DoubleEnded.apply move w
          = ((DoubleEnded.apply move w.cursor).1.map w.product.item,
              { w with cursor := (DoubleEnded.apply move w.cursor).2 }) := rfl
      rw [DoubleEnded.draw, DoubleEnded.draw, happly]
      cases (DoubleEnded.apply move w.cursor).1 with
      | item position? =>
          cases position? with
          | none => rfl
          | some position => simp only [Reply.map, Option.map_some, ih, List.map_cons]
      | items positions => rfl
      | bounds low high => rfl
      | tally n => rfl
      | silent => rfl

theorem loop_eq (move : Move) (w : Walk α) :
    DoubleEnded.loop move w
      = ((DoubleEnded.loop move w.cursor).1.map w.product.item,
          { w with cursor := (DoubleEnded.loop move w.cursor).2 }) := by
  have hleft : DoubleEnded.left w = DoubleEnded.left w.cursor := rfl
  cases move with
  | next => rfl
  | nextBack => rfl
  | nth n => rw [DoubleEnded.loop, draw_eq]; rfl
  | nthBack n => rw [DoubleEnded.loop, draw_eq]; rfl
  | sizeHint => rfl
  | take n => rw [DoubleEnded.loop, draw_eq]; rfl
  | takeBack n => rw [DoubleEnded.loop, draw_eq]; rfl
  | collect => rw [DoubleEnded.loop, draw_eq, hleft]; rfl
  | collectBack => rw [DoubleEnded.loop, draw_eq, hleft]; rfl
  | last => rw [DoubleEnded.loop, draw_eq, hleft, List.getLast?_map]; rfl
  | count => rw [DoubleEnded.loop, draw_eq, hleft, List.length_map]; rfl

/-- A walk whose ends are in order answers every move as the loop over single
draws does. -/
theorem apply_eq_loop {w : Walk α} (h : w.cursor.Inside w.product.size) (move : Move) :
    w.apply move = DoubleEnded.loop move w := by
  rw [loop_eq, ← Cursor.apply_eq_loop h.1]
  rfl

end Walk
end Choices
