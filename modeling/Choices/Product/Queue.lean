/-
# `Choices.Product.Queue` — what two ends mean on a plain list

A `Queue` is a list that is taken apart from both ends: the front hands out
its head, the back its last element, a skip drops elements at its end and
drops all when there are not enough.  It answers the same moves as a walk
and needs no numbers to do so, so it says what the moves mean.

`Cursor.apply_positions` is the link.  A cursor whose ends are in order
answers every move as the queue of its positions does, and the positions
after the move are what that queue has left.
-/
import Choices.Product.Script

namespace Choices

/-- A list that is taken apart from both ends. -/
structure Queue (β : Type) where
  items : List β
deriving DecidableEq

namespace Queue

variable {β : Type}

/-- What is left behind the first `n`. -/
def skip (q : Queue β) (n : Nat) : Queue β := ⟨q.items.drop n⟩

/-- What is left before the last `n`. -/
def skipBack (q : Queue β) (n : Nat) : Queue β := ⟨q.items.take (q.items.length - n)⟩

def next (q : Queue β) : Option β × Queue β := (q.items.head?, ⟨q.items.tail⟩)

def nextBack (q : Queue β) : Option β × Queue β := (q.items.getLast?, ⟨q.items.dropLast⟩)

/-- The answer to a move, and the queue after it. -/
def apply : Move → Queue β → Reply β × Queue β
  | .next, q => (.item q.next.1, q.next.2)
  | .nextBack, q => (.item q.nextBack.1, q.nextBack.2)
  | .nth n, q => (.item (q.skip n).next.1, (q.skip n).next.2)
  | .nthBack n, q => (.item (q.skipBack n).nextBack.1, (q.skipBack n).nextBack.2)
  | .sizeHint, q => (.bounds q.items.length q.items.length, q)
  | .take n, q => (.items (q.items.take n), q.skip n)
  | .takeBack n, q => (.items (q.items.reverse.take n), q.skipBack n)
  | .collect, q => (.items q.items, ⟨[]⟩)
  | .collectBack, q => (.items q.items.reverse, ⟨[]⟩)
  | .last, q => (.item q.items.getLast?, ⟨[]⟩)
  | .count, q => (.tally q.items.length, ⟨[]⟩)

instance : DoubleEnded (Queue β) β where
  left q := q.items.length
  apply := apply

end Queue

namespace Cursor

/-- The queue of the positions that are left. -/
def toQueue (c : Cursor) : Queue Nat := ⟨c.positions⟩

/-! ## A cursor answers as the queue of its positions does -/

theorem toQueue_skip (c : Cursor) (n : Nat) : (c.skip n).toQueue = c.toQueue.skip n := by
  simp only [toQueue, Queue.skip, positions_skip]

theorem toQueue_skipBack (c : Cursor) (n : Nat) :
    (c.skipBack n).toQueue = c.toQueue.skipBack n := by
  simp only [toQueue, Queue.skipBack, positions_skipBack, length_positions]

theorem toQueue_next {c : Cursor} (h : c.front ≤ c.back) :
    (c.next.1, c.next.2.toQueue) = c.toQueue.next := by
  obtain ⟨h₁, h₂⟩ := positions_next h
  simp only [toQueue, Queue.next, h₁, h₂]

theorem toQueue_nextBack {c : Cursor} (h : c.front ≤ c.back) :
    (c.nextBack.1, c.nextBack.2.toQueue) = c.toQueue.nextBack := by
  obtain ⟨h₁, h₂⟩ := positions_nextBack h
  simp only [toQueue, Queue.nextBack, h₁, h₂]

theorem toQueue_skip_left (c : Cursor) : (c.skip c.left).toQueue = ⟨[]⟩ := by
  simp [toQueue, positions_skip]

theorem toQueue_skipBack_left (c : Cursor) : (c.skipBack c.left).toQueue = ⟨[]⟩ := by
  simp [toQueue, positions_skipBack]

theorem apply_positions {size : Nat} {c : Cursor} (h : c.Inside size) (move : Move) :
    ((apply move c).1, (apply move c).2.toQueue) = c.toQueue.apply move := by
  have step (c : Cursor) (h : c.Inside size) :
      c.next.1 = c.toQueue.next.1 ∧ c.next.2.toQueue = c.toQueue.next.2 :=
    Prod.ext_iff.mp (toQueue_next h.1)
  have stepBack (c : Cursor) (h : c.Inside size) :
      c.nextBack.1 = c.toQueue.nextBack.1 ∧ c.nextBack.2.toQueue = c.toQueue.nextBack.2 :=
    Prod.ext_iff.mp (toQueue_nextBack h.1)
  cases move with
  | next => simp only [apply, Queue.apply, step c h]
  | nextBack => simp only [apply, Queue.apply, stepBack c h]
  | nth n => simp only [apply, Queue.apply, step _ (h.skip n), toQueue_skip]
  | nthBack n => simp only [apply, Queue.apply, stepBack _ (h.skipBack n), toQueue_skipBack]
  | sizeHint => simp only [apply, Queue.apply, toQueue, length_positions]
  | take n =>
    simp only [apply, Queue.apply, toQueue_skip, first_eq_take]
    rfl
  | takeBack n =>
    simp only [apply, Queue.apply, toQueue_skipBack, final_eq_take_reverse h.1]
    rfl
  | collect =>
    simp only [apply, Queue.apply, toQueue_skip_left, first_eq_take]
    rw [List.take_of_length_le (by simp)]
    rfl
  | collectBack =>
    simp only [apply, Queue.apply, toQueue_skipBack_left, final_eq_take_reverse h.1]
    rw [List.take_of_length_le (by simp)]
    rfl
  | last =>
    simp only [apply, Queue.apply, toQueue_skip_left, stepBack c h]
    rfl
  | count =>
    simp only [apply, Queue.apply, toQueue_skip_left]
    simp only [toQueue, length_positions]

end Cursor
end Choices
