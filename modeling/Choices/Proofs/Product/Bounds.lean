/-
# `Choices.Proofs.Product.Bounds` — no walk leaves its bounds

A cursor tells that it has come to its end by an equality, `front = back`.
Should one end ever pass the other, the walk would go on for the rest of all
positions.  So everything rests on one invariant, `Walk.Inside`: the ends are
in order, and inside the product.

What it keeps from happening is written down here as a second way to work a
walk.  `Walk.answer?` does every move as a loop over the two draws, and a draw
does its arithmetic in numbers of 64 bits.  A sum past the capacity, a
difference below 0, a division by 0, a place outside its row and a position
outside the product each end it with `none`.

The main statement is that `none` never comes.  In every state that a script
comes to, each move done this way has an answer, and it is the one that
`Walk.apply` gives, which moves an end in one step (`walks_stay_inside`).
-/
import Choices.Proofs.Product.Queue
import Choices.Proofs.Product.Sections

namespace Choices

/-! ## Arithmetic that may fail -/

namespace Checked

/-- The sum, if it is within the capacity. -/
def add? (a b : Nat) : Option Nat := if a + b ≤ capacity then some (a + b) else none

/-- The difference, if it is not below 0. -/
def sub? (a b : Nat) : Option Nat := if b ≤ a then some (a - b) else none

/-- The quotient and the remainder of a division by a number above 0. -/
def divMod? (a b : Nat) : Option (Nat × Nat) := if 0 < b then some (a / b, a % b) else none

end Checked

variable {α : Type}

/-- The item at a position: one division for each row, whose remainder is the
place to pick from. -/
def Rows.read? : Rows α → (position : Nat) → Option (List α)
  | [], _ => some []
  | row :: rows, position => do
    let (quotient, place) ← Checked.divMod? position row.size
    let element ← row[place]?
    let rest ← read? rows quotient
    return element :: rest

/-- The item at a position of the product. -/
def Product.read? (P : Product α) (position : Nat) : Option (List α) :=
  if 1 ≤ position ∧ position ≤ P.size then P.rows.read? position else none

namespace Walk

/-- How many items are left. -/
def left? (w : Walk α) : Option Nat := Checked.sub? w.cursor.back w.cursor.front

/-- A draw from the front. -/
def next? (w : Walk α) : Option (Option (List α) × Walk α) :=
  if w.cursor.front = w.cursor.back then some (none, w)
  else do
    let front ← Checked.add? w.cursor.front 1
    let item ← w.product.read? front
    return (some item, { w with cursor := { w.cursor with front := front } })

/-- A draw from the back. -/
def nextBack? (w : Walk α) : Option (Option (List α) × Walk α) :=
  if w.cursor.front = w.cursor.back then some (none, w)
  else do
    let item ← w.product.read? w.cursor.back
    let back ← Checked.sub? w.cursor.back 1
    return (some item, { w with cursor := { w.cursor with back := back } })

/-- Up to `n` draws, fewer when there is no item. -/
def drawAll? (draw? : Walk α → Option (Option (List α) × Walk α)) :
    Nat → Walk α → Option (List (List α) × Walk α)
  | 0, w => some ([], w)
  | n + 1, w =>
    (draw? w).bind fun
      | (none, w) => some ([], w)
      | (some item, w) => (drawAll? draw? n w).map fun (items, w) => (item :: items, w)

/-- Draws until there is no item, which takes one more than there are items. -/
def exhaust? (draw? : Walk α → Option (Option (List α) × Walk α)) (w : Walk α) :
    Option (List (List α) × Walk α) :=
  w.left?.bind fun left => drawAll? draw? (left + 1) w

/-- The answer to a move, and the walk after it, by draws alone. -/
def answer? : Move → Walk α → Option (Reply (List α) × Walk α)
  | .next, w => w.next?.map fun (item?, w) => (.item item?, w)
  | .nextBack, w => w.nextBack?.map fun (item?, w) => (.item item?, w)
  | .nth n, w =>
    (drawAll? next? n w).bind fun drawn => drawn.2.next?.map fun (item?, w) => (.item item?, w)
  | .nthBack n, w =>
    (drawAll? nextBack? n w).bind fun drawn =>
      drawn.2.nextBack?.map fun (item?, w) => (.item item?, w)
  | .sizeHint, w => w.left?.map fun left => (.bounds left left, w)
  | .take n, w => (drawAll? next? n w).map fun (items, w) => (.items items, w)
  | .takeBack n, w => (drawAll? nextBack? n w).map fun (items, w) => (.items items, w)
  | .collect, w => (exhaust? next? w).map fun (items, w) => (.items items, w)
  | .collectBack, w => (exhaust? nextBack? w).map fun (items, w) => (.items items, w)
  | .last, w => (exhaust? next? w).map fun (items, w) => (.item items.getLast?, w)
  | .count, w => (exhaust? next? w).map fun (items, w) => (.tally items.length, w)

end Walk

/-! ## It does not fail inside the product -/

/-- Rows that are not empty are divided by their lengths, and a remainder is a
place in its row. -/
theorem Rows.read?_eq_pick? : ∀ {rows : Rows α} {position : Nat}, (∀ row ∈ rows, 0 < row.size) →
    rows.read? position = rows.pick? (Radix.digits rows.lengths position) := by
  intro rows
  induction rows with
  | nil => intro position _; rfl
  | cons row rows ih =>
      intro position hpos
      have hrow : 0 < row.size := hpos row List.mem_cons_self
      have hrest := @ih (position / row.size) fun r hr => hpos r (List.mem_cons_of_mem row hr)
      rw [Rows.read?, Checked.divMod?, if_pos hrow]
      show (row[position % row.size]? >>= fun element =>
          Rows.read? rows (position / row.size) >>= fun rest => some (element :: rest)) = _
      rw [hrest]
      rfl

theorem Product.read?_eq_item (P : Product α) {position : Nat} (hlow : 1 ≤ position)
    (hhigh : position ≤ P.size) : P.read? position = some (P.item position) := by
  rw [read?, if_pos ⟨hlow, hhigh⟩, Rows.read?_eq_pick? (sizeOfRows_eq_ok P.size_eq)]
  exact P.pick?_places position

namespace Walk

theorem left?_eq {w : Walk α} (h : w.Inside) : w.left? = some w.left := if_pos h.1

/-- `draw?` hands out what `move` does, and does not fail, for walks inside
their products. -/
def Draws (draw? : Walk α → Option (Option (List α) × Walk α)) (move : Move) : Prop :=
  ∀ {w : Walk α}, w.Inside →
    ∃ item? w', DoubleEnded.apply move w = (.item item?, w') ∧ draw? w = some (item?, w')

theorem draws_next : Draws (α := α) next? .next := by
  intro w h
  refine ⟨w.cursor.next.1.map w.product.item, { w with cursor := w.cursor.next.2 }, rfl, ?_⟩
  unfold next? Cursor.next
  by_cases hend : w.cursor.front = w.cursor.back
  · rw [if_pos hend, if_pos hend]
    rfl
  · have hlt : w.cursor.front + 1 ≤ w.cursor.back := Nat.lt_of_le_of_ne h.1 hend
    have hsize : w.cursor.front + 1 ≤ w.product.size := Nat.le_trans hlt h.2
    have hsum : Checked.add? w.cursor.front 1 = some (w.cursor.front + 1) :=
      if_pos (Nat.le_trans hsize w.product.size_le_capacity)
    rw [if_neg hend, if_neg hend, hsum]
    show (w.product.read? (w.cursor.front + 1) >>= _) = _
    rw [w.product.read?_eq_item (Nat.le_add_left 1 _) hsize]
    rfl

theorem draws_nextBack : Draws (α := α) nextBack? .nextBack := by
  intro w h
  refine ⟨w.cursor.nextBack.1.map w.product.item, { w with cursor := w.cursor.nextBack.2 }, rfl, ?_⟩
  unfold nextBack? Cursor.nextBack
  by_cases hend : w.cursor.front = w.cursor.back
  · rw [if_pos hend, if_pos hend]
    rfl
  · have hlt : w.cursor.front < w.cursor.back := Nat.lt_of_le_of_ne h.1 hend
    have hlow : 1 ≤ w.cursor.back := Nat.lt_of_le_of_lt (Nat.zero_le _) hlt
    have hless : Checked.sub? w.cursor.back 1 = some (w.cursor.back - 1) := if_pos hlow
    rw [if_neg hend, if_neg hend, w.product.read?_eq_item hlow h.2, hless]
    rfl

/-- Induction on the number of draws.  The walk stays inside after each. -/
theorem drawAll?_eq {draw? : Walk α → Option (Option (List α) × Walk α)} {move : Move}
    (hdraw : Draws draw? move) : ∀ {n : Nat} {w : Walk α}, w.Inside →
    drawAll? draw? n w = some (DoubleEnded.draw move n w) ∧
      (DoubleEnded.draw move n w).2.Inside := by
  intro n
  induction n with
  | zero => intro w h; exact ⟨rfl, h⟩
  | succ n ih =>
      intro w h
      obtain ⟨item?, w', happly, hstep⟩ := hdraw h
      have hinside : w'.Inside := by
        have hgood := abstracts.good h move
        rw [happly] at hgood
        exact hgood
      rw [drawAll?, hstep, Option.bind_some, DoubleEnded.draw, happly]
      cases item? with
      | none => exact ⟨rfl, hinside⟩
      | some item =>
          obtain ⟨hrest, hleft⟩ := ih hinside
          exact ⟨congrArg (Option.map _) hrest, hleft⟩

theorem exhaust?_eq {draw? : Walk α → Option (Option (List α) × Walk α)} {move : Move}
    (hdraw : Draws draw? move) {w : Walk α} (h : w.Inside) :
    exhaust? draw? w = some (DoubleEnded.draw move (DoubleEnded.left w + 1) w) := by
  rw [exhaust?, left?_eq h, Option.bind_some]
  exact (drawAll?_eq hdraw h).1

/-- A draw behind a loop of draws. -/
theorem drawAll?_bind_eq {draw? : Walk α → Option (Option (List α) × Walk α)} {move : Move}
    (hdraw : Draws draw? move) (n : Nat) {w : Walk α} (h : w.Inside) :
    ((drawAll? draw? n w).bind fun drawn =>
        (draw? drawn.2).map fun (item?, w) => (Reply.item item?, w))
      = some (DoubleEnded.apply move (DoubleEnded.draw move n w).2) := by
  obtain ⟨hdraws, hinside⟩ := @drawAll?_eq _ _ _ hdraw n w h
  obtain ⟨item?, w', happly, hlast⟩ := hdraw hinside
  rw [hdraws, Option.bind_some, hlast, Option.map_some, happly]

/-- Every move, by draws alone, is the move in one step. -/
theorem answer?_eq {w : Walk α} (h : w.Inside) (move : Move) :
    w.answer? move = some (w.apply move) := by
  have hfront : ∀ n, drawAll? next? n w = some (DoubleEnded.draw .next n w) :=
    fun _ => (drawAll?_eq draws_next h).1
  have hback : ∀ n, drawAll? nextBack? n w = some (DoubleEnded.draw .nextBack n w) :=
    fun _ => (drawAll?_eq draws_nextBack h).1
  rw [apply_eq_loop h]
  cases move with
  | next => exact drawAll?_bind_eq draws_next 0 h
  | nextBack => exact drawAll?_bind_eq draws_nextBack 0 h
  | nth n => exact drawAll?_bind_eq draws_next n h
  | nthBack n => exact drawAll?_bind_eq draws_nextBack n h
  | sizeHint => rw [answer?, left?_eq h]; rfl
  | take n => rw [answer?, hfront]; rfl
  | takeBack n => rw [answer?, hback]; rfl
  | collect => rw [answer?, exhaust?_eq draws_next h]; rfl
  | collectBack => rw [answer?, exhaust?_eq draws_nextBack h]; rfl
  | last => rw [answer?, exhaust?_eq draws_next h]; rfl
  | count => rw [answer?, exhaust?_eq draws_next h]; rfl

end Walk

/-- Rows with a size have walks over their product.  In every state that a
script comes to, forks and moves of all kinds, the ends of each walk are in
order and inside the product, there is room for a draw at both of them where
there is anything to draw, and every move can be done by draws in numbers of 64
bits, with each position one of the product, each division by a length above 0
and each place inside its row.  Its answer is then the one of the move. -/
theorem walks_stay_inside {rows : Rows α} {total : Nat} (hsize : rows.size = .ok total) :
    ∃ P : Product α, Product.ofRows rows = .ok P ∧ P.rows = rows ∧ P.size = total ∧
      total ≤ capacity ∧
      ∀ walks, Script.Reached [Walk.start P] walks → ∀ walk ∈ walks,
        walk.product = P ∧
        walk.cursor.front ≤ walk.cursor.back ∧ walk.cursor.back ≤ total ∧
        (walk.cursor.front ≠ walk.cursor.back →
          walk.cursor.front + 1 ≤ total ∧ 1 ≤ walk.cursor.back) ∧
        ∀ move, walk.answer? move = some (walk.apply move) := by
  obtain ⟨P, rfl, rfl⟩ := Product.exists_of_size hsize
  refine ⟨P, Product.ofRows_eq_ok_iff.mpr rfl, rfl, rfl, P.size_le_capacity,
    fun walks hreached walk hwalk => ?_⟩
  have hkeep : ∀ {w : Walk α}, w.product = P ∧ w.Inside →
      ∀ move, (w.apply move).2.product = P ∧ (w.apply move).2.Inside :=
    fun h move => ⟨h.1, Walk.abstracts.good h.2 move⟩
  have hstart : ∀ w ∈ [Walk.start P], w.product = P ∧ w.Inside := by
    intro w hw
    obtain rfl := List.mem_singleton.mp hw
    exact ⟨rfl, Walk.inside_start P⟩
  obtain ⟨rfl, hinside⟩ := hreached.forall_mem hkeep hstart walk hwalk
  refine ⟨rfl, hinside.1, hinside.2, fun hne => ?_, Walk.answer?_eq hinside⟩
  have hlt : walk.cursor.front < walk.cursor.back := Nat.lt_of_le_of_ne hinside.1 hne
  exact ⟨Nat.le_trans hlt hinside.2, Nat.lt_of_le_of_lt (Nat.zero_le _) hlt⟩

/-- Seven rows, as long as the primes whose product is the capacity, so there are
as many items as there can be.  A fork that skips as far as it can has come to
its end, and the first walk still reaches its own first item from the back. -/
theorem walks_stay_inside_largest :
    ∃ (P : Product Char) (copy : Walk Char),
      Rows.size ([3, 5, 17, 257, 641, 65537, 6700417].map (Array.replicate · 'a'))
        = .ok capacity ∧
      Product.ofRows ([3, 5, 17, 257, 641, 65537, 6700417].map (Array.replicate · 'a')) = .ok P ∧
      P.size = capacity ∧ Script.Reached [Walk.start P] [Walk.start P, copy] ∧
      copy.cursor = ⟨capacity, capacity⟩ ∧
      copy.answer? .nextBack = some (copy.apply .nextBack) ∧
      (Walk.start P).answer? (.nthBack (capacity - 1))
        = some ((Walk.start P).apply (.nthBack (capacity - 1))) := by
  have hlengths : Rows.lengths ([3, 5, 17, 257, 641, 65537, 6700417].map (Array.replicate · 'a'))
      = [3, 5, 17, 257, 641, 65537, 6700417] := by
    simp [Rows.lengths]
  have hpos : ∀ row ∈ [3, 5, 17, 257, 641, 65537, 6700417].map (Array.replicate · 'a'),
      0 < row.size := by
    simp
  have hsize : Rows.size ([3, 5, 17, 257, 641, 65537, 6700417].map (Array.replicate · 'a'))
      = .ok capacity := by
    refine Rows.size_eq_ok_iff.mpr ⟨List.cons_ne_nil _ _, hpos, ?_⟩
    rw [hlengths]
    decide
  obtain ⟨P, hP, -, htotal, -, hwalks⟩ := walks_stay_inside hsize
  have hcursor : ((Walk.start P).apply (.nth capacity)).2.cursor = ⟨capacity, capacity⟩ := by
    show ((Cursor.start P.size).skip capacity).next.2 = _
    rw [htotal]
    decide
  have hreached : Script.Reached [Walk.start P]
      [Walk.start P, ((Walk.start P).apply (.nth capacity)).2] :=
    (Script.Reached.start.step (Script.step?_fork (j := 0) rfl)).step
      (Script.step?_move (j := 1) rfl (.nth capacity))
  obtain ⟨-, -, -, -, hfirst⟩ := hwalks _ hreached _ List.mem_cons_self
  obtain ⟨-, -, -, -, hcopy⟩ := hwalks _ hreached _ (List.mem_cons_of_mem _ List.mem_cons_self)
  exact ⟨P, _, hsize, hP, htotal, hreached, hcursor, hcopy .nextBack, hfirst (.nthBack _)⟩

end Choices
