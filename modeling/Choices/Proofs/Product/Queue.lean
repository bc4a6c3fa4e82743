/-
# `Choices.Proofs.Product.Queue` — a lazy walk is a queue of its items

A walk holds two numbers and no items.  A `Queue` holds the items and no
numbers.  The list of what a walk has left commutes with every move
(`Walk.abstracts`), so a script of any length, over any number of forks,
gives the records it would give on queues that start with the whole product.

What the two ends hand out is then a matter of lists.  `DoubleEnded.handOut`
collects it.  A move at the front hands out the head of what is left, a move
at the back its end, so what was handed out in front, what is left and what
was handed out behind lie in the product in this order, no item twice, and
they are all of it when no move skips.
-/
import Choices.Product.Queue
import Choices.Proofs.Product.Loops
import Choices.Proofs.Product.Script

namespace Choices

/-! ## What moves hand out -/

/-- The moves that work at the back. -/
def Move.atBack : Move → Bool
  | .nextBack | .nthBack _ | .takeBack _ | .collectBack => true
  | _ => false

/-- The moves that pass over items without handing them out. -/
def Move.skips : Move → Bool
  | .nth _ | .nthBack _ | .last | .count => true
  | _ => false

/-- The items in a reply, in the order they were taken. -/
def Reply.handed {β : Type} : Reply β → List β
  | .item item? => item?.toList
  | .items taken => taken
  | .bounds _ _ | .tally _ | .silent => []

/-- What a move handed out, put back to the end it was taken from. -/
def Move.putBack {β : Type} (move : Move) (handed items : List β) : List β :=
  if move.atBack then items ++ handed.reverse else handed ++ items

theorem Move.putBack_sublist {β : Type} (move : Move) (handed : List β) {items items' : List β}
    (h : items.Sublist items') :
    (move.putBack handed items).Sublist (move.putBack handed items') := by
  cases hback : move.atBack with
  | true => simpa [putBack, hback] using h.append_right handed.reverse
  | false => simpa [putBack, hback] using h.append_left handed

/-- What moves hand out at the front, the state they leave, and what they hand
out at the back.  Both lists are in the order of the items, so at the back the
item handed out last comes first. -/
def DoubleEnded.handOut {σ β : Type} [DoubleEnded σ β] : List Move → σ → List β × σ × List β
  | [], s => ([], s, [])
  | move :: moves, s =>
    let handed := (apply move s).1.handed
    let (front, s, back) := handOut moves (apply move s).2
    if move.atBack then (front, s, back ++ handed.reverse) else (handed ++ front, s, back)

/-! ## Queues -/

namespace Queue

variable {β γ : Type}

theorem apply_map (f : β → γ) (move : Move) (items : List β) :
    apply move ⟨items.map f⟩
      = ((apply move ⟨items⟩).1.map f, ⟨(apply move ⟨items⟩).2.items.map f⟩) := by
  cases move with
  | next => simp [apply, next, Reply.map]
  | nextBack => simp [apply, nextBack, Reply.map]
  | nth n => simp [apply, next, skip, Reply.map]
  | nthBack n => simp [apply, nextBack, skipBack, Reply.map, ← List.map_take]
  | sizeHint => simp [apply, Reply.map]
  | take n => simp [apply, skip, Reply.map]
  | takeBack n => simp [apply, skipBack, Reply.map]
  | collect => simp [apply, Reply.map]
  | collectBack => simp [apply, Reply.map]
  | last => simp [apply, Reply.map]
  | count => simp [apply, Reply.map]

theorem head?_append_tail (items : List β) : items.head?.toList ++ items.tail = items := by
  cases items <;> rfl

theorem dropLast_append_getLast? (items : List β) :
    items.dropLast ++ items.getLast?.toList.reverse = items := by
  rcases List.eq_nil_or_concat items with rfl | ⟨init, last, rfl⟩
  · rfl
  · simp

/-- A move that does not skip hands out all it takes. -/
theorem putBack_apply {move : Move} (h : move.skips = false) (items : List β) :
    move.putBack (apply move ⟨items⟩).1.handed (apply move ⟨items⟩).2.items = items := by
  cases move with
  | next => exact head?_append_tail items
  | nextBack => exact dropLast_append_getLast? items
  | sizeHint => rfl
  | take n => exact List.take_append_drop n items
  | takeBack n =>
      show items.take (items.length - n) ++ (items.reverse.take n).reverse = items
      rw [List.take_reverse, List.reverse_reverse, List.take_append_drop]
  | collect => exact List.append_nil items
  | collectBack => exact List.reverse_reverse items
  | nth n => cases h
  | nthBack n => cases h
  | last => cases h
  | count => cases h

/-- A move that skips still hands out only what it takes, in order. -/
theorem putBack_apply_sublist (move : Move) (items : List β) :
    (move.putBack (apply move ⟨items⟩).1.handed (apply move ⟨items⟩).2.items).Sublist items := by
  cases hskips : move.skips with
  | false => simp only [putBack_apply hskips, List.Sublist.refl]
  | true =>
      cases move with
      | nth n =>
          show ((items.drop n).head?.toList ++ (items.drop n).tail).Sublist items
          rw [head?_append_tail]
          exact List.drop_sublist n items
      | nthBack n =>
          show ((items.take (items.length - n)).dropLast
            ++ (items.take (items.length - n)).getLast?.toList.reverse).Sublist items
          rw [dropLast_append_getLast?]
          exact List.take_sublist _ items
      | last =>
          show (items.getLast?.toList ++ []).Sublist items
          rcases List.eq_nil_or_concat items with rfl | ⟨init, last, rfl⟩
          · exact List.nil_sublist []
          · simp
      | count => exact List.nil_sublist items
      | next => cases hskips
      | nextBack => cases hskips
      | sizeHint => cases hskips
      | take n => cases hskips
      | takeBack n => cases hskips
      | collect => cases hskips
      | collectBack => cases hskips

end Queue

/-! ## Walks -/

namespace Walk

variable {α : Type}

/-- The queue of the items that are left. -/
def toQueue (w : Walk α) : Queue (List α) := ⟨w.toList⟩

/-- The ends of the walk are in order, and inside its product. -/
def Inside (w : Walk α) : Prop := w.cursor.Inside w.product.size

theorem inside_start (P : Product α) : (start P).Inside := Cursor.inside_start P.size

theorem abstracts : Abstracts (fun w : Walk α => w.Inside) toQueue where
  left := by
    intro w _
    exact w.length_toList
  apply := by
    intro w h move
    have hpositions := Cursor.apply_positions h move
    have hreply := congrArg Prod.fst hpositions
    have hleft := congrArg (fun next => next.2.items) hpositions
    show Queue.apply move ⟨w.cursor.positions.map w.product.item⟩ = _
    rw [Queue.apply_map]
    exact Prod.ext (congrArg (Reply.map w.product.item) hreply.symm)
      (congrArg (fun positions => Queue.mk (positions.map w.product.item)) hleft.symm)
  good := by
    intro w h move
    exact Cursor.Inside.apply h move

theorem putBack_apply {w : Walk α} (h : w.Inside) (move : Move) :
    (move.putBack (w.apply move).1.handed (w.apply move).2.toList).Sublist w.toList ∧
      (move.skips = false →
        move.putBack (w.apply move).1.handed (w.apply move).2.toList = w.toList) := by
  have happly : Queue.apply move ⟨w.toList⟩ = ((w.apply move).1, (w.apply move).2.toQueue) :=
    abstracts.apply h move
  have hsublist := Queue.putBack_apply_sublist move w.toList
  have hequal := fun hskips : move.skips = false => Queue.putBack_apply hskips w.toList
  rw [happly] at hsublist hequal
  exact ⟨hsublist, hequal⟩

/-- Induction on the moves.  What the later moves hand out lies inside what the
first one leaves. -/
theorem exists_handOut : ∀ (moves : List Move) {w : Walk α}, w.Inside →
    ∃ front w' back, DoubleEnded.handOut moves w = (front, w', back) ∧ w'.Inside ∧
      (front ++ w'.toList ++ back).Sublist w.toList ∧
      ((∀ move ∈ moves, move.skips = false) → front ++ w'.toList ++ back = w.toList) := by
  intro moves
  induction moves with
  | nil =>
      intro w h
      refine ⟨[], w, [], rfl, h, ?_, fun _ => ?_⟩ <;> simp
  | cons move moves ih =>
      intro w h
      obtain ⟨front, w', back, hrest, hinside, hsublist, hequal⟩ := ih (abstracts.good h move)
      obtain ⟨hstep, hstepEqual⟩ := putBack_apply h move
      have hjoin : ∃ front' back',
          DoubleEnded.handOut (move :: moves) w = (front', w', back') ∧
          front' ++ w'.toList ++ back'
            = move.putBack (w.apply move).1.handed (front ++ w'.toList ++ back) := by
        rw [DoubleEnded.handOut, hrest]
        cases hback : move.atBack with
        | true => exact ⟨front, back ++ (w.apply move).1.handed.reverse, rfl, by
            simp [Move.putBack, hback]⟩
        | false => exact ⟨(w.apply move).1.handed ++ front, back, rfl, by
            simp [Move.putBack, hback]⟩
      obtain ⟨front', back', hhandOut, hjoin⟩ := hjoin
      refine ⟨front', w', back', hhandOut, hinside, ?_, ?_⟩
      · rw [hjoin]
        exact (Move.putBack_sublist move _ hsublist).trans hstep
      · intro hskips
        rw [hjoin, hequal fun m hm => hskips m (List.mem_cons_of_mem move hm)]
        exact hstepEqual (hskips move List.mem_cons_self)

end Walk

/-- A script on the walks over a product gives the records of the same script
on queues, and rows without a product refuse every script.  For the walk over
a product this says more.  Scripts that address walks that exist run to their
end.  Whatever moves come first, what they hand out at the front, what is left
and what they hand out at the back lie in the product in this order, and are
all of it when no move skips, and every move from there is a loop over `next`
and `nextBack`.  At any point of a script, the records of one walk from then
on are those it gives when no step is addressed to another. -/
theorem walkProduct_eq_queue {α : Type} (rows : Rows α) :
    (∀ steps, walkProduct rows steps
      = (product rows).map fun items => Script.run? [Queue.mk items] steps) ∧
    (∀ fault, Product.ofRows rows = .error fault →
      ∀ steps, walkProduct rows steps = .error fault) ∧
    (∀ P, Product.ofRows rows = .ok P →
      product rows = .ok (Walk.start P).toList ∧
      (∀ steps, Script.Addressed 1 steps →
        ∃ records, walkProduct rows steps = .ok (some records) ∧
          records.length = steps.length) ∧
      ∀ moves, ∃ front walk back,
        DoubleEnded.handOut moves (Walk.start P) = (front, walk, back) ∧
        (front ++ walk.toList ++ back).Sublist (Walk.start P).toList ∧
        ((∀ move ∈ moves, move.skips = false) →
          front ++ walk.toList ++ back = (Walk.start P).toList) ∧
        ∀ move, walk.apply move = DoubleEnded.loop move walk) ∧
    (∀ (walks : List (Walk α)) steps records, Script.run? walks steps = some records →
      ∀ j walk, walks[j]? = some walk →
        Script.run? [walk] (Script.own j steps) = some (Script.ownRecords j steps records)) := by
  have hrun : ∀ P : Product α, ∀ steps,
      Script.run? [Walk.start P] steps = Script.run? [Queue.mk (Walk.start P).toList] steps := by
    intro P steps
    have hgood : ∀ walk ∈ [Walk.start P], walk.Inside := by
      intro walk hwalk
      exact List.mem_singleton.mp hwalk ▸ Walk.inside_start P
    exact (Walk.abstracts.run?_map hgood).symm
  refine ⟨fun steps => ?_, fun fault hfault steps => ?_, fun P hP => ⟨?_, ?_, ?_⟩, ?_⟩
  · rw [walkProduct, product]
    cases Product.ofRows rows with
    | error fault => rfl
    | ok P => exact congrArg Except.ok (hrun P steps)
  · rw [walkProduct, hfault]
    rfl
  · rw [product, hP]
    rfl
  · intro steps haddressed
    have hsome : (Script.run? [Walk.start P] steps).isSome := Script.isSome_run?_iff.mpr haddressed
    obtain ⟨records, hrecords⟩ := Option.isSome_iff_exists.mp hsome
    refine ⟨records, ?_, Script.length_of_run? hrecords⟩
    rw [walkProduct, hP]
    exact congrArg Except.ok hrecords
  · intro moves
    obtain ⟨front, walk, back, hhandOut, hinside, hsublist, hequal⟩ :=
      Walk.exists_handOut moves (Walk.inside_start P)
    exact ⟨front, walk, back, hhandOut, hsublist, hequal, Walk.apply_eq_loop hinside⟩
  · intro walks steps records hrecords j walk hj
    exact Script.run?_own [] hrecords hj

/-- Rows with a hole refuse even the script without steps.  Over two letters
and three, two ends meet while a fork in between goes its own way: the first
walk is used up, and the fork still has what it had. -/
theorem walkProduct_eq_queue_letters :
    Product.ofRows [#["a0", "a1"], #[]] = .error (.emptyRow 1) ∧
    walkProduct [#["a0", "a1"], #[]] [] = .error (.emptyRow 1) ∧
    Script.Addressed 1 [⟨0, .move .next⟩, ⟨0, .move .nextBack⟩, ⟨0, .fork⟩, ⟨1, .move (.nth 1)⟩,
      ⟨0, .move (.takeBack 9)⟩, ⟨0, .move .next⟩, ⟨1, .move .last⟩] ∧
    walkProduct [#["a0", "a1"], #["b0", "b1", "b2"]]
      [⟨0, .move .next⟩, ⟨0, .move .nextBack⟩, ⟨0, .fork⟩, ⟨1, .move (.nth 1)⟩,
        ⟨0, .move (.takeBack 9)⟩, ⟨0, .move .next⟩, ⟨1, .move .last⟩]
      = .ok (some [⟨.item (some ["a1", "b0"]), 5⟩, ⟨.item (some ["a0", "b0"]), 4⟩, ⟨.silent, 4⟩,
          ⟨.item (some ["a1", "b1"]), 2⟩,
          ⟨.items [["a1", "b2"], ["a0", "b2"], ["a1", "b1"], ["a0", "b1"]], 0⟩,
          ⟨.item none, 0⟩, ⟨.item (some ["a1", "b2"]), 0⟩]) ∧
    ∃ P : Product String, Product.ofRows [#["a0", "a1"], #["b0", "b1", "b2"]] = .ok P ∧
      ∃ front walk back,
        DoubleEnded.handOut [.next, .takeBack 3, .next] (Walk.start P) = (front, walk, back) ∧
        front ++ walk.toList ++ back = (Walk.start P).toList ∧
        walk.apply (.nth 7) = DoubleEnded.loop (.nth 7) walk := by
  have hhole : Product.ofRows [#["a0", "a1"], #[]] = .error (.emptyRow 1) :=
    Product.ofRows_eq_error_iff.mpr rfl
  have hproduct : product [#["a0", "a1"], #["b0", "b1", "b2"]] = .ok
      [["a1", "b0"], ["a0", "b1"], ["a1", "b1"], ["a0", "b2"], ["a1", "b2"], ["a0", "b0"]] := rfl
  obtain ⟨hrun, -, hmoves, -⟩ := walkProduct_eq_queue [#["a0", "a1"], #["b0", "b1", "b2"]]
  obtain ⟨P, hP⟩ : ∃ P : Product String,
      Product.ofRows [#["a0", "a1"], #["b0", "b1", "b2"]] = .ok P := ⟨⟨_, 6, rfl⟩, rfl⟩
  obtain ⟨-, -, hends⟩ := hmoves P hP
  obtain ⟨front, walk, back, hhandOut, -, hall, hloop⟩ := hends [.next, .takeBack 3, .next]
  refine ⟨hhole, (walkProduct_eq_queue _).2.1 _ hhole [], by simp [Script.Addressed], ?_,
    P, hP, front, walk, back, hhandOut, hall (by decide), hloop (.nth 7)⟩
  rw [hrun, hproduct]
  rfl

end Choices
