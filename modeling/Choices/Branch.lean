/-
# `Choices.Branch` — a result filled by independent parts

A result may be cut into consecutive spans and each span given to a worker
of its own.  A `Branch` is a span together with what fills it; running the
branches one after another, in whatever order, gives the result.  The order
in which they run is the order of the list handed to `runAll?`: a statement
about every schedule is a statement about every permutation of that list.

Two ways to cut are here.  `chunks?` cuts into spans of one width, the last
of them possibly shorter; `cuts?` cuts off spans of given lengths from the
left.  Both give spans that follow each other without a gap (`Covers`).
-/
import Choices.Region

namespace Choices

/-- The indices from `start` up to, and without, `stop`. -/
structure Span where
  start : Nat
  stop : Nat
deriving DecidableEq

namespace Span

/-! ## Cutting -/

/-- The spans of width `width` that make up `size` slots, or `none` for a
width of 0. -/
def chunks? (size width : Nat) : Option (List Span) :=
  if width = 0 then none
  else some ((List.range ((size + width - 1) / width)).map fun i =>
    ⟨i * width, min ((i + 1) * width) size⟩)

/-- The spans of the given lengths, cut off one after another from the left
of `start … stop`, or `none` when one of them does not fit any more. -/
def cuts? : (lengths : List Nat) → (start stop : Nat) → Option (List Span)
  | [], _, _ => some []
  | length :: lengths, start, stop =>
    if start + length ≤ stop then
      (cuts? lengths (start + length) stop).map (⟨start, start + length⟩ :: ·)
    else none

/-- `Covers spans start stop`: the spans follow each other from `start` to
`stop`. -/
inductive Covers : List Span → (start stop : Nat) → Prop
  | nil {stop : Nat} : Covers [] stop stop
  | cons {spans : List Span} {start middle stop : Nat} :
      start ≤ middle → Covers spans middle stop →
      Covers (⟨start, middle⟩ :: spans) start stop

theorem Covers.concat {spans : List Span} {start middle stop : Nat}
    (h : Covers spans start middle) (hle : middle ≤ stop) :
    Covers (spans ++ [⟨middle, stop⟩]) start stop := by
  induction h with
  | nil => exact .cons hle .nil
  | cons hs _ ih => exact .cons hs (ih hle)

/-- The first `count` chunks reach to their total width, or to the size. -/
theorem covers_chunks (size width count : Nat) (h : (count - 1) * width ≤ size) :
    Covers ((List.range count).map fun i => ⟨i * width, min ((i + 1) * width) size⟩)
      0 (min (count * width) size) := by
  induction count with
  | zero =>
    rw [Nat.zero_mul, Nat.zero_min]
    exact .nil
  | succ count ih =>
    have hle : count * width ≤ size := by simpa using h
    have hmono : (count - 1) * width ≤ count * width :=
      Nat.mul_le_mul_right width (Nat.sub_le count 1)
    have hgrow : count * width ≤ (count + 1) * width :=
      Nat.mul_le_mul_right width (Nat.le_succ count)
    have h₀ := ih (Nat.le_trans hmono hle)
    rw [Nat.min_eq_left hle] at h₀
    rw [List.range_succ, List.map_append]
    exact h₀.concat (Nat.le_min.mpr ⟨hgrow, hle⟩)

theorem covers_of_chunks? {size width : Nat} {spans : List Span}
    (h : chunks? size width = some spans) : Covers spans 0 size := by
  rw [chunks?, Option.ite_none_left_eq_some] at h
  obtain ⟨hw, h⟩ := h
  cases h
  have hpos : 0 < width := Nat.pos_of_ne_zero hw
  -- the number of chunks is the size over the width, rounded up
  have hhigh : size ≤ (size + width - 1) / width * width := by
    have := Nat.div_add_mod (size + width - 1) width
    have := Nat.mod_lt (size + width - 1) hpos
    rw [Nat.mul_comm width] at *
    omega
  have hlow : ((size + width - 1) / width - 1) * width ≤ size := by
    have := Nat.div_mul_le_self (size + width - 1) width
    rw [Nat.sub_mul, Nat.one_mul]
    omega
  have hcover := covers_chunks size width _ hlow
  rwa [Nat.min_eq_right hhigh] at hcover

end Span

/-! ## Running -/

/-- A span of a result, and what fills it. -/
structure Branch (α : Type) where
  span : Span
  fill? : Region α → Option (Region α)

namespace Branch

variable {α : Type}

/-- The slots after one branch has filled its span. -/
def run? (branch : Branch α) (slots : Array (List α)) : Option (Array (List α)) :=
  (branch.fill? ⟨slots, branch.span.start, branch.span.stop⟩).map Region.slots

/-- The slots after all branches have run, in the order of the list. -/
def runAll? (branches : List (Branch α)) (slots : Array (List α)) :
    Option (Array (List α)) :=
  branches.foldlM (fun slots branch => branch.run? slots) slots

@[simp]
theorem runAll?_nil (slots : Array (List α)) : runAll? [] slots = some slots := rfl

@[simp]
theorem runAll?_cons (branch : Branch α) (branches : List (Branch α))
    (slots : Array (List α)) :
    runAll? (branch :: branches) slots = (branch.run? slots).bind (runAll? branches) := by
  simp only [runAll?, List.foldlM_cons]
  rfl

end Branch
end Choices
