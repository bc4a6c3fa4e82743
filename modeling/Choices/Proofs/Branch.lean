/-
# `Choices.Proofs.Branch` — branches in any order give one result

Fix the result `whole` that branches are to give.  Each of them writes the
part of `whole` that its span covers, and whatever region it is handed, it
writes nothing else.  Once all have run, a slot that some span contains
holds what `whole` holds there, and the other slots are as they were
(`exists_runAll?`).  This does not mention the order in which they ran, and
it needs no two spans to be apart: a branch that came back to a slot would
write the same item again.

The spans that `Span.cuts?` and `Span.chunks?` give for parts of known
lengths are written out as well, and what each of them covers is the part it
was cut for (`part_nth`).
-/
import Mathlib
import Choices.Branch
import Choices.Proofs.Worker

namespace Choices

namespace Span

/-! ## Cuts of given lengths -/

theorem covers_of_cuts? {lengths : List Nat} {start stop : Nat} {spans : List Span}
    (h : cuts? lengths start stop = some spans) :
    Covers spans start (start + lengths.sum) := by
  induction lengths generalizing start spans with
  | nil =>
    cases h
    exact .nil
  | cons length lengths ih =>
    rw [cuts?, Option.ite_none_right_eq_some, Option.map_eq_some_iff] at h
    obtain ⟨_, rest, hrest, rfl⟩ := h
    refine .cons (Nat.le_add_right _ _) ?_
    rw [List.sum_cons, ← Nat.add_assoc]
    exact ih hrest

/-! ## Spans of parts -/

/-- The part of a list that a span covers. -/
def part {β : Type} (span : Span) (whole : List β) : List β :=
  (whole.take span.stop).drop span.start

/-- The span of the part with index `i`, where parts of the given lengths
follow each other. -/
def nth (lengths : List Nat) (i : Nat) : Span :=
  ⟨(lengths.take i).sum, (lengths.take (i + 1)).sum⟩

theorem stop_nth {lengths : List Nat} {i : Nat} (h : i < lengths.length) :
    (nth lengths i).stop = (nth lengths i).start + lengths[i] :=
  List.sum_take_succ lengths i h

theorem part_nth {β : Type} {parts : List (List β)} {i : Nat} (h : i < parts.length) :
    (nth (parts.map List.length) i).part parts.flatten = parts[i] :=
  List.drop_take_succ_flatten_eq_getElem parts i h

/-- The entries of a part, found in the whole. -/
theorem getElem?_flatten_nth {β : Type} {parts : List (List β)} {i j : Nat}
    (hi : i < parts.length) (hj : j < parts[i].length) :
    parts.flatten[(nth (parts.map List.length) i).start + j]? = parts[i][j]? := by
  have hstop : (nth (parts.map List.length) i).start + j
      < (nth (parts.map List.length) i).stop := by
    rw [stop_nth (by rwa [List.length_map]), List.getElem_map]
    exact Nat.add_lt_add_left hj _
  rw [← part_nth hi, part, List.getElem?_drop, List.getElem?_take_of_lt hstop]

theorem cuts?_from : ∀ {lengths : List Nat} {start stop : Nat}, start + lengths.sum ≤ stop →
    cuts? lengths start stop = some ((List.range lengths.length).map fun i =>
      ⟨start + (lengths.take i).sum, start + (lengths.take (i + 1)).sum⟩) := by
  intro lengths
  induction lengths with
  | nil => intro _ _ _; rfl
  | cons length lengths ih =>
      intro start stop h
      rw [List.sum_cons, ← Nat.add_assoc] at h
      rw [cuts?, if_pos (Nat.le_trans (Nat.le_add_right _ _) h), ih h, List.length_cons,
        List.range_succ_eq_map]
      simp [Nat.add_assoc, Function.comp_def]

theorem cuts?_eq {lengths : List Nat} {stop : Nat} (h : lengths.sum ≤ stop) :
    cuts? lengths 0 stop = some ((List.range lengths.length).map (nth lengths)) := by
  rw [cuts?_from (by rwa [Nat.zero_add])]
  simp only [Nat.zero_add]
  rfl

theorem chunks?_mul {count width : Nat} (h : 0 < width) :
    chunks? (count * width) width
      = some ((List.range count).map fun i => ⟨i * width, (i + 1) * width⟩) := by
  have hcount : (count * width + width - 1) / width = count := by
    rw [Nat.add_sub_assoc h, Nat.add_comm, Nat.add_mul_div_right _ _ h,
      Nat.div_eq_of_lt (Nat.sub_lt h Nat.one_pos), Nat.zero_add]
  rw [chunks?, if_neg (Nat.ne_of_gt h), hcount]
  refine congrArg some (List.map_congr_left fun i hi => ?_)
  have hi' : i + 1 ≤ count := List.mem_range.mp hi
  rw [Nat.min_eq_left (Nat.mul_le_mul_right width hi')]

theorem nth_replicate {count width i : Nat} (h : i < count) :
    nth (List.replicate count width) i = ⟨i * width, (i + 1) * width⟩ := by
  simp [nth, List.take_replicate, Nat.min_eq_left (Nat.le_of_lt h), Nat.min_eq_left h]

/-! ## What spans that follow each other contain -/

theorem Covers.bounds {spans : List Span} {start stop : Nat} (h : Covers spans start stop) :
    start ≤ stop ∧ ∀ span ∈ spans, span.start ≤ span.stop ∧ span.stop ≤ stop := by
  induction h with
  | nil => exact ⟨Nat.le_refl _, fun _ hspan => absurd hspan List.not_mem_nil⟩
  | cons hle _ ih =>
      refine ⟨Nat.le_trans hle ih.1, fun span hspan => ?_⟩
      rcases List.mem_cons.mp hspan with rfl | hspan
      · exact ⟨hle, ih.1⟩
      · exact ih.2 span hspan

theorem Covers.exists_mem {spans : List Span} {start stop : Nat} (h : Covers spans start stop) :
    ∀ {i : Nat}, start ≤ i → i < stop → ∃ span ∈ spans, span.start ≤ i ∧ i < span.stop := by
  induction h with
  | nil => intro i hi hi'; exact absurd hi (Nat.not_le.mpr hi')
  | @cons spans start middle stop _ _ ih =>
      intro i hi hi'
      by_cases hm : i < middle
      · exact ⟨⟨start, middle⟩, List.mem_cons_self, hi, hm⟩
      · obtain ⟨span, hspan, hin⟩ := ih (Nat.not_lt.mp hm) hi'
        exact ⟨span, List.mem_cons_of_mem _ hspan, hin⟩

/-! ## Which part an index is in -/

theorem exists_nth_of_lt {lengths : List Nat} {index : Nat} (h : index < lengths.sum) :
    ∃ i < lengths.length, (nth lengths i).start ≤ index ∧ index < (nth lengths i).stop := by
  have hcovers := covers_of_cuts? (cuts?_eq (Nat.le_refl lengths.sum))
  rw [Nat.zero_add] at hcovers
  obtain ⟨span, hspan, hin⟩ := hcovers.exists_mem (Nat.zero_le index) h
  obtain ⟨i, hi, rfl⟩ := List.mem_map.mp hspan
  exact ⟨i, List.mem_range.mp hi, hin⟩

theorem exists_getElem?_flatten_nth {β : Type} {parts : List (List β)} {i index : Nat}
    (hi : i < parts.length)
    (hin : (nth (parts.map List.length) i).start ≤ index ∧
      index < (nth (parts.map List.length) i).stop) :
    ∃ b ∈ parts[i], parts.flatten[index]? = some b := by
  obtain ⟨j, rfl⟩ := Nat.exists_eq_add_of_le hin.1
  have hstop := hin.2
  rw [stop_nth (by rwa [List.length_map]), List.getElem_map] at hstop
  have hj : j < parts[i].length := Nat.lt_of_add_lt_add_left hstop
  exact ⟨parts[i][j], List.getElem_mem hj,
    (getElem?_flatten_nth hi hj).trans (List.getElem?_eq_getElem hj)⟩

/-- Where every entry tells which part it is from, it tells which span its
index is in. -/
theorem getElem?_flatMap_label_iff {β : Type} {count i : Nat} {part : Nat → List β}
    {label : β → Option Nat} (hlabel : ∀ j < count, ∀ b ∈ part j, label b = some j)
    (hi : i < count) (index : Nat) :
    ((List.range count).flatMap part)[index]?.bind label = some i ↔
      (nth ((List.range count).map fun i => (part i).length) i).start ≤ index ∧
        index < (nth ((List.range count).map fun i => (part i).length) i).stop := by
  have hlengths : (List.range count).map (fun i => (part i).length)
      = ((List.range count).map part).map List.length := by rw [List.map_map]; rfl
  -- the entry at an index of a span, with its label
  have hentry : ∀ j < count,
      (nth ((List.range count).map fun i => (part i).length) j).start ≤ index ∧
        index < (nth ((List.range count).map fun i => (part i).length) j).stop →
      ((List.range count).flatMap part)[index]?.bind label = some j := by
    intro j hj hin
    rw [hlengths] at hin
    have hj' : j < ((List.range count).map part).length := by simpa using hj
    obtain ⟨b, hb, hget⟩ := exists_getElem?_flatten_nth hj' hin
    rw [List.getElem_map, List.getElem_range] at hb
    rw [List.flatMap_def, hget, Option.bind_some, hlabel j hj b hb]
  constructor
  · intro h
    obtain ⟨b, hb, -⟩ := Option.bind_eq_some_iff.mp h
    have hlt := (List.getElem?_eq_some_iff.mp hb).1
    rw [List.length_flatMap] at hlt
    obtain ⟨j, hj, hin⟩ := exists_nth_of_lt hlt
    rw [List.length_map, List.length_range] at hj
    obtain rfl : i = j := Option.some.inj (h.symm.trans (hentry j hj hin))
    exact hin
  · exact hentry i hi

end Span

namespace Branch

variable {α : Type} {whole : List (List α)}

/-- The branch writes the part of `whole` that its span covers, whatever
region it is handed. -/
def WritesPart (whole : List (List α)) (branch : Branch α) : Prop :=
  ∀ region : Region α, branch.fill? region = region.pushAll? (branch.span.part whole)

/-- The branch fills its span with what `whole` holds there, down to the
last slot, and changes no other slot. -/
def FillsSpan (whole : List (List α)) (branch : Branch α) : Prop :=
  ∀ slots : Array (List α), slots.size = whole.length →
    ∃ region, branch.fill? ⟨slots, branch.span.start, branch.span.stop⟩ = some region ∧
      region.next = branch.span.stop ∧
      region.slots.size = slots.size ∧
      ∀ i, region.slots[i]? =
        if branch.span.start ≤ i ∧ i < branch.span.stop then whole[i]? else slots[i]?

theorem WritesPart.fillsSpan {branch : Branch α} (h : branch.WritesPart whole)
    (hle : branch.span.start ≤ branch.span.stop) (hstop : branch.span.stop ≤ whole.length) :
    branch.FillsSpan whole := by
  intro slots hsize
  have hlength : branch.span.start + (branch.span.part whole).length = branch.span.stop := by
    rw [Span.part, List.length_drop, List.length_take, Nat.min_eq_left hstop,
      Nat.add_sub_cancel' hle]
  obtain ⟨region, hfill, hnext, hslots, hget⟩ :=
    Region.exists_pushAll? ⟨slots, branch.span.start, branch.span.stop⟩
      (branch.span.part whole) (Nat.le_of_eq hlength) (by rw [hlength, hsize]; exact hstop)
  refine ⟨region, by rw [h, hfill], by rw [hnext, hlength], hslots, fun i => ?_⟩
  rw [hget i]
  simp only [hlength]
  by_cases hi : branch.span.start ≤ i ∧ i < branch.span.stop
  · rw [if_pos hi, if_pos hi, Span.part, List.getElem?_drop, Nat.add_sub_cancel' hi.1,
      List.getElem?_take_of_lt hi.2]
  · rw [if_neg hi, if_neg hi]

/-! ## Schedules -/

/-- Induction on the branches still to run.  The slots already written hold
what `whole` holds there, so it does not matter which those are. -/
theorem exists_runAll? : ∀ {order : List (Branch α)} {slots : Array (List α)},
    (∀ branch ∈ order, branch.FillsSpan whole) → slots.size = whole.length →
    ∃ slots', runAll? order slots = some slots' ∧
      slots'.size = slots.size ∧
      (∀ i : Nat, (∃ branch ∈ order, branch.span.start ≤ i ∧ i < branch.span.stop) →
        slots'[i]? = whole[i]?) ∧
      ∀ i : Nat, slots[i]? = whole[i]? → slots'[i]? = whole[i]? := by
  intro order
  induction order with
  | nil =>
      intro slots _ _
      exact ⟨slots, runAll?_nil slots, rfl,
        fun i ⟨_, hmem, _⟩ => absurd hmem List.not_mem_nil, fun i h => h⟩
  | cons branch order ih =>
      intro slots hfill hsize
      obtain ⟨region, hregion, -, hsize₁, hget⟩ :=
        hfill branch List.mem_cons_self slots hsize
      obtain ⟨slots', hrun, hsize', hin, hkeep⟩ :=
        ih (fun b hb => hfill b (List.mem_cons_of_mem branch hb)) (hsize₁.trans hsize)
      have hfirst : branch.run? slots = some region.slots := by
        rw [run?, hregion]
        rfl
      refine ⟨slots', ?_, hsize'.trans hsize₁, ?_, ?_⟩
      · rw [runAll?_cons, hfirst]
        exact hrun
      · rintro i ⟨b, hb, hi⟩
        rcases List.mem_cons.mp hb with rfl | hb
        · exact hkeep i (by rw [hget i, if_pos hi])
        · exact hin i ⟨b, hb, hi⟩
      · intro i hi
        refine hkeep i ?_
        rw [hget i, hi, ite_self]

/-- The branches make up the result `whole`.  Their spans follow each other
through all of it, each branch fills its span, and every schedule of them
gives the result. -/
structure MakeUp (branches : List (Branch α)) (whole : List (List α)) : Prop where
  covers : Span.Covers (branches.map Branch.span) 0 whole.length
  fills : ∀ branch ∈ branches, branch.FillsSpan whole
  schedules : ∀ order : List (Branch α), order.Perm branches →
    runAll? order (Region.blankSlots whole.length) = some whole.toArray

theorem makeUp_of_writesPart {branches : List (Branch α)}
    (hcovers : Span.Covers (branches.map Branch.span) 0 whole.length)
    (hparts : ∀ branch ∈ branches, branch.WritesPart whole) : MakeUp branches whole := by
  have hfills : ∀ branch ∈ branches, branch.FillsSpan whole := by
    intro branch hmem
    obtain ⟨hle, hstop⟩ := hcovers.bounds.2 branch.span (List.mem_map_of_mem hmem)
    exact (hparts branch hmem).fillsSpan hle hstop
  refine ⟨hcovers, hfills, fun order hperm => ?_⟩
  have hsize : (Region.blankSlots whole.length : Array (List α)).size = whole.length :=
    Array.size_replicate
  obtain ⟨slots, hrun, hsize', hin, -⟩ :=
    exists_runAll? (fun branch hb => hfills branch (hperm.mem_iff.mp hb)) hsize
  rw [hrun]
  refine congrArg some (Array.ext_getElem? fun i => ?_)
  simp only [List.getElem?_toArray]
  by_cases hi : i < whole.length
  · obtain ⟨span, hspan, hcontains⟩ := hcovers.exists_mem (Nat.zero_le i) hi
    obtain ⟨branch, hmem, rfl⟩ := List.mem_map.mp hspan
    exact hin i ⟨branch, hperm.mem_iff.mpr hmem, hcontains⟩
  · have hlen : whole.length ≤ i := Nat.not_lt.mp hi
    rw [List.getElem?_eq_none hlen]
    exact Array.getElem?_eq_none (by rw [hsize', hsize]; exact hlen)

/-- Parts that follow each other are made up by branches that push them. -/
theorem makeUp_of_parts {count : Nat} (part : Nat → List (List α))
    (branch : Nat → Span → Branch α) (hspan : ∀ i span, (branch i span).span = span)
    (hfill : ∀ i < count, ∀ span region,
      (branch i span).fill? region = region.pushAll? (part i)) :
    MakeUp ((List.range count).map fun i =>
        branch i (Span.nth ((List.range count).map fun i => (part i).length) i))
      ((List.range count).flatMap part) := by
  have hlength : ((List.range count).map fun i => (part i).length).sum
      = ((List.range count).flatMap part).length := List.length_flatMap.symm
  refine makeUp_of_writesPart ?_ ?_
  · have hcovers := Span.covers_of_cuts? (Span.cuts?_eq (Nat.le_of_eq hlength))
    rw [Nat.zero_add, hlength, List.length_map, List.length_range] at hcovers
    simpa [hspan, Function.comp_def] using hcovers
  · intro b hb region
    obtain ⟨i, hi, rfl⟩ := List.mem_map.mp hb
    have hi' : i < ((List.range count).map part).length := by simpa using hi
    have hpart := Span.part_nth hi'
    rw [List.map_map, List.getElem_map, List.getElem_range, ← List.flatMap_def] at hpart
    rw [hfill i (List.mem_range.mp hi), hspan, ← hpart]
    rfl

theorem zipIdx_map_range {β : Type} (count : Nat) (f : Nat → Span) (branch : Nat → Span → β) :
    (((List.range count).map f).zipIdx.map fun (span, i) => branch i span)
      = (List.range count).map fun i => branch i (f i) := by
  refine List.ext_getElem (by simp) fun i _ _ => ?_
  simp

end Branch
end Choices
