/-
# `Choices.Proofs.Product.Script` — what a script depends on

A script works on a list of states through their moves alone.  Four things
follow, for whatever is walked.

* What moves keep is true of every state a script comes to
  (`Reached.forall_mem`).
* States may be seen through a function that commutes with the moves: the
  script gives the same records on the images (`Abstracts.run?_map`).
* A script runs to its end exactly when each step is addressed to a state
  that exists by then (`isSome_run?_iff`).
* A step changes the state it is addressed to and no other.  So the records
  of one state are those it gives when nothing is addressed to any other
  (`run?_own`).
-/
import Choices.Product.Script

namespace Choices

/-- `f` commutes with the moves on the states in `Good`, and the moves stay
there. -/
structure Abstracts {σ τ β : Type} [DoubleEnded σ β] [DoubleEnded τ β] (Good : σ → Prop)
    (f : σ → τ) : Prop where
  left : ∀ {s}, Good s → DoubleEnded.left (f s) = DoubleEnded.left s
  apply : ∀ {s}, Good s → ∀ move, DoubleEnded.apply move (f s)
    = ((DoubleEnded.apply move s).1, f (DoubleEnded.apply move s).2)
  good : ∀ {s}, Good s → ∀ move, Good (DoubleEnded.apply move s).2

namespace Script

variable {σ τ β : Type} [DoubleEnded σ β] [DoubleEnded τ β]

/-! ## One step -/

theorem step?_move {walks : List σ} {j : Nat} {walk : σ} (h : walks[j]? = some walk)
    (move : Move) :
    step? walks ⟨j, .move move⟩
      = some (⟨(DoubleEnded.apply move walk).1, DoubleEnded.left (DoubleEnded.apply move walk).2⟩,
          walks.set j (DoubleEnded.apply move walk).2) := by
  simp only [step?, h]
  rfl

theorem step?_fork {walks : List σ} {j : Nat} {walk : σ} (h : walks[j]? = some walk) :
    step? walks ⟨j, .fork⟩ = some (⟨.silent, DoubleEnded.left walk⟩, walks ++ [walk]) := by
  simp only [step?, h]
  rfl

theorem step?_missing {walks : List σ} {step : Step} (h : walks[step.walk]? = none) :
    step? walks step = none := by
  simp only [step?, h]
  rfl

/-- All that a step can do. -/
theorem step?_cases {walks walks' : List σ} {step : Step} {record : Record β}
    (h : step? walks step = some (record, walks')) :
    ∃ walk, walks[step.walk]? = some walk ∧
      (step.action = .fork ∧ record = ⟨.silent, DoubleEnded.left walk⟩ ∧
          walks' = walks ++ [walk] ∨
        ∃ move, step.action = .move move ∧
          record = ⟨(DoubleEnded.apply move walk).1,
            DoubleEnded.left (DoubleEnded.apply move walk).2⟩ ∧
          walks' = walks.set step.walk (DoubleEnded.apply move walk).2) := by
  obtain ⟨j, action⟩ := step
  cases hj : walks[j]? with
  | none =>
      rw [step?_missing hj] at h
      cases h
  | some walk =>
      refine ⟨walk, rfl, ?_⟩
      cases action with
      | fork =>
          rw [step?_fork hj] at h
          cases h
          exact Or.inl ⟨rfl, rfl, rfl⟩
      | move move =>
          rw [step?_move hj] at h
          cases h
          exact Or.inr ⟨move, rfl, rfl, rfl⟩

theorem run?_cons_none {walks : List σ} {step : Step} (h : step? walks step = none)
    (steps : List Step) : run? walks (step :: steps) = none := by
  rw [run?, h]
  rfl

theorem run?_cons_some {walks walks' : List σ} {step : Step} {record : Record β}
    (h : step? walks step = some (record, walks')) (steps : List Step) :
    run? walks (step :: steps) = (run? walks' steps).map (record :: ·) := by
  rw [run?, h, Option.map_eq_bind]
  rfl

/-- What moves keep, steps keep. -/
theorem forall_mem_of_step? {Good : σ → Prop}
    (hmove : ∀ {s}, Good s → ∀ move, Good (DoubleEnded.apply move s).2) {walks walks' : List σ}
    {step : Step} {record : Record β} (hgood : ∀ walk ∈ walks, Good walk)
    (h : step? walks step = some (record, walks')) : ∀ walk ∈ walks', Good walk := by
  obtain ⟨walk, hj, hcases⟩ := step?_cases h
  have hwalk : Good walk := hgood walk (List.mem_of_getElem? hj)
  intro w hw
  rcases hcases with ⟨-, -, rfl⟩ | ⟨move, -, -, rfl⟩
  · rcases List.mem_append.mp hw with hw | hw
    · exact hgood w hw
    · exact List.mem_singleton.mp hw ▸ hwalk
  · rcases List.mem_or_eq_of_mem_set hw with hw | rfl
    · exact hgood w hw
    · exact hmove hwalk move

theorem run?_cons_cases {walks : List σ} {step : Step} {steps : List Step}
    {records : List (Record β)} (h : run? walks (step :: steps) = some records) :
    ∃ record walks' rest, step? walks step = some (record, walks') ∧
      run? walks' steps = some rest ∧ records = record :: rest := by
  cases hstep : step? walks step with
  | none =>
      rw [run?_cons_none hstep] at h
      cases h
  | some next =>
      rw [run?_cons_some hstep, Option.map_eq_some_iff] at h
      obtain ⟨rest, hrest, rfl⟩ := h
      exact ⟨next.1, next.2, rest, rfl, hrest, rfl⟩

end Script

/-! ## Scripts seen through a function -/

namespace Abstracts

variable {σ τ β : Type} [DoubleEnded σ β] [DoubleEnded τ β] {Good : σ → Prop} {f : σ → τ}

/-- A step on the images is the image of the step. -/
theorem step?_map (hf : Abstracts Good f) {walks : List σ} (hgood : ∀ walk ∈ walks, Good walk)
    (step : Step) : Script.step? (walks.map f) step
      = (Script.step? walks step).map fun next => (next.1, next.2.map f) := by
  obtain ⟨j, action⟩ := step
  cases hj : walks[j]? with
  | none =>
      have hj' : (walks.map f)[j]? = none := by rw [List.getElem?_map, hj, Option.map_none]
      rw [Script.step?_missing hj', Script.step?_missing hj, Option.map_none]
  | some walk =>
      have hj' : (walks.map f)[j]? = some (f walk) := by
        rw [List.getElem?_map, hj, Option.map_some]
      have hwalk : Good walk := hgood walk (List.mem_of_getElem? hj)
      cases action with
      | fork =>
          rw [Script.step?_fork hj', Script.step?_fork hj, Option.map_some, List.map_append,
            List.map_singleton, hf.left hwalk]
      | move move =>
          rw [Script.step?_move hj', Script.step?_move hj, Option.map_some, List.map_set,
            hf.apply hwalk, hf.left (hf.good hwalk move)]

/-- Induction on the script. -/
theorem run?_map (hf : Abstracts Good f) : ∀ {steps : List Step} {walks : List σ},
    (∀ walk ∈ walks, Good walk) →
    Script.run? (walks.map f) steps = Script.run? walks steps := by
  intro steps
  induction steps with
  | nil => intro walks _; rfl
  | cons step steps ih =>
      intro walks hgood
      have hmap := hf.step?_map hgood step
      cases hstep : Script.step? walks step with
      | none =>
          rw [hstep, Option.map_none] at hmap
          rw [Script.run?_cons_none hmap, Script.run?_cons_none hstep]
      | some next =>
          rw [hstep, Option.map_some] at hmap
          rw [Script.run?_cons_some hmap, Script.run?_cons_some hstep,
            ih (Script.forall_mem_of_step? hf.good hgood hstep)]

end Abstracts

namespace Script

variable {σ β : Type} [DoubleEnded σ β]

/-! ## States on the way -/

/-- The lists of states that a script can come to from the given one. -/
inductive Reached (walks : List σ) : List σ → Prop
  | start : Reached walks walks
  | step {walks' walks'' : List σ} {step : Step} {record : Record β} : Reached walks walks' →
      step? walks' step = some (record, walks'') → Reached walks walks''

/-- Induction on the way there. -/
theorem Reached.forall_mem {Good : σ → Prop}
    (hmove : ∀ {s}, Good s → ∀ move, Good (DoubleEnded.apply move s).2) {walks walks' : List σ}
    (h : Reached walks walks') (hgood : ∀ walk ∈ walks, Good walk) :
    ∀ walk ∈ walks', Good walk := by
  induction h with
  | start => exact hgood
  | step _ hstep ih => exact forall_mem_of_step? hmove ih hstep

/-! ## Addresses -/

/-- Each step is addressed to a state that exists by then, where `count`
states exist at first and a fork adds one. -/
def Addressed : (count : Nat) → List Step → Prop
  | _, [] => True
  | count, ⟨walk, .move _⟩ :: steps => walk < count ∧ Addressed count steps
  | count, ⟨walk, .fork⟩ :: steps => walk < count ∧ Addressed (count + 1) steps

theorem isSome_run?_iff : ∀ {steps : List Step} {walks : List σ},
    (run? walks steps).isSome ↔ Addressed walks.length steps := by
  intro steps
  induction steps with
  | nil => intro walks; exact ⟨fun _ => trivial, fun _ => rfl⟩
  | cons step steps ih =>
      intro walks
      obtain ⟨j, action⟩ := step
      by_cases hlt : j < walks.length
      · have hj : walks[j]? = some walks[j] := List.getElem?_eq_getElem hlt
        cases action with
        | fork =>
            rw [run?_cons_some (step?_fork hj), Option.isSome_map, ih, List.length_append]
            simp [Addressed, hlt]
        | move move =>
            rw [run?_cons_some (step?_move hj move), Option.isSome_map, ih, List.length_set]
            simp [Addressed, hlt]
      · have hj : walks[j]? = none := List.getElem?_eq_none (Nat.not_lt.mp hlt)
        rw [run?_cons_none (step?_missing hj)]
        cases action <;> simp [Addressed, hlt]

/-- Every step leaves one record. -/
theorem length_of_run? : ∀ {steps : List Step} {walks : List σ} {records : List (Record β)},
    run? walks steps = some records → records.length = steps.length := by
  intro steps
  induction steps with
  | nil =>
      intro walks records h
      cases h
      rfl
  | cons step steps ih =>
      intro walks records h
      obtain ⟨record, walks', rest, -, hrest, rfl⟩ := run?_cons_cases h
      rw [List.length_cons, List.length_cons, ih hrest]

/-! ## One state among others -/

/-- A step changes the state it is addressed to at most. -/
theorem getElem?_of_step? {walks walks' : List σ} {step : Step} {record : Record β}
    (h : step? walks step = some (record, walks')) {j : Nat} (hj : j < walks.length)
    (hne : step.walk ≠ j) : walks'[j]? = walks[j]? := by
  obtain ⟨walk, -, ⟨-, -, rfl⟩ | ⟨move, -, -, rfl⟩⟩ := step?_cases h
  · exact List.getElem?_append_left hj
  · exact List.getElem?_set_ne hne

/-- The steps that are addressed to state `j`, addressed to state 0. -/
def own (j : Nat) (steps : List Step) : List Step :=
  (steps.filter (·.walk = j)).map fun step => { step with walk := 0 }

/-- The records of the steps that are addressed to state `j`. -/
def ownRecords (j : Nat) (steps : List Step) (records : List (Record β)) : List (Record β) :=
  ((steps.zip records).filter (·.1.walk = j)).map Prod.snd

/-- A step on its state among others is the same step on that state alone. -/
theorem step?_own {walks walks' : List σ} {step : Step} {record : Record β} {walk : σ}
    (h : step? walks step = some (record, walks')) (hj : walks[step.walk]? = some walk)
    (copies : List σ) :
    ∃ walk' copies', walks'[step.walk]? = some walk' ∧
      step? (walk :: copies) { step with walk := 0 } = some (record, walk' :: copies') := by
  have hlt : step.walk < walks.length := (List.getElem?_eq_some_iff.mp hj).1
  have hfirst : (walk :: copies)[0]? = some walk := rfl
  obtain ⟨j, action⟩ := step
  obtain ⟨walk', hwalk', hcases⟩ := step?_cases h
  obtain rfl : walk = walk' := Option.some.inj (hj.symm.trans hwalk')
  rcases hcases with ⟨rfl, rfl, rfl⟩ | ⟨move, rfl, rfl, rfl⟩
  · exact ⟨walk, copies ++ [walk], (List.getElem?_append_left hlt).trans hj, step?_fork hfirst⟩
  · exact ⟨_, copies, List.getElem?_set_self hlt, step?_move hfirst move⟩

/-- Induction on the script.  The states behind the first are the copies that
the steps of state `j` leave, which no step of its own is addressed to. -/
theorem run?_own : ∀ {steps : List Step} {walks : List σ} {records : List (Record β)} {j : Nat}
    {walk : σ} (copies : List σ), run? walks steps = some records → walks[j]? = some walk →
    run? (walk :: copies) (own j steps) = some (ownRecords j steps records) := by
  intro steps
  induction steps with
  | nil =>
      intro walks records j walk copies h _
      cases h
      rfl
  | cons step steps ih =>
      intro walks records j walk copies h hj
      obtain ⟨record, walks', rest, hstep, hrest, rfl⟩ := run?_cons_cases h
      by_cases hown : step.walk = j
      · subst hown
        have hsteps : own step.walk (step :: steps)
            = { step with walk := 0 } :: own step.walk steps := by simp [own]
        have hrecords : ownRecords step.walk (step :: steps) (record :: rest)
            = record :: ownRecords step.walk steps rest := by simp [ownRecords]
        obtain ⟨walk', copies', hwalk', hstep'⟩ := step?_own hstep hj copies
        rw [hsteps, hrecords, run?_cons_some hstep', ih copies' hrest hwalk', Option.map_some]
      · have hsteps : own j (step :: steps) = own j steps := by simp [own, hown]
        have hrecords : ownRecords j (step :: steps) (record :: rest)
            = ownRecords j steps rest := by simp [ownRecords, hown]
        have hlt : j < walks.length := (List.getElem?_eq_some_iff.mp hj).1
        rw [hsteps, hrecords]
        exact ih copies hrest ((getElem?_of_step? hstep hlt hown).trans hj)

end Script
end Choices
