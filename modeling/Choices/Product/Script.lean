/-
# `Choices.Product.Script` — several walks, worked on step by step

A script runs on a numbered list of walks.  A step names one of them and
either asks a move of it or forks it: a copy in its present state goes to
the end of the list and is from then on a walk of its own.  Every step
leaves a record, the reply and how much the walk it worked on has left.

What is walked is left open.  Anything that answers moves and knows how
much it has left is `DoubleEnded`, and a script runs on that alone.
-/
import Choices.Product.Walk

namespace Choices

/-- What hands out items from two ends. -/
class DoubleEnded (σ : Type) (β : outParam Type) where
  /-- How many items are left. -/
  left : σ → Nat
  /-- The answer to a move, and the state after it. -/
  apply : Move → σ → Reply β × σ

instance {α : Type} : DoubleEnded (Walk α) (List α) where
  left := Walk.left
  apply := Walk.apply

/-- What a step does to its walk. -/
inductive Action where
  | move (move : Move)
  | fork
deriving DecidableEq

/-- A step of a script: an action on the walk with the given number. -/
structure Step where
  walk : Nat
  action : Action
deriving DecidableEq

/-- What a step leaves behind: its reply, and how much its walk has left. -/
structure Record (β : Type) where
  reply : Reply β
  left : Nat
deriving DecidableEq

namespace Script

variable {σ β : Type} [DoubleEnded σ β]

/-- Runs one step, or `none` when there is no walk with its number. -/
def step? (walks : List σ) (step : Step) : Option (Record β × List σ) := do
  let walk ← walks[step.walk]?
  match step.action with
  | .fork => return (⟨.silent, DoubleEnded.left walk⟩, walks ++ [walk])
  | .move move =>
    let (reply, walk) := DoubleEnded.apply move walk
    return (⟨reply, DoubleEnded.left walk⟩, walks.set step.walk walk)

/-- Runs a script from the given walks. -/
def run? : (walks : List σ) → List Step → Option (List (Record β))
  | _, [] => some []
  | walks, step :: steps => do
    let (record, walks) ← step? walks step
    let records ← run? walks steps
    return record :: records

end Script

/-- Runs a script that starts with one walk over the product of the rows. -/
def walkProduct {α : Type} (rows : Rows α) (steps : List Step) :
    Except Fault (Option (List (Record (List α)))) :=
  (Product.ofRows rows).map fun P => Script.run? [Walk.start P] steps

end Choices
