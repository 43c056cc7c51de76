import Mathlib.Data.BitVec
import Mathlib.Algebra.Order.Field.Rat

/-!
# Entities

The entities of `data/`, as the repositories hand them out. A `Double` is the rational number it
stands for, an `Instant` its distance from the epoch, and a `Long` an integer.
-/

namespace ChaosLoris

/-- A database identifier, a `Long`. -/
abbrev Id := ℤ

abbrev UUID := BitVec 128

abbrev Instant := ℤ

/-- An application that is a candidate for chaos. -/
structure Application where
  applicationId : UUID
  id : Id
  deriving DecidableEq, Repr

/-- A schedule for driving chaos. -/
structure Schedule where
  expression : String
  id : Id
  name : String
  deriving DecidableEq, Repr

/-- A definition of chaos to be performed. -/
structure Chaos where
  application : Application
  id : Id
  probability : ℚ
  schedule : Schedule
  deriving DecidableEq, Repr

/-- An event representing the execution of chaos. A new one has no id before it is saved. -/
structure Event where
  chaos : Chaos
  executedAt : Instant
  id : Option Id
  terminatedInstances : List ℕ
  totalInstanceCount : ℕ
  deriving DecidableEq, Repr

/-- The constructor `Event(Chaos, Instant, List, Integer)`. -/
def Event.new (chaos : Chaos) (executedAt : Instant) (terminatedInstances : List ℕ)
    (totalInstanceCount : ℕ) : Event :=
  { chaos, executedAt, id := none, terminatedInstances, totalInstanceCount }

def Event.getTerminatedInstanceCount (e : Event) : ℕ := e.terminatedInstances.length

/-- What a `FateEngine` decides. -/
inductive Fate
  | thumbsUp
  | thumbsDown
  deriving DecidableEq, Repr

end ChaosLoris
