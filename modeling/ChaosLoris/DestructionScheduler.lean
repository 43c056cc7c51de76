import ChaosLoris.Web

/-!
# `DestructionScheduler`

The scheduler keeps a map from schedule ids to the futures of their tasks. Below it is the
`TaskScheduler`, which hands out futures: `futures` is every task it ever accepted, `cancelled`
every `cancel` it was asked for, both in order, so a future is its position in `futures` and is
live as long as it has not been cancelled.

`accepts` tells which expressions `CronTrigger` and `TaskScheduler.schedule` accept; on any other
they throw. The four atomic operations come first, then the handlers as they run when nothing
interferes, with `false` for a handler that ended in an exception.
-/

namespace ChaosLoris

/-- A `ScheduledFuture`. -/
abbrev Handle := ℕ

/-- What a future runs: the destroyer of a schedule, at the times of an expression. -/
structure Task where
  destroyer : Id
  expression : String
  deriving DecidableEq, Repr

structure DestructionScheduler where
  running : Bool
  scheduled : AList fun _ : Id => Handle
  futures : List Task
  cancelled : List Handle

namespace DestructionScheduler

/-- The scheduler after construction. -/
def init : DestructionScheduler := ⟨false, ∅, [], []⟩

/-- The future has been handed out and not been cancelled. -/
def Live (s : DestructionScheduler) (f : Handle) : Prop := f < s.futures.length ∧ f ∉ s.cancelled

instance (s : DestructionScheduler) (f : Handle) : Decidable (s.Live f) :=
  inferInstanceAs (Decidable (_ ∧ _))

inductive Health
  | up
  | down
  deriving DecidableEq, Repr

def isRunning (s : DestructionScheduler) : Bool := s.running

def health (s : DestructionScheduler) : Health := if s.running then .up else .down

/-! ## Atomic operations -/

/-- `taskScheduler.schedule(destroyer, new CronTrigger(expression))`. -/
def schedule (accepts : String → Bool) (destroyer : Id) (expression : String)
    (s : DestructionScheduler) : Option (Handle × DestructionScheduler) :=
  if accepts expression then
    some (s.futures.length, { s with futures := s.futures ++ [⟨destroyer, expression⟩] })
  else none

/-- `scheduled.put`, with the future it displaces. -/
def putSchedule (id : Id) (future : Handle) (s : DestructionScheduler) :
    Option Handle × DestructionScheduler :=
  (s.scheduled.lookup id, { s with scheduled := s.scheduled.insert id future })

/-- `scheduled.remove`, with the future it removes. -/
def removeSchedule (id : Id) (s : DestructionScheduler) : Option Handle × DestructionScheduler :=
  (s.scheduled.lookup id, { s with scheduled := s.scheduled.erase id })

/-- `future.cancel(false)`. -/
def cancel (future : Handle) (s : DestructionScheduler) : DestructionScheduler :=
  { s with cancelled := s.cancelled ++ [future] }

/-- Cancel the future an operation returned, if it returned one. -/
def cancelPrevious (previous : Option Handle) (s : DestructionScheduler) : DestructionScheduler :=
  match previous with
  | some future => s.cancel future
  | none => s

/-! ## Handlers -/

/-- `start(Schedule, …)`. -/
def startSchedule (accepts : String → Bool) (schedule : Schedule) (s : DestructionScheduler) :
    DestructionScheduler × Bool :=
  match s.schedule accepts schedule.id schedule.expression with
  | none => (s, false)
  | some (future, s) =>
    let p := s.putSchedule schedule.id future
    (p.2.cancelPrevious p.1, true)

/-- `stop(Long, …)`. -/
def stopSchedule (id : Id) (s : DestructionScheduler) : DestructionScheduler :=
  let p := s.removeSchedule id
  p.2.cancelPrevious p.1

/-- The merge of `start()`: an exception ends it, and with it the schedules that follow. -/
def startAll (accepts : String → Bool) :
    List Schedule → DestructionScheduler → DestructionScheduler × Bool
  | [], s => (s, true)
  | schedule :: schedules, s =>
    match s.startSchedule accepts schedule with
    | (s, true) => startAll accepts schedules s
    | (s, false) => (s, false)

/-- `start()`, on the schedules in the order `findAll()` returns them. -/
def start (accepts : String → Bool) (schedules : List Schedule) (s : DestructionScheduler) :
    DestructionScheduler × Bool :=
  match s.startAll accepts schedules with
  | (s, true) => ({ s with running := true }, true)
  | (s, false) => (s, false)

/-- `stop()`, on the keys in the order the iterator of the map returns them. -/
def stop (ids : List Id) (s : DestructionScheduler) : DestructionScheduler :=
  { ids.foldl (fun s id => s.stopSchedule id) s with running := false }

def scheduleCreated (accepts : String → Bool) (schedule : Schedule) (s : DestructionScheduler) :
    DestructionScheduler × Bool :=
  s.startSchedule accepts schedule

def scheduleDeleted (id : Id) (s : DestructionScheduler) : DestructionScheduler × Bool :=
  (s.stopSchedule id, true)

/-- The concatenation of a stop and a start. -/
def scheduleUpdated (accepts : String → Bool) (schedule : Schedule) (s : DestructionScheduler) :
    DestructionScheduler × Bool :=
  (s.stopSchedule schedule.id).startSchedule accepts schedule

/-- The listener for a published event. -/
def listen (accepts : String → Bool) (s : DestructionScheduler) :
    ScheduleEvent → DestructionScheduler × Bool
  | .created schedule => s.scheduleCreated accepts schedule
  | .updated schedule => s.scheduleUpdated accepts schedule
  | .deleted id => s.scheduleDeleted id

/-! ## What a start and a stop come to -/

section Handlers

variable {accepts : String → Bool} {s : DestructionScheduler} {id : Id}

theorem startSchedule_of_accepts {schedule : Schedule} (h : accepts schedule.expression = true) :
    s.startSchedule accepts schedule =
      ({ s with
          scheduled := s.scheduled.insert schedule.id s.futures.length
          futures := s.futures ++ [⟨schedule.id, schedule.expression⟩]
          cancelled := s.cancelled ++ (s.scheduled.lookup schedule.id).toList }, true) := by
  unfold startSchedule DestructionScheduler.schedule
  rw [if_pos h]
  dsimp only [putSchedule]
  cases s.scheduled.lookup schedule.id <;> simp [cancelPrevious, cancel]

theorem startSchedule_of_rejects {schedule : Schedule} (h : accepts schedule.expression = false) :
    s.startSchedule accepts schedule = (s, false) := by
  unfold startSchedule DestructionScheduler.schedule
  rw [h]
  rfl

theorem stopSchedule_eq :
    s.stopSchedule id =
      { s with
        scheduled := s.scheduled.erase id
        cancelled := s.cancelled ++ (s.scheduled.lookup id).toList } := by
  unfold stopSchedule removeSchedule
  dsimp only
  cases s.scheduled.lookup id <;> simp [cancelPrevious, cancel]

end Handlers

end DestructionScheduler

end ChaosLoris
