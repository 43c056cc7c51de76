import ChaosLoris.Database
import ChaosLoris.Links

/-!
# The controllers

A request that writes runs in one transaction. Its handler reads the store, flushes what it
`saveAndFlush`es, leaves the rest dirty for the commit, and publishes schedule events. The commit
flushes what is dirty; only then do the transactional listeners get the published events.

`respond` is the whole of a request: the store afterwards, the status of the response, and the
events the listeners are given.
-/

namespace ChaosLoris

abbrev Status := ℕ

/-- Why a request is refused. -/
inductive Failure
  /-- `@Valid` rejects the body. -/
  | invalid
  | dataIntegrityViolation
  | emptyResultDataAccess
  | entityNotFound
  /-- A bean wrapper has caught an `EntityNotFoundException`, two causes down, where no handler is
  looked for. -/
  | invalidProperty
  | illegalArgument
  deriving DecidableEq, Repr

/-- `ExceptionHandlers`; an exception it does not map is a server error. -/
def Failure.status : Failure → Status
  | invalid => 400
  | dataIntegrityViolation => 400
  | emptyResultDataAccess => 404
  | entityNotFound => 404
  | invalidProperty => 500
  | illegalArgument => 500

/-- `ScheduleCreatedEvent`, `ScheduleUpdatedEvent` and `ScheduleDeletedEvent`. -/
inductive ScheduleEvent
  | created (schedule : Schedule)
  | updated (schedule : Schedule)
  | deleted (id : Id)
  deriving DecidableEq, Repr

/-- A transaction at the end of its handler. -/
structure Transaction where
  /-- The store with the flushed statements. -/
  store : Store
  /-- What the commit has to flush. -/
  pending : List Statement
  published : List ScheduleEvent
  status : Status

/-- Execute statements in order. -/
def execAll : List Statement → Store → Option Store
  | [], st => some st
  | s :: ss, st => (s.exec st).bind (execAll ss)

def saveAndFlush (s : Statement) (st : Store) : Except Failure Store :=
  match s.exec st with
  | some st' => .ok st'
  | none => .error .dataIntegrityViolation

structure ScheduleCreateInput where
  expression : Option String
  name : Option String
  deriving DecidableEq, Repr

structure ScheduleUpdateInput where
  expression : Option String
  name : Option String
  deriving DecidableEq, Repr

structure ChaosCreateInput where
  application : Option URI
  probability : Option ℚ
  schedule : Option URI

/-- `@DecimalMin("0")` and `@DecimalMax("1")`. -/
def validProbability (p : ℚ) : Bool := 0 ≤ p && p ≤ 1

/-- What comes of `getOne` if there is no such row. It returns a proxy, which reads the row when it
is first used: by a setter, which throws in the handler, or by `save`, which reads the id through a
bean wrapper. -/
def proxyFailure (setterCalled : Bool) : Failure :=
  if setterCalled then .entityNotFound else .invalidProperty

/-- The schedule entity of a row. -/
def ScheduleRow.entity (row : ScheduleRow) (id : Id) : Schedule :=
  { expression := row.expression, id, name := row.name }

/-- The fields a `PATCH` gives replace those of the row. -/
def ScheduleUpdateInput.apply (input : ScheduleUpdateInput) (row : ScheduleRow) : ScheduleRow :=
  { name := input.name.getD row.name, expression := input.expression.getD row.expression }

namespace ApplicationController

def create (applicationId : Option UUID) (st : Store) : Except Failure Transaction :=
  match applicationId with
  | none => .error .invalid
  | some applicationId => do
    let st ← saveAndFlush (.insertApplication ⟨applicationId⟩) st
    pure { store := st, pending := [], published := [], status := 201 }

def delete (id : Id) (st : Store) : Except Failure Transaction :=
  match st.application.find id with
  | none => .error .emptyResultDataAccess
  | some _ => .ok { store := st, pending := [.deleteApplication id], published := [], status := 204 }

end ApplicationController

namespace ScheduleController

def create (input : ScheduleCreateInput) (st : Store) : Except Failure Transaction :=
  match input.expression, input.name with
  | some expression, some name => do
    let id := st.schedule.next
    let st ← saveAndFlush (.insertSchedule { name, expression }) st
    pure { store := st, pending := [], published := [.created { expression, id, name }],
           status := 201 }
  | _, _ => .error .invalid

def delete (id : Id) (st : Store) : Except Failure Transaction :=
  match st.schedule.find id with
  | none => .error .emptyResultDataAccess
  | some _ =>
    .ok { store := st, pending := [.deleteSchedule id], published := [.deleted id], status := 204 }

/-- An entity that has not changed is not written. -/
def update (id : Id) (input : ScheduleUpdateInput) (st : Store) : Except Failure Transaction :=
  match st.schedule.find id with
  | none => .error (proxyFailure (input.expression.isSome || input.name.isSome))
  | some row =>
    let row' := input.apply row
    .ok { store := st, pending := if row' = row then [] else [.updateSchedule id row'],
          published := [.updated (row'.entity id)], status := 204 }

end ScheduleController

namespace ChaosController

/-- `getOne` does not read the row: whether it is there shows when the chaos is inserted. -/
def create (input : ChaosCreateInput) (st : Store) : Except Failure Transaction :=
  match input.application, input.probability, input.schedule with
  | some application, some probability, some schedule =>
    if validProbability probability then
      match applicationId application, scheduleId schedule with
      | some applicationId, some scheduleId => do
        let st ← saveAndFlush (.insertChaos { applicationId, probability, scheduleId }) st
        pure { store := st, pending := [], published := [], status := 201 }
      | _, _ => .error .illegalArgument
    else .error .invalid
  | _, _, _ => .error .invalid

def delete (id : Id) (st : Store) : Except Failure Transaction :=
  match st.chaos.find id with
  | none => .error .emptyResultDataAccess
  | some _ => .ok { store := st, pending := [.deleteChaos id], published := [], status := 204 }

def update (id : Id) (probability : Option ℚ) (st : Store) : Except Failure Transaction :=
  if probability.all validProbability then
    match st.chaos.find id with
    | none => .error (proxyFailure probability.isSome)
    | some row =>
      let row' := { row with probability := probability.getD row.probability }
      .ok { store := st, pending := if row' = row then [] else [.updateChaos id row'],
            published := [], status := 204 }
  else .error .invalid

end ChaosController

namespace EventController

def delete (id : Id) (st : Store) : Except Failure Transaction :=
  match st.event.find id with
  | none => .error .emptyResultDataAccess
  | some _ => .ok { store := st, pending := [.deleteEvent id], published := [], status := 204 }

end EventController

/-- The requests that write. -/
inductive Request
  | createApplication (applicationId : Option UUID)
  | deleteApplication (id : Id)
  | createSchedule (input : ScheduleCreateInput)
  | deleteSchedule (id : Id)
  | updateSchedule (id : Id) (input : ScheduleUpdateInput)
  | createChaos (input : ChaosCreateInput)
  | deleteChaos (id : Id)
  | updateChaos (id : Id) (probability : Option ℚ)
  | deleteEvent (id : Id)

def Request.handle : Request → Store → Except Failure Transaction
  | .createApplication applicationId => ApplicationController.create applicationId
  | .deleteApplication id => ApplicationController.delete id
  | .createSchedule input => ScheduleController.create input
  | .deleteSchedule id => ScheduleController.delete id
  | .updateSchedule id input => ScheduleController.update id input
  | .createChaos input => ChaosController.create input
  | .deleteChaos id => ChaosController.delete id
  | .updateChaos id probability => ChaosController.update id probability
  | .deleteEvent id => EventController.delete id

/-- A request. `rollback` makes its commit fail for a reason outside the program. -/
def Request.respond (r : Request) (rollback : Bool) (st : Store) :
    Store × Status × List ScheduleEvent :=
  match r.handle st with
  | .error e => (st, e.status, [])
  | .ok tx =>
    match execAll tx.pending tx.store with
    | none => (st, Failure.dataIntegrityViolation.status, [])
    | some st' => if rollback then (st, 500, []) else (st', tx.status, tx.published)

/-- The request commits in the store `st`, and leaves the store `st'`. -/
def Request.Commits (r : Request) (st st' : Store) : Prop :=
  ∃ tx, r.handle st = .ok tx ∧ execAll tx.pending tx.store = some st'

end ChaosLoris
