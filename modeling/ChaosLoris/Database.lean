import ChaosLoris.Data
import ChaosLoris.Lib.Table

/-!
# The database

The tables of `db/migration` and the statements the repositories send to it. A statement that a
declared constraint forbids has no result: that is the database refusing it. There are no cascades,
and `event_terminated_instances` has a primary key but no foreign key.

`Executes` says what has been checked of a statement that is executed, and what it leads to.
-/

namespace ChaosLoris

open Keyed

/-- `V1__schedule.sql`. -/
structure ScheduleRow where
  name : String
  expression : String
  deriving DecidableEq, Repr

/-- `V2__application.sql`. -/
structure ApplicationRow where
  applicationId : UUID
  deriving DecidableEq, Repr

/-- `V3__chaos.sql`. -/
structure ChaosRow where
  applicationId : Id
  probability : ℚ
  scheduleId : Id
  deriving DecidableEq, Repr

/-- `V4__event.sql`. -/
structure EventRow where
  chaosId : Id
  executedAt : Instant
  totalInstanceCount : ℕ
  deriving DecidableEq, Repr

/-- The tables. A row of `event_terminated_instances` is an event id and an instance index. -/
structure Store where
  schedule : Table ScheduleRow
  application : Table ApplicationRow
  chaos : Table ChaosRow
  event : Table EventRow
  eventTerminatedInstances : List (Id × ℕ)

/-- The database after the migrations. -/
def Store.empty : Store := ⟨.empty, .empty, .empty, .empty, []⟩

/-- Both columns are `VARCHAR(255)`. -/
def ScheduleRow.fits (row : ScheduleRow) : Bool :=
  row.name.length ≤ 255 && row.expression.length ≤ 255

/-- Another schedule than `id` has the name. -/
def Store.nameTaken (st : Store) (id : Id) (name : String) : Bool :=
  st.schedule.any fun j r => j ≠ id && r.name = name

def Store.applicationIdTaken (st : Store) (applicationId : UUID) : Bool :=
  st.application.any fun _ r => r.applicationId = applicationId

/-- Another chaos than `id` links the same application and schedule. -/
def Store.pairTaken (st : Store) (id : Id) (row : ChaosRow) : Bool :=
  st.chaos.any fun j r =>
    j ≠ id && (r.applicationId = row.applicationId && r.scheduleId = row.scheduleId)

/-- Both foreign keys of a chaos are satisfied. -/
def Store.references (st : Store) (row : ChaosRow) : Bool :=
  (st.application.find row.applicationId).isSome && (st.schedule.find row.scheduleId).isSome

/-- What the repositories send to the database when a transaction is flushed. -/
inductive Statement
  | insertSchedule (row : ScheduleRow)
  | updateSchedule (id : Id) (row : ScheduleRow)
  | deleteSchedule (id : Id)
  | insertApplication (row : ApplicationRow)
  | deleteApplication (id : Id)
  | insertChaos (row : ChaosRow)
  | updateChaos (id : Id) (row : ChaosRow)
  | deleteChaos (id : Id)
  | insertEvent (row : EventRow) (terminatedInstances : List ℕ)
  | deleteEvent (id : Id)
  deriving DecidableEq, Repr

/-- The rows of an event's element collection. -/
def terminatedRows (event : Id) (terminatedInstances : List ℕ) : List (Id × ℕ) :=
  terminatedInstances.map (event, ·)

/-- Execute a statement; `none` when a constraint is violated. -/
def Statement.exec (st : Store) : Statement → Option Store
  | .insertSchedule row =>
    if row.fits ∧ st.nameTaken st.schedule.next row.name = false then
      some { st with schedule := st.schedule.insert row }
    else none
  | .updateSchedule id row =>
    if row.fits ∧ st.nameTaken id row.name = false then
      some { st with schedule := st.schedule.set id row }
    else none
  | .deleteSchedule id =>
    if st.chaos.any fun _ r => r.scheduleId = id then none
    else some { st with schedule := st.schedule.delete id }
  | .insertApplication row =>
    if st.applicationIdTaken row.applicationId then none
    else some { st with application := st.application.insert row }
  | .deleteApplication id =>
    if st.chaos.any fun _ r => r.applicationId = id then none
    else some { st with application := st.application.delete id }
  | .insertChaos row =>
    if st.references row ∧ st.pairTaken st.chaos.next row = false then
      some { st with chaos := st.chaos.insert row }
    else none
  | .updateChaos id row =>
    if st.references row ∧ st.pairTaken id row = false then
      some { st with chaos := st.chaos.set id row }
    else none
  | .deleteChaos id =>
    if st.event.any fun _ r => r.chaosId = id then none
    else some { st with chaos := st.chaos.delete id }
  | .insertEvent row terminatedInstances =>
    let rows := terminatedRows st.event.next terminatedInstances
    if (st.chaos.find row.chaosId).isSome ∧ (rows ++ st.eventTerminatedInstances).Nodup then
      some { st with
        event := st.event.insert row
        eventTerminatedInstances := rows ++ st.eventTerminatedInstances }
    else none
  -- Hibernate deletes the element collection with its entity
  | .deleteEvent id =>
    some { st with
      event := st.event.delete id
      eventTerminatedInstances := st.eventTerminatedInstances.filter fun r => r.1 ≠ id }

/-! ## What an executed statement has checked -/

/-- Executing a statement in the store `st` leads to another store. -/
inductive Executes (st : Store) : Statement → Store → Prop
  | insertSchedule (row : ScheduleRow) (hfits : row.fits = true)
      (hname : st.nameTaken st.schedule.next row.name = false) :
      Executes st (.insertSchedule row) { st with schedule := st.schedule.insert row }
  | updateSchedule (id : Id) (row : ScheduleRow) (hfits : row.fits = true)
      (hname : st.nameTaken id row.name = false) :
      Executes st (.updateSchedule id row) { st with schedule := st.schedule.set id row }
  | deleteSchedule (id : Id) (hfree : ∀ j r, st.chaos.find j = some r → r.scheduleId ≠ id) :
      Executes st (.deleteSchedule id) { st with schedule := st.schedule.delete id }
  | insertApplication (row : ApplicationRow)
      (hnew : ∀ j r, st.application.find j = some r → r.applicationId ≠ row.applicationId) :
      Executes st (.insertApplication row) { st with application := st.application.insert row }
  | deleteApplication (id : Id) (hfree : ∀ j r, st.chaos.find j = some r → r.applicationId ≠ id) :
      Executes st (.deleteApplication id) { st with application := st.application.delete id }
  | insertChaos (row : ChaosRow) (happlication : (st.application.find row.applicationId).isSome)
      (hschedule : (st.schedule.find row.scheduleId).isSome)
      (hpair : st.pairTaken st.chaos.next row = false) :
      Executes st (.insertChaos row) { st with chaos := st.chaos.insert row }
  | updateChaos (id : Id) (row : ChaosRow)
      (happlication : (st.application.find row.applicationId).isSome)
      (hschedule : (st.schedule.find row.scheduleId).isSome)
      (hpair : st.pairTaken id row = false) :
      Executes st (.updateChaos id row) { st with chaos := st.chaos.set id row }
  | deleteChaos (id : Id) (hfree : ∀ j r, st.event.find j = some r → r.chaosId ≠ id) :
      Executes st (.deleteChaos id) { st with chaos := st.chaos.delete id }
  | insertEvent (row : EventRow) (terminatedInstances : List ℕ)
      (hchaos : (st.chaos.find row.chaosId).isSome)
      (hnodup : (terminatedRows st.event.next terminatedInstances ++
        st.eventTerminatedInstances).Nodup) :
      Executes st (.insertEvent row terminatedInstances)
        { st with
          event := st.event.insert row
          eventTerminatedInstances :=
            terminatedRows st.event.next terminatedInstances ++ st.eventTerminatedInstances }
  | deleteEvent (id : Id) : Executes st (.deleteEvent id)
      { st with
        event := st.event.delete id
        eventTerminatedInstances := st.eventTerminatedInstances.filter fun r => r.1 ≠ id }

theorem not_any_iff {ρ α : Type*} [DecidableEq α] {t : Table ρ} {f : ρ → α} {a : α} :
    ¬ (t.any fun _ r => f r = a) = true ↔ ∀ j r, t.find j = some r → f r ≠ a := by
  rw [Bool.not_eq_true, Table.any_eq_false]
  simp only [decide_eq_false_iff_not, ne_eq]

theorem references_iff {st : Store} {row : ChaosRow} : st.references row = true ↔
    (st.application.find row.applicationId).isSome ∧ (st.schedule.find row.scheduleId).isSome := by
  simp [Store.references]

theorem exec_eq_some {st st' : Store} {s : Statement} :
    s.exec st = some st' ↔ Executes st s st' := by
  constructor
  · intro h
    cases s with
    | insertSchedule row =>
      obtain ⟨⟨hfits, hname⟩, h⟩ := Option.ite_none_right_eq_some.mp h
      obtain rfl := Option.some.inj h
      exact .insertSchedule row hfits hname
    | updateSchedule id row =>
      obtain ⟨⟨hfits, hname⟩, h⟩ := Option.ite_none_right_eq_some.mp h
      obtain rfl := Option.some.inj h
      exact .updateSchedule id row hfits hname
    | deleteSchedule id =>
      obtain ⟨hfree, h⟩ := Option.ite_none_left_eq_some.mp h
      obtain rfl := Option.some.inj h
      exact .deleteSchedule id (not_any_iff.mp hfree)
    | insertApplication row =>
      obtain ⟨hnew, h⟩ := Option.ite_none_left_eq_some.mp h
      obtain rfl := Option.some.inj h
      exact .insertApplication row (not_any_iff.mp hnew)
    | deleteApplication id =>
      obtain ⟨hfree, h⟩ := Option.ite_none_left_eq_some.mp h
      obtain rfl := Option.some.inj h
      exact .deleteApplication id (not_any_iff.mp hfree)
    | insertChaos row =>
      obtain ⟨⟨hrefs, hpair⟩, h⟩ := Option.ite_none_right_eq_some.mp h
      obtain rfl := Option.some.inj h
      obtain ⟨happlication, hschedule⟩ := references_iff.mp hrefs
      exact .insertChaos row happlication hschedule hpair
    | updateChaos id row =>
      obtain ⟨⟨hrefs, hpair⟩, h⟩ := Option.ite_none_right_eq_some.mp h
      obtain rfl := Option.some.inj h
      obtain ⟨happlication, hschedule⟩ := references_iff.mp hrefs
      exact .updateChaos id row happlication hschedule hpair
    | deleteChaos id =>
      obtain ⟨hfree, h⟩ := Option.ite_none_left_eq_some.mp h
      obtain rfl := Option.some.inj h
      exact .deleteChaos id (not_any_iff.mp hfree)
    | insertEvent row terminatedInstances =>
      obtain ⟨⟨hchaos, hnodup⟩, h⟩ := Option.ite_none_right_eq_some.mp h
      obtain rfl := Option.some.inj h
      exact .insertEvent row terminatedInstances hchaos hnodup
    | deleteEvent id =>
      obtain rfl := Option.some.inj h
      exact .deleteEvent id
  · intro h
    cases h with
    | insertSchedule row hfits hname => exact if_pos ⟨hfits, hname⟩
    | updateSchedule id row hfits hname => exact if_pos ⟨hfits, hname⟩
    | deleteSchedule id hfree => exact if_neg (not_any_iff.mpr hfree)
    | insertApplication row hnew => exact if_neg (not_any_iff.mpr hnew)
    | deleteApplication id hfree => exact if_neg (not_any_iff.mpr hfree)
    | insertChaos row happlication hschedule hpair =>
      exact if_pos ⟨references_iff.mpr ⟨happlication, hschedule⟩, hpair⟩
    | updateChaos id row happlication hschedule hpair =>
      exact if_pos ⟨references_iff.mpr ⟨happlication, hschedule⟩, hpair⟩
    | deleteChaos id hfree => exact if_neg (not_any_iff.mpr hfree)
    | insertEvent row terminatedInstances hchaos hnodup => exact if_pos ⟨hchaos, hnodup⟩
    | deleteEvent id => rfl

end ChaosLoris
