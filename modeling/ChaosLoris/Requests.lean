import Mathlib.Logic.Function.Basic
import ChaosLoris.Web

/-!
# What a request can do

`respond_cases`: a request is refused and leaves the store alone, or it commits one statement that
its validation admits, or it is a `PATCH` that changes nothing. The events that reach the
listeners say what was committed (`respond_version`).

`respond_createSchedule` and `respond_updateSchedule` are the whole of a `POST` and a `PATCH` for a
schedule.
-/

namespace ChaosLoris

open Keyed

/-- The expression stored for an id. -/
def Store.version (st : Store) (id : Id) : Option String :=
  (st.schedule.find id).map ScheduleRow.expression

/-- The entities that `findAll()` returns, in some order. -/
def Store.schedules (st : Store) : List Schedule :=
  st.schedule.toList.map fun p => p.2.entity p.1

/-- The schedule an event is about. -/
def ScheduleEvent.id : ScheduleEvent → Id
  | .created schedule => schedule.id
  | .updated schedule => schedule.id
  | .deleted id => id

/-- The expression an event says its schedule has; `none` for a schedule that is gone. -/
def ScheduleEvent.version : ScheduleEvent → Option String
  | .created schedule => some schedule.expression
  | .updated schedule => some schedule.expression
  | .deleted _ => none

/-- What the controllers have checked before they send a statement. -/
def Statement.Admitted (st : Store) : Statement → Prop
  | .insertSchedule _ => True
  | .updateSchedule id _ => (st.schedule.find id).isSome
  | .deleteSchedule id => (st.schedule.find id).isSome
  | .insertApplication _ => True
  | .deleteApplication id => (st.application.find id).isSome
  | .insertChaos row => validProbability row.probability = true
  | .updateChaos id row => ∃ old, st.chaos.find id = some old ∧
      (validProbability row.probability = true ∨ row.probability = old.probability)
  | .deleteChaos id => (st.chaos.find id).isSome
  | .insertEvent _ _ => False
  | .deleteEvent id => (st.event.find id).isSome

/-- The events that go with a statement. -/
def Statement.published (st : Store) : Statement → List ScheduleEvent
  | .insertSchedule row => [.created (row.entity st.schedule.next)]
  | .updateSchedule id row => [.updated (row.entity id)]
  | .deleteSchedule id => [.deleted id]
  | _ => []

/-- A committed `PATCH` that leaves its row as it was. -/
def Unchanged (st : Store) (events : List ScheduleEvent) : Prop :=
  events = [] ∨ ∃ id row, st.schedule.find id = some row ∧ events = [.updated (row.entity id)]

/-- What a handler that returned normally has flushed, left pending and published. -/
inductive Writes (st : Store) (tx : Transaction) : Prop
  | flushed (s : Statement) (hs : s.Admitted st) (hpub : tx.published = s.published st)
      (hexec : s.exec st = some tx.store) (hpend : tx.pending = [])
  | dirty (s : Statement) (hs : s.Admitted st) (hpub : tx.published = s.published st)
      (hstore : tx.store = st) (hpend : tx.pending = [s])
  | clean (hpub : Unchanged st tx.published) (hstore : tx.store = st) (hpend : tx.pending = [])

section Handle

variable {st st' : Store} {tx : Transaction} {id : Id}

theorem saveAndFlush_bind {s : Statement} {f : Store → Transaction} :
    (saveAndFlush s st >>= fun st => pure (f st)) = Except.ok tx ↔
      ∃ st', s.exec st = some st' ∧ f st' = tx := by
  unfold saveAndFlush
  cases h : s.exec st with
  | none => simp [bind, Except.bind]
  | some st' => simp [bind, Except.bind, pure, Except.pure]

/-! What each handler has done when it returns. -/

theorem ApplicationController.create_eq_ok {applicationId : Option UUID} :
    ApplicationController.create applicationId st = .ok tx ↔
      ∃ a st', applicationId = some a ∧ (Statement.insertApplication ⟨a⟩).exec st = some st' ∧
        tx = ⟨st', [], [], 201⟩ := by
  unfold ApplicationController.create
  cases applicationId with
  | none => simp
  | some a =>
    show saveAndFlush _ st >>= _ = _ ↔ _
    rw [saveAndFlush_bind]
    simp [eq_comm]

theorem ApplicationController.delete_eq_ok : ApplicationController.delete id st = .ok tx ↔
    (st.application.find id).isSome ∧ tx = ⟨st, [.deleteApplication id], [], 204⟩ := by
  unfold ApplicationController.delete
  cases st.application.find id <;> simp [eq_comm]

theorem ScheduleController.create_eq_ok {input : ScheduleCreateInput} :
    ScheduleController.create input st = .ok tx ↔
      ∃ expression name st', input = ⟨some expression, some name⟩ ∧
        (Statement.insertSchedule ⟨name, expression⟩).exec st = some st' ∧
        tx = ⟨st', [], [.created ⟨expression, st.schedule.next, name⟩], 201⟩ := by
  unfold ScheduleController.create
  obtain ⟨expression, name⟩ := input
  cases expression with
  | none => simp
  | some expression =>
    cases name with
    | none => simp
    | some name =>
      show saveAndFlush _ st >>= _ = _ ↔ _
      rw [saveAndFlush_bind]
      simp [eq_comm]

theorem ScheduleController.delete_eq_ok : ScheduleController.delete id st = .ok tx ↔
    (st.schedule.find id).isSome ∧ tx = ⟨st, [.deleteSchedule id], [.deleted id], 204⟩ := by
  unfold ScheduleController.delete
  cases st.schedule.find id <;> simp [eq_comm]

theorem ScheduleController.update_eq_ok {input : ScheduleUpdateInput} :
    ScheduleController.update id input st = .ok tx ↔
      ∃ row, st.schedule.find id = some row ∧
        tx = ⟨st, if input.apply row = row then [] else [.updateSchedule id (input.apply row)],
          [.updated ((input.apply row).entity id)], 204⟩ := by
  unfold ScheduleController.update
  cases st.schedule.find id <;> simp [eq_comm]

theorem ChaosController.create_eq_ok {input : ChaosCreateInput} :
    ChaosController.create input st = .ok tx ↔
      ∃ application probability schedule a s st',
        input = ⟨some application, some probability, some schedule⟩ ∧
        validProbability probability = true ∧
        applicationId application = some a ∧ scheduleId schedule = some s ∧
        (Statement.insertChaos ⟨a, probability, s⟩).exec st = some st' ∧
        tx = ⟨st', [], [], 201⟩ := by
  unfold ChaosController.create
  obtain ⟨application, probability, schedule⟩ := input
  match application, probability, schedule with
  | none, _, _ => simp
  | some _, none, _ => simp
  | some _, some _, none => simp
  | some application, some probability, some schedule =>
    dsimp only
    split_ifs with hp
    · cases ha : applicationId application with
      | none => simp [ha]
      | some a =>
        cases hs : scheduleId schedule with
        | none => simp [hs]
        | some s =>
          show saveAndFlush _ st >>= _ = _ ↔ _
          rw [saveAndFlush_bind]
          constructor
          · rintro ⟨st', hexec, rfl⟩
            exact ⟨_, _, _, a, s, st', rfl, hp, ha, hs, hexec, rfl⟩
          · rintro ⟨_, _, _, a', s', st', heq, -, ha', hs', hexec, rfl⟩
            obtain ⟨happlication, hprobability, hschedule⟩ := ChaosCreateInput.mk.inj heq
            cases happlication
            cases hprobability
            cases hschedule
            cases ha.symm.trans ha'
            cases hs.symm.trans hs'
            exact ⟨st', hexec, rfl⟩
    · simp [hp]

theorem ChaosController.delete_eq_ok : ChaosController.delete id st = .ok tx ↔
    (st.chaos.find id).isSome ∧ tx = ⟨st, [.deleteChaos id], [], 204⟩ := by
  unfold ChaosController.delete
  cases st.chaos.find id <;> simp [eq_comm]

theorem ChaosController.update_eq_ok {probability : Option ℚ} :
    ChaosController.update id probability st = .ok tx ↔
      probability.all validProbability = true ∧ ∃ row, st.chaos.find id = some row ∧
        tx = ⟨st, if { row with probability := probability.getD row.probability } = row then []
          else [.updateChaos id { row with probability := probability.getD row.probability }],
          [], 204⟩ := by
  unfold ChaosController.update
  cases probability.all validProbability with
  | false => simp
  | true => cases st.chaos.find id <;> simp [eq_comm]

theorem EventController.delete_eq_ok : EventController.delete id st = .ok tx ↔
    (st.event.find id).isSome ∧ tx = ⟨st, [.deleteEvent id], [], 204⟩ := by
  unfold EventController.delete
  cases st.event.find id <;> simp [eq_comm]

theorem handle_writes {r : Request} (h : r.handle st = .ok tx) : Writes st tx := by
  cases r with
  | createApplication applicationId =>
    obtain ⟨a, st', -, hexec, rfl⟩ := ApplicationController.create_eq_ok.mp h
    exact .flushed (.insertApplication ⟨a⟩) trivial rfl hexec rfl
  | deleteApplication id =>
    obtain ⟨hid, rfl⟩ := ApplicationController.delete_eq_ok.mp h
    exact .dirty (.deleteApplication id) hid rfl rfl rfl
  | createSchedule input =>
    obtain ⟨expression, name, st', -, hexec, rfl⟩ := ScheduleController.create_eq_ok.mp h
    exact .flushed (.insertSchedule ⟨name, expression⟩) trivial rfl hexec rfl
  | deleteSchedule id =>
    obtain ⟨hid, rfl⟩ := ScheduleController.delete_eq_ok.mp h
    exact .dirty (.deleteSchedule id) hid rfl rfl rfl
  | updateSchedule id input =>
    obtain ⟨row, hrow, rfl⟩ := ScheduleController.update_eq_ok.mp h
    by_cases hsame : input.apply row = row
    · exact .clean (Or.inr ⟨id, row, hrow, by simp [hsame]⟩) rfl (if_pos hsame)
    · exact .dirty (.updateSchedule id (input.apply row)) (Option.isSome_of_eq_some hrow) rfl rfl
        (if_neg hsame)
  | createChaos input =>
    obtain ⟨_, p, _, a, s, st', -, hp, -, -, hexec, rfl⟩ := ChaosController.create_eq_ok.mp h
    exact .flushed (.insertChaos ⟨a, p, s⟩) hp rfl hexec rfl
  | deleteChaos id =>
    obtain ⟨hid, rfl⟩ := ChaosController.delete_eq_ok.mp h
    exact .dirty (.deleteChaos id) hid rfl rfl rfl
  | updateChaos id probability =>
    obtain ⟨hp, row, hrow, rfl⟩ := ChaosController.update_eq_ok.mp h
    by_cases hsame : { row with probability := probability.getD row.probability } = row
    · exact .clean (Or.inl rfl) rfl (if_pos hsame)
    · refine .dirty (.updateChaos id _) ⟨row, hrow, ?_⟩ rfl rfl (if_neg hsame)
      cases probability with
      | none => exact Or.inr rfl
      | some p => exact Or.inl hp
  | deleteEvent id =>
    obtain ⟨hid, rfl⟩ := EventController.delete_eq_ok.mp h
    exact .dirty (.deleteEvent id) hid rfl rfl rfl

theorem execAll_singleton {s : Statement} : execAll [s] st = s.exec st := by
  simp [execAll, Option.bind_fun_some]

/-- **A request, seen from the store.** -/
theorem respond_cases {r : Request} {rollback : Bool} {status : Status}
    {events : List ScheduleEvent} (h : r.respond rollback st = (st', status, events)) :
    (st' = st ∧ events = []) ∨
      (∃ s : Statement, s.Admitted st ∧ s.exec st = some st' ∧ events = s.published st) ∨
      (st' = st ∧ Unchanged st events) := by
  unfold Request.respond at h
  cases hr : r.handle st with
  | error e =>
    simp only [hr, Prod.mk.injEq] at h
    exact Or.inl ⟨h.1.symm, h.2.2.symm⟩
  | ok tx =>
    rw [hr] at h
    cases hc : execAll tx.pending tx.store with
    | none =>
      simp only [hc, Prod.mk.injEq] at h
      exact Or.inl ⟨h.1.symm, h.2.2.symm⟩
    | some st₁ =>
      cases rollback with
      | true =>
        simp only [hc, if_true, Prod.mk.injEq] at h
        exact Or.inl ⟨h.1.symm, h.2.2.symm⟩
      | false =>
        simp only [hc, Bool.false_eq_true, if_false, Prod.mk.injEq] at h
        obtain ⟨rfl, -, rfl⟩ := h
        cases handle_writes hr with
        | flushed s hs hpub hexec hpend =>
          rw [hpend] at hc
          exact Or.inr (Or.inl ⟨s, hs, hexec.trans hc, hpub⟩)
        | dirty s hs hpub hstore hpend =>
          rw [hpend, hstore, execAll_singleton] at hc
          exact Or.inr (Or.inl ⟨s, hs, hc, hpub⟩)
        | clean hpub hstore hpend =>
          rw [hpend, hstore] at hc
          exact Or.inr (Or.inr ⟨(Option.some.inj hc).symm, hpub⟩)

theorem respond_createSchedule (st : Store) (expression name : String) (rollback : Bool) :
    (Request.createSchedule ⟨some expression, some name⟩).respond rollback st =
      match (Statement.insertSchedule ⟨name, expression⟩).exec st with
      | none => (st, 400, [])
      | some st' => if rollback then (st, 500, [])
          else (st', 201, [.created ⟨expression, st.schedule.next, name⟩]) := by
  cases hexec : (Statement.insertSchedule ⟨name, expression⟩).exec st with
  | none =>
    simp [Request.respond, Request.handle, ScheduleController.create, saveAndFlush, hexec, bind,
      Except.bind, Failure.status]
  | some st' =>
    simp [Request.respond, Request.handle, ScheduleController.create, saveAndFlush, hexec, bind,
      Except.bind, pure, Except.pure, execAll]

theorem respond_updateSchedule {row : ScheduleRow} (input : ScheduleUpdateInput) (rollback : Bool)
    (h : st.schedule.find id = some row) :
    (Request.updateSchedule id input).respond rollback st =
      match (if input.apply row = row then some st
        else (Statement.updateSchedule id (input.apply row)).exec st) with
      | none => (st, 400, [])
      | some st' => if rollback then (st, 500, [])
          else (st', 204, [.updated ((input.apply row).entity id)]) := by
  by_cases hrow : input.apply row = row
  · simp [Request.respond, Request.handle, ScheduleController.update, h, hrow, execAll]
  · cases hexec : (Statement.updateSchedule id (input.apply row)).exec st with
    | none =>
      simp [Request.respond, Request.handle, ScheduleController.update, h, hrow, execAll, hexec,
        Failure.status]
    | some st' =>
      simp [Request.respond, Request.handle, ScheduleController.update, h, hrow, execAll, hexec]

end Handle

/-! ## Schedules -/

section Version

variable {st st' : Store}

theorem version_insert (st : Store) (row : ScheduleRow) :
    Store.version { st with schedule := st.schedule.insert row } =
      Function.update st.version st.schedule.next (some row.expression) := by
  ext id : 1
  simp only [Store.version, Function.update_apply, Table.find_insert]
  split_ifs <;> rfl

theorem version_set {id : Id} (row : ScheduleRow) (h : (st.schedule.find id).isSome) :
    Store.version { st with schedule := st.schedule.set id row } =
      Function.update st.version id (some row.expression) := by
  ext j : 1
  simp only [Store.version, Function.update_apply, Table.find_set, h, and_true]
  split_ifs <;> rfl

theorem version_delete (st : Store) (id : Id) :
    Store.version { st with schedule := st.schedule.delete id } =
      Function.update st.version id none := by
  ext j : 1
  simp only [Store.version, Function.update_apply, Table.find_delete]
  split_ifs <;> rfl

/-- A statement changes the schedules only as the events that go with it say. -/
theorem exec_version {s : Statement} (hs : s.Admitted st) (h : s.exec st = some st') :
    (s.published st = [] ∧ st'.schedule = st.schedule) ∨
      ∃ e, s.published st = [e] ∧ st'.version = Function.update st.version e.id e.version := by
  cases exec_eq_some.mp h with
  | insertSchedule row _ _ => exact Or.inr ⟨_, rfl, version_insert st row⟩
  | updateSchedule id row _ _ => exact Or.inr ⟨_, rfl, version_set row hs⟩
  | deleteSchedule id _ => exact Or.inr ⟨_, rfl, version_delete st id⟩
  | insertEvent row terminatedInstances _ _ => exact hs.elim
  | _ => exact Or.inl ⟨rfl, rfl⟩

/-- What the listeners are told is what has been committed. -/
theorem respond_version {r : Request} {rollback : Bool} {status : Status}
    {events : List ScheduleEvent} (h : r.respond rollback st = (st', status, events)) :
    (events = [] ∧ st'.schedule = st.schedule) ∨
      ∃ e, events = [e] ∧ st'.version = Function.update st.version e.id e.version := by
  obtain ⟨rfl, rfl⟩ | ⟨s, hs, hexec, rfl⟩ | ⟨rfl, rfl | ⟨id, row, hid, rfl⟩⟩ := respond_cases h
  · exact Or.inl ⟨rfl, rfl⟩
  · exact exec_version hs hexec
  · exact Or.inl ⟨rfl, rfl⟩
  · have hv : st'.version id = some row.expression := by simp [Store.version, hid]
    refine Or.inr ⟨_, rfl, ?_⟩
    show st'.version = Function.update st'.version id (some row.expression)
    rw [← hv, Function.update_eq_self]

theorem mem_schedules {a : Schedule} :
    a ∈ st.schedules ↔ st.schedule.find a.id = some ⟨a.name, a.expression⟩ := by
  unfold Store.schedules
  rw [List.mem_map]
  constructor
  · rintro ⟨⟨id, row⟩, h, rfl⟩
    exact Table.mem_toList.mp h
  · intro h
    exact ⟨(a.id, ⟨a.name, a.expression⟩), Table.mem_toList.mpr h, rfl⟩

theorem version_of_mem {a : Schedule} (h : a ∈ st.schedules) :
    st.version a.id = some a.expression := by
  unfold Store.version
  rw [mem_schedules.mp h]
  rfl

theorem mem_schedule_ids {id : Id} :
    id ∈ st.schedules.map Schedule.id ↔ (st.version id).isSome := by
  unfold Store.version
  rw [List.mem_map, Option.isSome_map]
  constructor
  · rintro ⟨a, ha, rfl⟩
    rw [mem_schedules.mp ha]
    rfl
  · intro h
    obtain ⟨row, hrow⟩ := Option.isSome_iff_exists.mp h
    exact ⟨row.entity id, mem_schedules.mpr hrow, rfl⟩

theorem nodup_schedule_ids (st : Store) : (st.schedules.map Schedule.id).Nodup := by
  unfold Store.schedules
  rw [List.map_map]
  exact st.schedule.nodup_ids

end Version

/-- The schedule 1 runs every hour. -/
def hourlyStore : Store :=
  { Store.empty with schedule := Keyed.Table.empty.insert ⟨"hourly", "0 0 * * * *"⟩ }

end ChaosLoris
