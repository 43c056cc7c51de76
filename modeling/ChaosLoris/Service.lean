import ChaosLoris.Tasks
import ChaosLoris.Lib.Mirror
import ChaosLoris.Lib.Runs

/-!
# The service, one operation after another

The store and the scheduler, with `start()`, `stop()` and requests each run to completion before
the next. A request that commits has its published events handled by the scheduler; one that is
refused or rolled back has none.

`mirror` reads a service as a table of expressions and the copy of it that the scheduler keeps.
Every operation is an operation of the mirror (`step_mirror`), as long as the scheduler accepts
what is stored, so the scheduled tasks follow the table (`scheduled_follows_table`).
-/

namespace ChaosLoris

open Runs

structure Service where
  store : Store
  scheduler : DestructionScheduler

/-- Handle published events in order. An exception of a listener is logged and dropped. -/
def DestructionScheduler.listenAll (accepts : String → Bool) (events : List ScheduleEvent)
    (s : DestructionScheduler) : DestructionScheduler :=
  events.foldl (fun s e => (s.listen accepts e).1) s

inductive Operation
  /-- `start()` on what `findAll()` returns. -/
  | start (schedules : List Schedule)
  /-- `stop()` on the keys of the map. -/
  | stop (ids : List Id)
  | request (r : Request) (rollback : Bool)

/-- One operation, in a service that is otherwise idle. The order of `findAll()` and that of the
keys are free. -/
def Service.step (accepts : String → Bool) (s : Service) : Operation → Option Service
  | .start schedules =>
    if schedules.Perm s.store.schedules then
      some { s with scheduler := (s.scheduler.start accepts schedules).1 }
    else none
  | .stop ids =>
    if ids.Perm s.scheduler.scheduled.keys then
      some { s with scheduler := s.scheduler.stop ids }
    else none
  | .request r rollback =>
    let p := r.respond rollback s.store
    some { store := p.1, scheduler := s.scheduler.listenAll accepts p.2.2 }

/-- The service before `start()`. -/
def Service.init (st : Store) : Service := ⟨st, .init⟩

/-- The scheduler accepts every stored expression. -/
def Store.Accepted (accepts : String → Bool) (st : Store) : Prop :=
  ∀ id e, st.version id = some e → accepts e = true

/-- What the tasks are meant to follow, and the tasks. -/
def Service.mirror (s : Service) : Mirror Id String :=
  ⟨s.store.version, s.scheduler.tasks, s.scheduler.running⟩

variable {accepts : String → Bool} {s t : Service}

theorem accepted_iff {st : Store} :
    st.Accepted accepts ↔ ∀ a ∈ st.schedules, accepts a.expression = true := by
  constructor
  · intro h a ha
    exact h a.id _ (version_of_mem ha)
  · intro h id e he
    obtain ⟨a, ha, rfl⟩ := List.mem_map.mp (mem_schedule_ids.mpr (Option.isSome_of_mem he))
    rw [version_of_mem ha] at he
    exact Option.some.inj he ▸ h a ha

instance {st : Store} : Decidable (st.Accepted accepts) := decidable_of_iff' _ accepted_iff

theorem assign_schedules {m : Mirror Id String} {st : Store} {schedules : List Schedule}
    (hm : m.Faithful) (htable : m.table = st.version) (hperm : schedules.Perm st.schedules) :
    DestructionScheduler.assign m.copy schedules = st.version := by
  ext id : 1
  have hids := hperm.map Schedule.id
  by_cases hid : id ∈ schedules.map Schedule.id
  · obtain ⟨a, ha, rfl⟩ := List.mem_map.mp hid
    rw [DestructionScheduler.assign_of_mem (hids.nodup_iff.mpr (nodup_schedule_ids st)) ha,
      version_of_mem (hperm.mem_iff.mp ha)]
  · have hnone : st.version id = none := by
      rw [← Option.not_isSome_iff_eq_none, ← mem_schedule_ids, ← hids.mem_iff]
      exact hid
    rw [DestructionScheduler.assign_of_notMem hid, hnone]
    exact hm.copy_eq_none (htable ▸ hnone)

/-- **Refinement.** An operation of the service is an operation of its mirror, or none. -/
theorem step_mirror {op : Operation} (hstep : s.step accepts op = some t)
    (hacc : t.store.Accepted accepts) (hkept : s.scheduler.WellKept) (hm : s.mirror.Faithful) :
    t.scheduler.WellKept ∧ (t.mirror = s.mirror ∨ ∃ o, t.mirror = s.mirror.apply o) := by
  cases op with
  | start schedules =>
    simp only [Service.step, Option.ite_none_right_eq_some, Option.some.injEq] at hstep
    obtain ⟨hperm, rfl⟩ := hstep
    refine ⟨hkept.start accepts schedules, Or.inr ⟨.load, ?_⟩⟩
    have hall : ∀ a ∈ schedules, accepts a.expression = true :=
      fun a ha => accepted_iff.mp hacc a (hperm.mem_iff.mp ha)
    obtain ⟨htasks, hrunning⟩ := hkept.start_spec accepts schedules
    rw [DestructionScheduler.reached_of_all hall] at htasks
    rw [List.all_eq_true.mpr hall, Bool.or_true] at hrunning
    unfold Service.mirror Mirror.apply
    simp only [htasks, hrunning, Mirror.mk.injEq, true_and, and_true]
    exact assign_schedules hm rfl hperm
  | stop ids =>
    simp only [Service.step, Option.ite_none_right_eq_some, Option.some.injEq] at hstep
    obtain ⟨hperm, rfl⟩ := hstep
    refine ⟨hkept.stop ids, Or.inr ⟨.clear, ?_⟩⟩
    unfold Service.mirror Mirror.apply
    simp only [Mirror.mk.injEq, true_and]
    refine ⟨funext fun id => ?_, rfl⟩
    rw [DestructionScheduler.tasks_stop]
    split_ifs with hid
    · rfl
    · have hnone : s.scheduler.scheduled.lookup id = none := by
        rw [AList.lookup_eq_none, AList.mem_keys, ← hperm.mem_iff]
        exact hid
      simp [DestructionScheduler.tasks, hnone]
  | request r rollback =>
    obtain ⟨st, status, events, hr⟩ : ∃ st status events, r.respond rollback s.store =
        (st, status, events) := ⟨_, _, _, rfl⟩
    simp only [Service.step, hr, Option.some.injEq] at hstep
    subst hstep
    rcases respond_version hr with ⟨rfl, hst⟩ | ⟨e, rfl, hst⟩
    · refine ⟨hkept, Or.inl ?_⟩
      unfold Service.mirror Store.version
      rw [hst]
      rfl
    · have hev : ∀ x ∈ e.version, accepts x = true := by
        intro x hx
        refine hacc e.id x ?_
        rw [hst, Function.update_self]
        exact hx
      obtain ⟨htasks, hrunning⟩ := hkept.listen_spec hev
      refine ⟨hkept.listen accepts e, Or.inr ⟨.write e.id e.version, ?_⟩⟩
      unfold Service.mirror Mirror.apply
      simp only [Mirror.mk.injEq]
      exact ⟨hst, htasks, hrunning⟩

/-- Every store that an operation leads to is accepted. -/
def StaysAccepted (accepts : String → Bool) (s : Service) (op : Operation) : Prop :=
  ∀ t, s.step accepts op = some t → t.store.Accepted accepts

instance (op : Operation) : Decidable (StaysAccepted accepts s op) :=
  match h : s.step accepts op with
  | none => isTrue fun t ht => by simp [h] at ht
  | some t =>
    decidable_of_iff (t.store.Accepted accepts) ⟨fun ht u hu => Option.some.inj (h.symm.trans hu) ▸ ht,
      fun ht => ht t h⟩

theorem run_faithful {ops : List Operation} (hrun : run (Service.step accepts) s ops = some t)
    (hacc : Along (Service.step accepts) (StaysAccepted accepts) s ops)
    (hkept : s.scheduler.WellKept) (hm : s.mirror.Faithful) :
    t.scheduler.WellKept ∧ t.mirror.Faithful := by
  refine run_inv_along (P := fun u => u.scheduler.WellKept ∧ u.mirror.Faithful) ?_ hacc hrun
    ⟨hkept, hm⟩
  rintro u op v hC hstep ⟨hu, hmu⟩
  obtain ⟨hv, h | ⟨o, h⟩⟩ := step_mirror hstep (hC v hstep) hu hmu
  · exact ⟨hv, h ▸ hmu⟩
  · exact ⟨hv, h ▸ hmu.apply o⟩

/-- **The scheduled tasks follow the table.** In every state that `start()`, `stop()` and requests
lead to, in any order and number, every id in the map is stored, with a live future of the stored
expression; no other future is live, so an id has at most one; and while the scheduler is running
every stored schedule is in the map. -/
theorem scheduled_follows_table {st : Store} {ops : List Operation}
    (hrun : run (Service.step accepts) (.init st) ops = some s)
    (hacc : Along (Service.step accepts) (StaysAccepted accepts) (.init st) ops) :
    (∀ id f, s.scheduler.scheduled.lookup id = some f →
      ∃ row, s.store.schedule.find id = some row ∧ s.scheduler.Live f ∧
        s.scheduler.futures[f]? = some ⟨id, row.expression⟩) ∧
    (∀ f, s.scheduler.Live f → ∃ id, s.scheduler.scheduled.lookup id = some f) ∧
    (∀ f g, s.scheduler.Live f → s.scheduler.Live g →
      s.scheduler.futures[f]?.map Task.destroyer = s.scheduler.futures[g]?.map Task.destroyer →
      f = g) ∧
    (s.scheduler.isRunning = true → ∀ id row, s.store.schedule.find id = some row →
      (s.scheduler.scheduled.lookup id).isSome) := by
  obtain ⟨hkept, hm⟩ := run_faithful hrun hacc DestructionScheduler.wellKept_init
    (Mirror.faithful_stopped _)
  refine ⟨fun id f h => ?_, fun f h => hkept.live_iff.mp h, fun f g => hkept.live_unique,
    fun hrunning id row h => ?_⟩
  · obtain ⟨e, hf, htask⟩ := hkept.filed.tasks_eq h
    obtain ⟨row, hrow, rfl⟩ := Option.map_eq_some_iff.mp (hm.copied id e htask)
    exact ⟨row, hrow, hkept.live_iff.mpr ⟨id, h⟩, hf⟩
  · have htasks : s.scheduler.tasks id = s.store.version id := congrFun (hm.complete hrunning) id
    rw [← hkept.filed.isSome_tasks, htasks]
    simp [Store.version, h]

/-- A cron expression has six fields. -/
def sixFields (e : String) : Bool := (e.toList.splitOn ' ').length = 6

/-- A schedule is created before the start and gets another expression after it. -/
def hourlyOperations : List Operation :=
  [.request (.createSchedule ⟨some "0 0 * * * *", some "hourly"⟩) false,
    .start [⟨"0 0 * * * *", 1, "hourly"⟩],
    .request (.updateSchedule 1 ⟨some "0 30 * * * *", none⟩) false]

theorem scheduled_follows_table_hourly :
    ∃ s, run (Service.step sixFields) (.init .empty) hourlyOperations = some s ∧
      s.scheduler.scheduled.lookup 1 = some 2 ∧
      ∃ row, s.store.schedule.find 1 = some row ∧
        s.scheduler.futures[2]? = some ⟨1, row.expression⟩ := by
  obtain ⟨s, hrun⟩ : ∃ s, run (Service.step sixFields) (.init .empty) hourlyOperations = some s :=
    ⟨_, rfl⟩
  have hlookup : s.scheduler.scheduled.lookup 1 = some 2 := by
    have hs := (Option.some.inj hrun).symm
    rw [hs]
    rfl
  obtain ⟨row, hrow, -, hf⟩ := (scheduled_follows_table hrun (by decide)).1 1 2 hlookup
  exact ⟨s, hrun, hlookup, row, hrow, hf⟩

end ChaosLoris
