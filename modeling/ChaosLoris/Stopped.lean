import ChaosLoris.Unschedulable

/-!
# A scheduler that has been stopped

`running` is written by `start()` and `stop()` and read by `isRunning()` and `health()`; the
listeners do not look at it. So `stop()` leaves no task (`tasks_stop_all`), but the events that
reach a scheduler after that are handled as at any other time: the tasks are those that these
events come to (`tasks_while_stopped`). A schedule that is created while the scheduler is stopped
gets a live task (`scheduled_while_stopped`).
-/

namespace ChaosLoris

open Runs

namespace DestructionScheduler

/-- The calls of a scheduler. -/
inductive Call
  | start (schedules : List Schedule)
  | stop (ids : List Id)
  | event (e : ScheduleEvent)

/-- A call that is completed before the next. `stop()` takes the keys of the map, in any order. -/
def call (accepts : String → Bool) (s : DestructionScheduler) :
    Call → Option DestructionScheduler
  | .start schedules => some (s.start accepts schedules).1
  | .stop ids => if ids.Perm s.scheduled.keys then some (s.stop ids) else none
  | .event e => some (s.listen accepts e).1

/-- What some events come to, if there are no tasks before them. -/
def tasksSince (accepts : String → Bool) (events : List ScheduleEvent) : Id → Option String :=
  events.foldl (taskAfter accepts) fun _ => none

section Calls

variable {accepts : String → Bool} {s t : DestructionScheduler}

theorem WellKept.call (hs : s.WellKept) {c : Call} (hcall : s.call accepts c = some t) :
    t.WellKept := by
  cases c with
  | start schedules =>
    obtain rfl := Option.some.inj hcall
    exact hs.start accepts schedules
  | stop ids =>
    obtain ⟨-, h⟩ := Option.ite_none_right_eq_some.mp hcall
    obtain rfl := Option.some.inj h
    exact hs.stop ids
  | event e =>
    obtain rfl := Option.some.inj hcall
    exact hs.listen accepts e

theorem wellKept_run {cs : List Call} (hrun : run (call accepts) init cs = some s) : s.WellKept :=
  run_inv (fun _ _ _ hcall hu => hu.call hcall) hrun wellKept_init

theorem run_events {events : List ScheduleEvent} (hs : s.WellKept)
    (hrun : run (call accepts) s (events.map .event) = some t) :
    t.tasks = events.foldl (taskAfter accepts) s.tasks ∧ t.running = s.running := by
  induction events generalizing s with
  | nil =>
    obtain rfl : s = t := by simpa using hrun
    exact ⟨rfl, rfl⟩
  | cons e events ih =>
    obtain ⟨u, hu, hrun⟩ := run_cons.mp hrun
    obtain rfl := Option.some.inj hu
    obtain ⟨htasks, hrunning⟩ := ih (hs.listen accepts e) hrun
    rw [hs.tasks_listen] at htasks
    exact ⟨htasks, hrunning.trans (running_listen s accepts e)⟩

theorem tasks_stop_all {ids : List Id} (h : ids.Perm s.scheduled.keys) :
    (s.stop ids).tasks = fun _ => none := by
  funext id
  rw [tasks_stop]
  split_ifs with hid
  · rfl
  · have hnone : s.scheduled.lookup id = none := by
      rw [AList.lookup_eq_none, AList.mem_keys, ← h.mem_iff]
      exact hid
    simp [tasks, hnone]

theorem Filed.lookup_bind (hs : s.Filed) (id : Id) :
    (s.scheduled.lookup id).bind (fun f => s.futures[f]?) =
      (s.tasks id).map fun e => ⟨id, e⟩ := by
  cases h : s.scheduled.lookup id with
  | none => simp [tasks, h]
  | some f =>
    obtain ⟨e, hf, htask⟩ := hs.tasks_eq h
    simp [hf, htask]

/-- **What is scheduled while a scheduler is stopped.** After any calls and a completed `stop()`,
with no `start()` since, a scheduler is not running and its health is down. Whatever schedule
events have arrived since, the map holds just the tasks that these events come to, and the futures
in the map are the live ones. So the map is empty, and no future is live, exactly if the events come
to no task. -/
theorem tasks_while_stopped {cs : List Call} {ids : List Id} {events : List ScheduleEvent}
    (hrun : run (call accepts) init (cs ++ .stop ids :: events.map .event) = some s) :
    s.isRunning = false ∧ s.health = .down ∧
      (∀ id, (s.scheduled.lookup id).bind (fun f => s.futures[f]?) =
        (tasksSince accepts events id).map fun e => ⟨id, e⟩) ∧
      (∀ f, s.Live f ↔ ∃ id, s.scheduled.lookup id = some f) ∧
      ((s.scheduled.keys = [] ∧ ∀ f, ¬ s.Live f) ↔ ∀ id, tasksSince accepts events id = none) := by
  have hkept := wellKept_run hrun
  obtain ⟨u, v, hu, hstop, hevents⟩ := run_middle.mp hrun
  obtain ⟨hperm, hv⟩ := Option.ite_none_right_eq_some.mp hstop
  obtain rfl := Option.some.inj hv
  obtain ⟨htasks, hrunning⟩ := run_events ((wellKept_run hu).stop ids) hevents
  rw [tasks_stop_all hperm] at htasks
  have hrunning : s.running = false := hrunning
  have hmap : ∀ id, (s.scheduled.lookup id).isSome = (tasksSince accepts events id).isSome := by
    intro id
    rw [← hkept.filed.isSome_tasks, htasks]
    rfl
  refine ⟨hrunning, ?_, fun id => ?_, fun f => hkept.live_iff, ?_⟩
  · unfold health
    rw [hrunning]
    rfl
  · rw [hkept.filed.lookup_bind, htasks]
    rfl
  · constructor
    · rintro ⟨hkeys, -⟩ id
      rw [← Option.not_isSome_iff_eq_none, ← hmap, AList.lookup_isSome, AList.mem_keys, hkeys]
      exact List.not_mem_nil
    · intro hnone
      have hempty : ∀ id, s.scheduled.lookup id = none := fun id => by
        rw [← Option.not_isSome_iff_eq_none, hmap, hnone id]
        simp
      refine ⟨List.eq_nil_iff_forall_not_mem.mpr fun id hid => ?_, fun f hf => ?_⟩
      · exact AList.lookup_eq_none.mp (hempty id) (AList.mem_keys.mpr hid)
      · obtain ⟨id, hid⟩ := hkept.live_iff.mp hf
        rw [hempty id] at hid
        cases hid

/-- A schedule is created and deleted again while the scheduler is stopped. -/
theorem tasks_while_stopped_deleted :
    ∃ s, run (call fun _ => true) init ([.start [⟨"0 0 * * * *", 1, "hourly"⟩]] ++ .stop [1] ::
        [.created ⟨"0 0 0 * * *", 2, "daily"⟩, .deleted 2].map Call.event) = some s ∧
      s.futures.length = 2 ∧ s.scheduled.keys = [] ∧ ∀ f, ¬ s.Live f := by
  obtain ⟨s, hrun, hlength⟩ : ∃ s, run (call fun _ => true) init
      ([.start [⟨"0 0 * * * *", 1, "hourly"⟩]] ++ .stop [1] ::
        [.created ⟨"0 0 0 * * *", 2, "daily"⟩, .deleted 2].map Call.event) = some s ∧
      s.futures.length = 2 := ⟨_, rfl, rfl⟩
  refine ⟨s, hrun, hlength, (tasks_while_stopped hrun).2.2.2.2.mpr fun id => ?_⟩
  show Function.update (Function.update (fun _ => none) 2 _) 2 none id = none
  rw [Function.update_idem, Function.update_eq_self]

/-- The scheduler is stopped, and a schedule that is created then gets a live task. -/
theorem scheduled_while_stopped :
    ¬ ∀ (accepts : String → Bool) (cs : List Call) (ids : List Id) (events : List ScheduleEvent)
        (s : DestructionScheduler),
      run (call accepts) init (cs ++ .stop ids :: events.map .event) = some s →
      s.isRunning = false → s.health = .down → s.scheduled.keys = [] ∧ ∀ f, ¬ s.Live f := by
  intro h
  have hempty := h (fun _ => true) [.start []] [] [.created ⟨"0 0 * * * *", 1, "hourly"⟩] _ rfl rfl
    rfl
  exact hempty.2 0 (by decide)

end Calls

end DestructionScheduler

end ChaosLoris
