import ChaosLoris.Service

/-!
# Expressions the scheduler does not accept

An expression is first parsed when its task is scheduled, after the commit. A `POST` or `PATCH`
with an expression that `CronTrigger` rejects is answered like any other
(`unschedulable_refused_iff`), and once it is committed its schedule has no task: that of the
expression before it has been cancelled (`committed_unschedulable`). Such a schedule ends the next
`start()` where it stands (`started_up_iff`).
-/

namespace ChaosLoris

open Runs

/-! ## Requests -/

/-- The expression of the schedule that a request asks for. -/
def Request.resulting (st : Store) : Request → Option String
  | .createSchedule input => input.expression
  | .updateSchedule id input => input.expression.or (st.version id)
  | _ => none

/-- A row can be stored under the id. -/
def Store.Admits (st : Store) (id : Id) (row : ScheduleRow) : Prop :=
  row.fits = true ∧ st.nameTaken id row.name = false

/-- The request is refused, whatever its expression means. -/
def Request.RefusedAnyway (st : Store) : Request → Prop
  | .createSchedule ⟨some expression, some name⟩ => ¬ st.Admits st.schedule.next ⟨name, expression⟩
  | .createSchedule _ => True
  | .updateSchedule id input => ∀ row, st.schedule.find id = some row →
      input.apply row ≠ row ∧ ¬ st.Admits id (input.apply row)
  | _ => False

/-- The request is refused with a client error, and nothing else has happened. -/
def RefusedAtomically (accepts : String → Bool) (s : Service) (r : Request) (rollback : Bool) :
    Prop :=
  (400 ≤ (r.respond rollback s.store).2.1 ∧ (r.respond rollback s.store).2.1 < 500) ∧
    ∀ t, s.step accepts (.request r rollback) = some t →
      t.store = s.store ∧ t.scheduler.scheduled = s.scheduler.scheduled ∧
        ∀ f, t.scheduler.Live f ↔ s.scheduler.Live f

section Respond

variable {accepts : String → Bool} {s t : Service} {st : Store} {r : Request} {rollback : Bool}
  {e : String}

theorem respond_of_refused (rollback : Bool) (he : r.resulting st = some e)
    (h : r.RefusedAnyway st) :
    ∃ status, r.respond rollback st = (st, status, []) ∧ 400 ≤ status ∧ status < 500 := by
  cases r with
  | createSchedule input =>
    obtain ⟨expression, name⟩ := input
    cases expression with
    | none => cases he
    | some expression =>
      cases name with
      | none => exact ⟨400, rfl, by decide, by decide⟩
      | some name =>
        have hexec : (Statement.insertSchedule ⟨name, expression⟩).exec st = none := if_neg h
        refine ⟨400, ?_, by decide, by decide⟩
        rw [respond_createSchedule, hexec]
  | updateSchedule id input =>
    cases hid : st.schedule.find id with
    | none =>
      -- the expression is that of the request, so a setter is called
      have hsome : input.expression = some e := by
        simpa [Request.resulting, Store.version, hid] using he
      refine ⟨404, ?_, by decide, by decide⟩
      simp [Request.respond, Request.handle, ScheduleController.update, hid, hsome, proxyFailure,
        Failure.status]
    | some row =>
      obtain ⟨hne, hrow⟩ := h row hid
      have hexec : (Statement.updateSchedule id (input.apply row)).exec st = none := if_neg hrow
      refine ⟨400, ?_, by decide, by decide⟩
      rw [respond_updateSchedule input rollback hid, if_neg hne, hexec]
  | _ => cases he

theorem apply_expression {input : ScheduleUpdateInput} {row : ScheduleRow} {id : Id}
    (hid : st.schedule.find id = some row)
    (he : (Request.updateSchedule id input).resulting st = some e) :
    (input.apply row).expression = e := by
  simp only [Request.resulting, Store.version, hid, Option.map_some] at he
  cases hexp : input.expression <;> simpa [ScheduleUpdateInput.apply, hexp] using he

/-- A request that is not refused anyway is answered with success, unless its commit fails, and
tells the listeners of the expression. -/
theorem respond_of_not_refused (rollback : Bool) (he : r.resulting st = some e)
    (h : ¬ r.RefusedAnyway st) :
    ∃ st' status event, r.respond rollback st =
        (if rollback then (st, 500, []) else (st', status, [event])) ∧
      (status = 201 ∨ status = 204) ∧ event.version = some e := by
  cases r with
  | createSchedule input =>
    obtain ⟨expression, name⟩ := input
    cases expression with
    | none => cases he
    | some expression =>
      cases name with
      | none => exact absurd trivial h
      | some name =>
        have hexec : (Statement.insertSchedule ⟨name, expression⟩).exec st =
            some { st with schedule := st.schedule.insert ⟨name, expression⟩ } :=
          if_pos (not_not.mp h)
        have hr := respond_createSchedule st expression name rollback
        rw [hexec] at hr
        exact ⟨_, 201, _, hr, Or.inl rfl, he⟩
  | updateSchedule id input =>
    cases hid : st.schedule.find id with
    | none =>
      refine absurd (fun row hrow => ?_) h
      rw [hid] at hrow
      cases hrow
    | some row =>
      have hr := respond_updateSchedule input rollback hid
      have hversion := congrArg some (apply_expression hid he)
      by_cases hne : input.apply row = row
      · rw [if_pos hne] at hr
        exact ⟨_, 204, _, hr, Or.inr rfl, hversion⟩
      · have hadmits : st.Admits id (input.apply row) := by
          by_contra hnot
          refine h fun row' hrow' => ?_
          obtain rfl : row = row' := Option.some.inj (hid.symm.trans hrow')
          exact ⟨hne, hnot⟩
        have hexec : (Statement.updateSchedule id (input.apply row)).exec st =
            some { st with schedule := st.schedule.set id (input.apply row) } := if_pos hadmits
        rw [if_neg hne, hexec] at hr
        exact ⟨_, 204, _, hr, Or.inr rfl, hversion⟩
  | _ => cases he

/-- **A rejected expression is no reason to refuse a request.** Whether or not the scheduler accepts
the expression of a `POST` or `PATCH`, the request is refused without a trace if and only if it
would be refused anyway: for want of a name, an id that is not there, a name that is taken, or a
text that does not fit its column. -/
theorem unschedulable_refused_iff (he : r.resulting s.store = some e) :
    RefusedAtomically accepts s r rollback ↔ r.RefusedAnyway s.store := by
  constructor
  · rintro ⟨⟨hlow, hhigh⟩, -⟩
    by_contra h
    obtain ⟨st', status, event, hr, hstatus, -⟩ :=
      respond_of_not_refused rollback he h
    rw [hr] at hlow hhigh
    cases rollback with
    | true =>
      simp only [if_true] at hhigh
      exact absurd hhigh (by decide)
    | false =>
      simp only [Bool.false_eq_true, if_false] at hlow
      rcases hstatus with rfl | rfl <;> exact absurd hlow (by decide)
  · intro h
    obtain ⟨status, hr, hlow, hhigh⟩ := respond_of_refused rollback he h
    rw [RefusedAtomically, hr]
    refine ⟨⟨hlow, hhigh⟩, fun t ht => ?_⟩
    simp only [Service.step, hr, Option.some.injEq] at ht
    subst ht
    exact ⟨rfl, rfl, fun f => Iff.rfl⟩

/-- A schedule is created, and the scheduler started. -/
def startedOperations : List Operation :=
  [.request (.createSchedule ⟨some "0 0 * * * *", some "hourly"⟩) false,
    .start [⟨"0 0 * * * *", 1, "hourly"⟩]]

/-- A rejected expression under a name that is taken. -/
theorem unschedulable_refused_iff_taken :
    ∃ s, run (Service.step sixFields) (.init .empty) startedOperations = some s ∧
      RefusedAtomically sixFields s (.createSchedule ⟨some "every hour", some "hourly"⟩) false :=
  ⟨_, rfl, (unschedulable_refused_iff rfl).mpr fun h => absurd h.2 (by decide)⟩

/-- A `PATCH` to a rejected expression succeeds. -/
theorem unschedulable_not_refused :
    ¬ ∀ (accepts : String → Bool) (ops : List Operation) (s : Service) (r : Request) (e : String),
      run (Service.step accepts) (.init .empty) ops = some s →
      r.resulting s.store = some e → accepts e = false → RefusedAtomically accepts s r false := by
  intro h
  have hpatch := h sixFields startedOperations _ (.updateSchedule 1 ⟨some "every hour", none⟩)
    "every hour" rfl rfl (by decide)
  exact absurd hpatch.1.1 (by decide)

end Respond

/-! ## Tasks without assumptions on the table -/

section Within

variable {accepts : String → Bool} {s t : Service} {st st' : Store} {r : Request}
  {rollback : Bool} {e : String}

/-- Every task in the map is of a stored schedule, with its stored expression. -/
def Service.Within (s : Service) : Prop :=
  ∀ id e, s.scheduler.tasks id = some e → s.store.version id = some e

/-- A listener leaves its schedule with the task of the new version, if that is accepted. Only the
listener for a creation leaves a task alone if it is not. -/
theorem DestructionScheduler.WellKept.listen_cases {d : DestructionScheduler} (hd : d.WellKept)
    (accepts : String → Bool) (event : ScheduleEvent) :
    (d.listen accepts event).1.tasks =
        Function.update d.tasks event.id (event.version.filter accepts) ∨
      (∃ a, event = .created a ∧ accepts a.expression = false) ∧
        (d.listen accepts event).1.tasks = d.tasks := by
  rw [hd.tasks_listen]
  cases event with
  | created a =>
    cases ha : accepts a.expression with
    | true =>
      left
      simp [taskAfter, ScheduleEvent.id, ScheduleEvent.version, Option.filter, ha]
    | false =>
      right
      exact ⟨⟨a, rfl, ha⟩, if_neg (ha ▸ Bool.false_ne_true)⟩
  | updated a =>
    left
    rfl
  | deleted id =>
    left
    rfl

theorem respond_created {status : Status} {events : List ScheduleEvent} {a : Schedule}
    (h : r.respond rollback st = (st', status, events)) (ha : .created a ∈ events) :
    st.version a.id = none := by
  obtain ⟨-, rfl⟩ | ⟨x, -, -, rfl⟩ | ⟨-, rfl | ⟨id, row, -, rfl⟩⟩ := respond_cases h
  · simp at ha
  · cases x <;> simp [Statement.published] at ha
    simp [ha, ScheduleRow.entity, Store.version]
  · simp at ha
  · simp at ha

/-- A start sets tasks of stored schedules only. -/
theorem version_of_assign {tasks : Id → Option String} {schedules : List Schedule} {id : Id}
    (hperm : schedules.Perm st.schedules)
    (h : DestructionScheduler.assign tasks (DestructionScheduler.reached accepts schedules) id =
      some e) : st.version id = some e ∨ tasks id = some e := by
  have hsub : (DestructionScheduler.reached accepts schedules).Sublist schedules :=
    List.takeWhile_sublist _
  have hnodup : (schedules.map Schedule.id).Nodup :=
    (hperm.map Schedule.id).nodup_iff.mpr (nodup_schedule_ids st)
  by_cases hid : id ∈ (DestructionScheduler.reached accepts schedules).map Schedule.id
  · obtain ⟨a, ha, rfl⟩ := List.mem_map.mp hid
    rw [DestructionScheduler.assign_of_mem ((hsub.map _).nodup hnodup) ha] at h
    rw [← h]
    exact Or.inl (version_of_mem (hperm.mem_iff.mp (hsub.subset ha)))
  · rw [DestructionScheduler.assign_of_notMem hid] at h
    exact Or.inr h

/-- A listener leaves no task that the commit before it has made obsolete. -/
theorem version_of_listen {d : DestructionScheduler} {event : ScheduleEvent} {id : Id}
    (hd : d.WellKept) (hwithin : ∀ i x, d.tasks i = some x → st.version i = some x)
    (hst : st'.version = Function.update st.version event.id event.version)
    (hnew : ∀ a, event = .created a → st.version a.id = none)
    (h : (d.listen accepts event).1.tasks id = some e) : st'.version id = some e := by
  rw [hst]
  obtain hlisten | ⟨⟨a, rfl, -⟩, hlisten⟩ := hd.listen_cases accepts event
  · rw [hlisten] at h
    by_cases hid : id = event.id
    · subst hid
      rw [Function.update_self] at h ⊢
      exact (Option.filter_eq_some_iff.mp h).1
    · rw [Function.update_of_ne hid] at h ⊢
      exact hwithin id e h
  · rw [hlisten] at h
    have hold := hwithin id e h
    have hid : id ≠ a.id := by
      rintro rfl
      rw [hnew a rfl] at hold
      cases hold
    exact (Function.update_of_ne hid _ _).trans hold

theorem Service.Within.step {op : Operation} (h : s.Within) (hkept : s.scheduler.WellKept)
    (hstep : s.step accepts op = some t) : t.Within ∧ t.scheduler.WellKept := by
  cases op with
  | start schedules =>
    simp only [Service.step, Option.ite_none_right_eq_some, Option.some.injEq] at hstep
    obtain ⟨hperm, rfl⟩ := hstep
    refine ⟨fun id e htask => ?_, hkept.start accepts schedules⟩
    rw [(hkept.start_spec accepts schedules).1] at htask
    rcases version_of_assign hperm htask with hversion | hold
    · exact hversion
    · exact h id e hold
  | stop ids =>
    simp only [Service.step, Option.ite_none_right_eq_some, Option.some.injEq] at hstep
    obtain ⟨-, rfl⟩ := hstep
    refine ⟨fun id e htask => ?_, hkept.stop ids⟩
    rw [DestructionScheduler.tasks_stop, Option.ite_none_left_eq_some] at htask
    exact h id e htask.2
  | request r rollback =>
    obtain ⟨st, status, events, hr⟩ : ∃ st status events, r.respond rollback s.store =
        (st, status, events) := ⟨_, _, _, rfl⟩
    simp only [Service.step, hr, Option.some.injEq] at hstep
    subst hstep
    rcases respond_version hr with ⟨rfl, hst⟩ | ⟨event, rfl, hst⟩
    · refine ⟨fun id e htask => ?_, hkept⟩
      show Store.version st id = some e
      unfold Store.version
      rw [hst]
      exact h id e htask
    · refine ⟨fun id e htask => version_of_listen hkept h hst (fun a ha => ?_) htask,
        hkept.listen accepts event⟩
      exact respond_created hr (ha ▸ List.mem_singleton_self _)

/-- Whatever expressions are stored, every task is that of a stored schedule. -/
theorem tasks_within_table {ops : List Operation}
    (hrun : run (Service.step accepts) (.init st) ops = some s) :
    s.Within ∧ s.scheduler.WellKept := by
  refine run_inv (P := fun u => u.Within ∧ u.scheduler.WellKept) ?_ hrun
    ⟨fun id e h => by simp [Service.init, DestructionScheduler.tasks, DestructionScheduler.init] at h,
      DestructionScheduler.wellKept_init⟩
  rintro u op v hstep ⟨hu, hkept⟩
  exact hu.step hkept hstep

/-- What becomes of a rejected expression that is not refused anyway: it is stored, the response
is a success, and its schedule is left without a task. -/
theorem committed_unschedulable (hwithin : s.Within) (hkept : s.scheduler.WellKept)
    (he : r.resulting s.store = some e) (hrej : accepts e = false)
    (h : ¬ r.RefusedAnyway s.store) (hstep : s.step accepts (.request r false) = some t) :
    (r.respond false s.store).2.1 < 300 ∧
      ∃ id, t.store.version id = some e ∧ t.scheduler.tasks id = none := by
  obtain ⟨st', status, event, hr, hstatus, hversion⟩ :=
    respond_of_not_refused false he h
  rw [if_neg Bool.false_ne_true] at hr
  have ht := (hwithin.step hkept hstep).1
  simp only [Service.step, hr, Option.some.injEq] at hstep
  subst hstep
  obtain ⟨hnil, -⟩ | ⟨event', hevent, hst⟩ := respond_version hr
  · cases hnil
  obtain rfl : event = event' := by simpa using hevent
  have hsuccess : status < 300 := by rcases hstatus with rfl | rfl <;> decide
  refine ⟨?_, event.id, ?_, ?_⟩
  · rw [hr]
    exact hsuccess
  · show st'.version event.id = some e
    rw [hst, Function.update_self, hversion]
  · show (s.scheduler.listen accepts event).1.tasks event.id = none
    obtain hlisten | ⟨⟨a, rfl, -⟩, hlisten⟩ := hkept.listen_cases accepts event
    · rw [hlisten, Function.update_self, hversion]
      simp [Option.filter, hrej]
    · rw [hlisten]
      cases htask : s.scheduler.tasks a.id with
      | none => exact htask
      | some x =>
        have hold := hwithin a.id x htask
        rw [respond_created hr (List.mem_singleton_self _)] at hold
        cases hold

end Within

/-! ## Startup -/

/-- The service is running, and every stored schedule with an accepted expression has one live
task, which is in the map and has that expression. -/
def Service.StartedUp (accepts : String → Bool) (s : Service) : Prop :=
  s.scheduler.isRunning = true ∧
    ∀ id e, s.store.version id = some e → accepts e = true →
      ∃ f, s.scheduler.scheduled.lookup id = some f ∧ s.scheduler.Live f ∧
        s.scheduler.futures[f]? = some ⟨id, e⟩ ∧
        ∀ g, s.scheduler.Live g → s.scheduler.futures[g]?.map Task.destroyer = some id → g = f

section Startup

variable {accepts : String → Bool} {s t : Service} {st : Store} {ops : List Operation}
  {schedules : List Schedule}

theorem DestructionScheduler.WellKept.live_of_tasks {d : DestructionScheduler} (hd : d.WellKept)
    {id : Id} {e : String} (h : d.tasks id = some e) :
    ∃ f, d.scheduled.lookup id = some f ∧ d.Live f ∧ d.futures[f]? = some ⟨id, e⟩ ∧
      ∀ g, d.Live g → d.futures[g]?.map Task.destroyer = some id → g = f := by
  obtain ⟨f, hf, -⟩ := Option.bind_eq_some_iff.mp h
  obtain ⟨e', he', htask⟩ := hd.filed.tasks_eq hf
  obtain rfl : e = e' := Option.some.inj (h.symm.trans htask)
  have hlive : d.Live f := hd.live_iff.mpr ⟨id, hf⟩
  refine ⟨f, hf, hlive, he', fun g hg hid => hd.live_unique hg hlive ?_⟩
  rw [hid, he']
  rfl

/-- **Startup.** Whatever has happened before, a `start()` of a service that is not running starts
up every accepted schedule and the service itself if and only if all stored expressions are
accepted, in whatever order the schedules are found. -/
theorem started_up_iff (hrun : run (Service.step accepts) (.init st) ops = some s)
    (hstopped : s.scheduler.isRunning = false)
    (hstart : s.step accepts (.start schedules) = some t) :
    t.StartedUp accepts ↔ t.store.Accepted accepts := by
  obtain ⟨-, hkept⟩ := tasks_within_table hrun
  simp only [Service.step, Option.ite_none_right_eq_some, Option.some.injEq] at hstart
  obtain ⟨hperm, rfl⟩ := hstart
  obtain ⟨htasks, hrunning⟩ := hkept.start_spec accepts schedules
  rw [show s.scheduler.running = false from hstopped, Bool.false_or] at hrunning
  have hall : (∀ a ∈ schedules, accepts a.expression = true) ↔ s.store.Accepted accepts := by
    rw [accepted_iff]
    exact forall_congr' fun a => by rw [hperm.mem_iff]
  constructor
  · rintro ⟨hup, -⟩
    have hup : (s.scheduler.start accepts schedules).1.running = true := hup
    rw [hrunning, List.all_eq_true] at hup
    exact hall.mp hup
  · intro hacc
    have hacc' := hall.mpr hacc
    rw [DestructionScheduler.reached_of_all hacc'] at htasks
    refine ⟨hrunning.trans (List.all_eq_true.mpr hacc'), fun id e he _ => ?_⟩
    refine (hkept.start accepts schedules).live_of_tasks ?_
    obtain ⟨a, ha, rfl⟩ := List.mem_map.mp (mem_schedule_ids.mpr (Option.isSome_of_mem he))
    rw [htasks, DestructionScheduler.assign_of_mem
      ((hperm.map Schedule.id).nodup_iff.mpr (nodup_schedule_ids s.store)) (hperm.mem_iff.mpr ha)]
    exact (version_of_mem ha).symm.trans he

/-- A start on what `startedOperations` starts on. -/
theorem started_up_iff_hourly :
    ∃ t, run (Service.step sixFields) (.init .empty) startedOperations = some t ∧
      t.StartedUp sixFields := by
  obtain ⟨s, hrun, t, hstart, hstopped, hacc⟩ : ∃ s, run (Service.step sixFields) (.init .empty)
      (startedOperations.take 1) = some s ∧ ∃ t,
        s.step sixFields (.start [⟨"0 0 * * * *", 1, "hourly"⟩]) = some t ∧
        s.scheduler.isRunning = false ∧ t.store.Accepted sixFields :=
    ⟨_, rfl, _, rfl, rfl, by decide⟩
  exact ⟨t, run_append.mpr ⟨s, hrun, run_cons.mpr ⟨t, hstart, rfl⟩⟩,
    (started_up_iff hrun hstopped hstart).mpr hacc⟩

/-- A schedule whose expression is rejected, and then one whose expression is not. -/
def blockedOperations : List Operation :=
  [.request (.createSchedule ⟨some "every hour", some "rejected"⟩) false,
    .request (.createSchedule ⟨some "0 0 * * * *", some "hourly"⟩) false]

/-- A stored expression that is rejected blocks a startup on the table. -/
theorem startup_blocked :
    ¬ ∀ (accepts : String → Bool) (ops : List Operation) (s t : Service)
        (schedules : List Schedule),
      run (Service.step accepts) (.init .empty) ops = some s →
      (Service.init s.store).step accepts (.start schedules) = some t → t.StartedUp accepts := by
  intro h
  have hup := h sixFields blockedOperations _ _
    [⟨"every hour", 1, "rejected"⟩, ⟨"0 0 * * * *", 2, "hourly"⟩] rfl rfl
  exact absurd hup.1 (by decide)

end Startup

end ChaosLoris
