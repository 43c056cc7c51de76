import ChaosLoris.TakeDown

/-!
# A restart repairs the schedules

The tasks can come apart from the stored schedules while handlers overlap, and they are lost when
the process ends. After a restart `start()` schedules what is stored then, in steps that interleave
with whatever else goes on. Unless a schedule is created, changed or deleted before it has finished,
the tasks are those of the stored schedules again (`restart_repairs_schedules`), whatever they were
before.
-/

namespace ChaosLoris

open FlatMap Keyed Runs

/-- The step is no restart, begins no handler and publishes no event. -/
def System.Calm (s : System) : System.Label → Prop
  | .commit n rollback => ∀ p ∈ s.requests[n]?, (p.1.respondFrom rollback p.2 s.store).2.2 = []
  | .handler (.spawn _) => False
  | .restart => False
  | _ => True

section Calm

variable {accepts : String → Bool} {st snapshot : Store} {r : Request} {rollback : Bool}

theorem schedule_of_no_event (h : (r.respondFrom rollback snapshot st).2.2 = []) :
    (r.respondFrom rollback snapshot st).1.schedule = st.schedule := by
  obtain hsame | ⟨s, -, hexec, hpublished⟩ := respondFrom_issues r rollback snapshot st
  · rw [hsame]
  · rw [h] at hpublished
    generalize (r.respondFrom rollback snapshot st).1 = st' at hexec
    cases exec_eq_some.mp hexec <;> first | rfl | cases hpublished

/-- One step of a thread that is alone with the scheduler. -/
def soloStep (accepts : String → Bool) (p : DestructionScheduler × Thread) (_ : Unit) :
    Option (DestructionScheduler × Thread) := p.2.step accepts p.1

/-- `start()` is on its way, alone, and the schedules are those of the store `st`. -/
def System.Starting (accepts : String → Bool) (schedules : List Schedule) (st : Store)
    (s : System) : Prop :=
  s.store.schedule = st.schedule ∧ ∃ n scheduler thread,
    run (soloStep accepts) (.init, .of (.start schedules)) (List.replicate n ()) =
      some (scheduler, thread) ∧ s.handlers = ⟨scheduler, [thread]⟩

variable {schedules : List Schedule} {s t : System} {x : System.Label}

theorem starting_advance {handlers : Threads} (hs : s.Starting accepts schedules st) {k : ℕ}
    (h : s.handlers.step accepts (.advance k) = some handlers) :
    System.Starting accepts schedules st { s with handlers } := by
  obtain ⟨hschedule, n, scheduler, thread, hrun, hhandlers⟩ := hs
  refine ⟨hschedule, ?_⟩
  rw [hhandlers] at h
  obtain ⟨h', hx, -⟩ | ⟨j, u, u', hj, hu, hstep, hthreads⟩ := Threads.step_cases h
  · cases hx
  · obtain ⟨rfl, rfl⟩ : j = 0 ∧ u = thread := by
      cases j with
      | zero => exact ⟨rfl, (Option.some.inj hu).symm⟩
      | succ j => cases hu
    refine ⟨n + 1, handlers.scheduler, u', ?_, ?_⟩
    · rw [List.replicate_succ']
      exact run_snoc.mpr ⟨_, hrun, hstep⟩
    · obtain ⟨d, l⟩ := handlers
      exact congrArg (Threads.mk d) hthreads

/-- A calm step leaves the start to itself. -/
theorem starting_step (hs : s.Starting accepts schedules st) (hcalm : s.Calm x)
    (h : s.step accepts x = some t) : t.Starting accepts schedules st := by
  cases x with
  | begin r =>
    obtain rfl := Option.some.inj h
    exact hs
  | commit n rollback =>
    obtain ⟨p, hp, rfl⟩ := Option.map_eq_some_iff.mp h
    have hnone := hcalm p hp
    obtain ⟨hschedule, k, scheduler, thread, hrun, hhandlers⟩ := hs
    refine ⟨(schedule_of_no_event hnone).trans hschedule, k, scheduler, thread, hrun, ?_⟩
    dsimp only
    rw [hnone, hhandlers]
    rfl
  | handler y =>
    obtain ⟨handlers, hy, rfl⟩ := Option.map_eq_some_iff.mp h
    cases y with
    | spawn h' => exact hcalm.elim
    | advance k => exact starting_advance hs hy
  | query id behave chaoses =>
    obtain ⟨-, h⟩ := Option.ite_none_right_eq_some.mp h
    obtain rfl := Option.some.inj h
    exact hs
  | signal k y =>
    obtain ⟨e, -, h⟩ := Option.bind_eq_some_iff.mp h
    obtain ⟨⟨d, es⟩, -, h⟩ := Option.bind_eq_some_iff.mp h
    obtain ⟨u, hu, rfl⟩ := Option.map_eq_some_iff.mp h
    exact ⟨(persistAll_schedule hu).trans hs.1, hs.2⟩
  | reap event =>
    simp only [System.step, Option.map_eq_some_iff] at h
    obtain ⟨u, hu, rfl⟩ := h
    cases exec_eq_some.mp hu with
    | deleteEvent => exact ⟨hs.1, hs.2⟩
  | restart => exact hcalm.elim

/-- What the only thread does alone, the system does. -/
theorem run_advance {scheduler scheduler' : DestructionScheduler} {thread thread' : Thread} {n : ℕ}
    (hs : s.handlers = ⟨scheduler, [thread]⟩)
    (hrun : run (soloStep accepts) (scheduler, thread) (List.replicate n ()) =
      some (scheduler', thread')) :
    run (System.step accepts) s (List.replicate n (.handler (.advance 0))) =
      some { s with handlers := ⟨scheduler', [thread']⟩ } := by
  induction n generalizing s scheduler thread with
  | zero =>
    obtain ⟨rfl, rfl⟩ : scheduler = scheduler' ∧ thread = thread' := by simpa using hrun
    rw [← hs]
    rfl
  | succ n ih =>
    obtain ⟨⟨d, u⟩, hu, hrun⟩ := run_cons.mp hrun
    refine run_cons.mpr ⟨{ s with handlers := ⟨d, [u]⟩ }, ?_, ih rfl hrun⟩
    have hstep : s.handlers.step accepts (.advance 0) = some ⟨d, [u]⟩ := by
      rw [hs]
      show (thread.step accepts scheduler).map _ = _
      rw [show thread.step accepts scheduler = some (d, u) from hu]
      rfl
    show (s.handlers.step accepts (.advance 0)).map _ = _
    rw [hstep]
    rfl

/-- The thread of the start can always be brought to its end, and the end is that of `start()`. -/
theorem System.Starting.finish (hs : s.Starting accepts schedules st) :
    (∃ n t, run (System.step accepts) s (List.replicate n (.handler (.advance 0))) = some t ∧
      t.handlers.Quiescent) ∧
    (s.handlers.Quiescent →
      s.handlers.scheduler = (DestructionScheduler.init.start accepts schedules).1) := by
  obtain ⟨-, n, scheduler, thread, hrun, hhandlers⟩ := hs
  have hsolo : Solo accepts .init (.of (.start schedules))
      ((Handler.start schedules).run accepts .init) .finished := solo_handler _
  obtain ⟨m, hsolo⟩ := hsolo
  obtain ⟨k, hrest⟩ := run_replicate_rest hrun hsolo rfl
  constructor
  · exact ⟨k, _, run_advance hhandlers hrest, fun thread hthread => List.mem_singleton.mp hthread⟩
  · intro hquiescent
    obtain rfl : thread = .finished := hquiescent thread (by rw [hhandlers]; simp)
    cases k with
    | zero =>
      obtain ⟨rfl, -⟩ : scheduler = _ ∧ _ := Prod.mk.inj (Option.some.inj hrest)
      rw [hhandlers]
      rfl
    | succ k =>
      obtain ⟨w, hw, -⟩ := run_cons.mp hrest
      cases hw

end Calm

/-- **A restart repairs the schedules.** Take the system in any state, restart it, and let `start()`
begin on what is stored, all of which the scheduler accepts. Let the system run on without another
handler, and without a schedule that is created, changed or deleted. The start can always be brought
to its end; and when it has ended the scheduler is up, and the live tasks are those of the stored
schedules, with the stored expressions. -/
theorem restart_repairs_schedules {accepts : String → Bool} {s t u : System}
    {schedules : List Schedule} {xs : List System.Label}
    (hperm : schedules.Perm s.store.schedules) (hacc : s.store.Accepted accepts)
    (hrestart : run (System.step accepts) s [.restart, .handler (.spawn (.start schedules))] =
      some t)
    (hrun : run (System.step accepts) t xs = some u)
    (hcalm : Along (System.step accepts) System.Calm t xs) :
    (∃ n v, run (System.step accepts) u (List.replicate n (.handler (.advance 0))) = some v ∧
      v.handlers.Quiescent) ∧
    (u.handlers.Quiescent → u.handlers.scheduler.health = .up ∧
      ∀ id e, (∃ f, u.handlers.scheduler.Live f ∧
        u.handlers.scheduler.futures[f]? = some ⟨id, e⟩) ↔ u.store.version id = some e) := by
  have ht : t.Starting accepts schedules s.store := by
    obtain rfl := Option.some.inj hrestart
    exact ⟨rfl, 0, _, _, rfl, rfl⟩
  have hu : u.Starting accepts schedules s.store :=
    run_inv_along (fun _ _ _ hC h hv => starting_step hv hC h) hcalm hrun ht
  obtain ⟨hfinish, hend⟩ := hu.finish
  refine ⟨hfinish, fun hquiescent => ?_⟩
  have hkept := DestructionScheduler.wellKept_init
  have hall : ∀ a ∈ schedules, accepts a.expression = true :=
    fun a ha => accepted_iff.mp hacc a (hperm.mem_iff.mp ha)
  obtain ⟨htasks, hrunning⟩ := hkept.start_spec accepts schedules
  rw [DestructionScheduler.reached_of_all hall] at htasks
  rw [hend hquiescent]
  constructor
  · unfold DestructionScheduler.health
    rw [hrunning, List.all_eq_true.mpr hall, Bool.or_true]
    rfl
  · intro id e
    have hversion : u.store.version = s.store.version := by
      unfold Store.version
      rw [hu.1]
    rw [hversion, ← assign_schedules (Mirror.faithful_stopped s.store.version) rfl hperm,
      ← (hkept.start accepts schedules).tasks_eq_some, htasks]
    rfl

/-- The schedule of `chaosLabels` has no task any more when the system restarts, and has one again.
-/
theorem restart_repairs_schedules_hourly :
    ∃ s t u, run (System.step fun _ => true) .init chaosLabels = some s ∧
      run (System.step fun _ => true) s
        [.restart, .handler (.spawn (.start [⟨"0 0 * * * *", 1, "hourly"⟩]))] = some t ∧
      run (System.step fun _ => true) t (List.replicate 3 (.handler (.advance 0))) = some u ∧
      u.handlers.scheduler.health = .up ∧
      ∃ f, u.handlers.scheduler.Live f ∧
        u.handlers.scheduler.futures[f]? = some ⟨1, "0 0 * * * *"⟩ := by
  obtain ⟨s, t, u, hs, ht, hu, hperm, hversion, hquiescent⟩ : ∃ s t u,
      run (System.step fun _ => true) .init chaosLabels = some s ∧
      run (System.step fun _ => true) s
        [.restart, .handler (.spawn (.start [⟨"0 0 * * * *", 1, "hourly"⟩]))] = some t ∧
      run (System.step fun _ => true) t (List.replicate 3 (.handler (.advance 0))) = some u ∧
      [⟨"0 0 * * * *", 1, "hourly"⟩] = s.store.schedules ∧
      u.store.version 1 = some "0 0 * * * *" ∧ u.handlers.Quiescent :=
    ⟨_, _, _, rfl, rfl, rfl, rfl, rfl, by decide⟩
  have hcalm : Along (System.step fun _ => true) System.Calm t
      (List.replicate 3 (.handler (.advance 0))) :=
    ⟨trivial, fun _ _ => ⟨trivial, fun _ _ => ⟨trivial, fun _ _ => trivial⟩⟩⟩
  obtain ⟨hup, htasks⟩ := (restart_repairs_schedules (.of_eq hperm)
    (accepted_iff.mpr fun _ _ => rfl) ht hu hcalm).2 hquiescent
  exact ⟨s, t, u, hs, ht, hu, hup, (htasks 1 "0 0 * * * *").mpr hversion⟩

end ChaosLoris
