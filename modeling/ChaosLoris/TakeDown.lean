import ChaosLoris.Reaping
import ChaosLoris.Refusals
import ChaosLoris.Resources
import ChaosLoris.Unschedulable

/-!
# Taking a store down

There are no cascades: an entity can be deleted exactly if nothing refers to it, and with it go the
terminated instances of an event and the task of a schedule (`Deleted`). As events refer to
chaoses, and chaoses to schedules and applications, a store can be emptied in that order and in no
other (`taken_down_in_order`).

Requests, runs of destroyers and runs of the reaper are taken one after another here. What holds
between them is that the store is valid and that there are no tasks but those of stored schedules
(`Service.Orderly`).
-/

namespace ChaosLoris

open FlatMap Keyed Runs

/-- `DELETE` of an entity. -/
def Controller.delete : Controller → Id → Request
  | application => .deleteApplication
  | schedule => .deleteSchedule
  | chaos => .deleteChaos
  | event => .deleteEvent

/-- Something refers to the entity. -/
def Store.Referred (st : Store) (k : Controller) (i : Id) : Prop := ∃ k' j, st.Refers k' j k i

/-- The store without an entity. -/
def Store.remove (st : Store) : Controller → Id → Store
  | .application, i => { st with application := st.application.delete i }
  | .schedule, i => { st with schedule := st.schedule.delete i }
  | .chaos, i => { st with chaos := st.chaos.delete i }
  | .event, i =>
    { st with
      event := st.event.delete i
      eventTerminatedInstances := st.eventTerminatedInstances.filter fun r => r.1 ≠ i }

/-! ## The answer to a `DELETE` -/

/-- The statement that deletes an entity. -/
def Controller.deletion : Controller → Id → Statement
  | application => .deleteApplication
  | schedule => .deleteSchedule
  | chaos => .deleteChaos
  | event => .deleteEvent

section Answer

variable {st : Store} {k : Controller} {i : Id}

theorem handle_delete_of_stored (h : st.Stored k i) : (k.delete i).handle st =
    .ok ⟨st, [k.deletion i], (k.deletion i).published st, 204⟩ := by
  cases k with
  | application => exact ApplicationController.delete_eq_ok.mpr ⟨h, rfl⟩
  | schedule => exact ScheduleController.delete_eq_ok.mpr ⟨h, rfl⟩
  | chaos => exact ChaosController.delete_eq_ok.mpr ⟨h, rfl⟩
  | event => exact EventController.delete_eq_ok.mpr ⟨h, rfl⟩

theorem handle_delete_of_absent (h : ¬ st.Stored k i) :
    (k.delete i).handle st = .error .emptyResultDataAccess := by
  cases k with
  | application =>
    have hnone : st.application.find i = none := Option.not_isSome_iff_eq_none.mp h
    simp [Controller.delete, Request.handle, ApplicationController.delete, hnone]
  | schedule =>
    have hnone : st.schedule.find i = none := Option.not_isSome_iff_eq_none.mp h
    simp [Controller.delete, Request.handle, ScheduleController.delete, hnone]
  | chaos =>
    have hnone : st.chaos.find i = none := Option.not_isSome_iff_eq_none.mp h
    simp [Controller.delete, Request.handle, ChaosController.delete, hnone]
  | event =>
    have hnone : st.event.find i = none := Option.not_isSome_iff_eq_none.mp h
    simp [Controller.delete, Request.handle, EventController.delete, hnone]

theorem any_iff_find {ρ : Type*} {t : Table ρ} {f : ρ → Id} :
    (t.any fun _ r => f r = i) = true ↔ ∃ j r, t.find j = some r ∧ f r = i := by
  rw [Table.any_iff]
  simp only [decide_eq_true_eq]

theorem referred_application_iff :
    st.Referred .application i ↔ (st.chaos.any fun _ r => r.applicationId = i) = true := by
  rw [any_iff_find]
  simp [Store.Referred, refers_application_iff]

theorem referred_schedule_iff :
    st.Referred .schedule i ↔ (st.chaos.any fun _ r => r.scheduleId = i) = true := by
  rw [any_iff_find]
  simp [Store.Referred, refers_schedule_iff]

theorem referred_chaos_iff :
    st.Referred .chaos i ↔ (st.event.any fun _ r => r.chaosId = i) = true := by
  rw [any_iff_find]
  simp [Store.Referred, refers_chaos_iff]

theorem not_referred_event : ¬ st.Referred .event i := fun ⟨_, _, h⟩ => not_refers_event h

theorem exec_deletion_of_referred (h : st.Referred k i) : (k.deletion i).exec st = none := by
  cases k with
  | application => exact if_pos (referred_application_iff.mp h)
  | schedule => exact if_pos (referred_schedule_iff.mp h)
  | chaos => exact if_pos (referred_chaos_iff.mp h)
  | event => exact absurd h not_referred_event

theorem exec_deletion_of_free (h : ¬ st.Referred k i) :
    (k.deletion i).exec st = some (st.remove k i) := by
  cases k with
  | application => exact if_neg (mt referred_application_iff.mpr h)
  | schedule => exact if_neg (mt referred_schedule_iff.mpr h)
  | chaos => exact if_neg (mt referred_chaos_iff.mpr h)
  | event => rfl

theorem respond_delete_of_absent (h : ¬ st.Stored k i) (rollback : Bool) :
    (k.delete i).respond rollback st = (st, 404, []) :=
  (Refused.handler _ (handle_delete_of_absent h)).respond

theorem respond_delete_of_referred (h : st.Referred k i) (hstored : st.Stored k i)
    (rollback : Bool) : (k.delete i).respond rollback st = (st, 400, []) := by
  refine (Refused.flush _ (handle_delete_of_stored hstored) ?_).respond
  rw [execAll_singleton, exec_deletion_of_referred h]

theorem respond_delete_of_free (h : ¬ st.Referred k i) (hstored : st.Stored k i) :
    (k.delete i).respond false st = (st.remove k i, 204, (k.deletion i).published st) := by
  refine respond_of_commits (handle_delete_of_stored hstored) ?_
  rw [execAll_singleton, exec_deletion_of_free h]

/-- A `DELETE` succeeds exactly if the entity is stored and nothing refers to it. -/
theorem success_delete_iff : Success ((k.delete i).respond false st).2.1 ↔
    st.Stored k i ∧ ¬ st.Referred k i := by
  by_cases hstored : st.Stored k i
  · by_cases h : st.Referred k i
    · rw [respond_delete_of_referred h hstored]
      exact iff_of_false (show ¬ Success 400 by decide) fun hno => hno.2 h
    · rw [respond_delete_of_free h hstored]
      exact iff_of_true success_noContent ⟨hstored, h⟩
  · rw [respond_delete_of_absent hstored]
    exact iff_of_false (show ¬ Success 404 by decide) fun hno => hstored hno.1

end Answer

/-! ## One activity after another -/

/-- An operation of the service, a run of the destroyer of a schedule, or a run of the reaper. -/
inductive Activity
  | operation (op : Operation)
  | destroy (scheduleId : Id) (behave : Chaos → Behaviour) (chaoses : List Chaos)
      (xs : List (Signal ChaosSignal))
  | reap (limit : Instant) (events : List Id) (deletes : Id → Bool)

/-- One activity, with nothing in between. -/
def Service.act (accepts : String → Bool) (s : Service) : Activity → Option Service
  | .operation op => s.step accepts op
  | .destroy scheduleId behave chaoses xs =>
    (s.store.step (.destroy scheduleId behave chaoses (xs.map .signal))).map fun st =>
      { s with store := st }
  | .reap limit events deletes =>
    (s.store.step (.reap limit events deletes)).map fun st => { s with store := st }

/-- What holds between two activities. -/
structure Service.Orderly (s : Service) : Prop where
  valid : s.store.Valid
  within : s.Within
  kept : s.scheduler.WellKept

section Orderly

variable {accepts : String → Bool} {s t : Service} {behave : Chaos → Behaviour} {st st' : Store}

theorem orderly_init : (Service.init .empty).Orderly where
  valid := valid_empty
  within := fun id e h => by
    simp [Service.init, DestructionScheduler.tasks, DestructionScheduler.init] at h
  kept := DestructionScheduler.wellKept_init

theorem persistAll_schedule {es : List (ℕ × Effect)} (h : persistAll es st = some st') :
    st'.schedule = st.schedule := by
  induction es generalizing st with
  | nil =>
    obtain rfl : st = st' := Option.some.inj h
    rfl
  | cons p es ih =>
    obtain ⟨u, hp, h⟩ := Option.bind_eq_some_iff.mp h
    refine (ih h).trans ?_
    obtain ⟨k, f⟩ := p
    cases f with
    | save e ok =>
      cases ok with
      | true =>
        have hexec : (Statement.insertEvent ⟨e.chaos.id, e.executedAt, e.totalInstanceCount⟩
            e.terminatedInstances).exec st = some u := hp
        cases exec_eq_some.mp hexec with
        | insertEvent row terminatedInstances hchaos hnodup => rfl
      | false =>
        obtain ⟨-, hsame⟩ := Option.ite_none_right_eq_some.mp hp
        rw [Option.some.inj hsame]
    | _ => rw [Option.some.inj hp]

theorem run_signals_schedule {xs : List (Signal ChaosSignal)}
    {p q : Destruction × List (ℕ × Effect)}
    (h : run (logged (Destruction.step behave)) p (xs.map .signal) = some q) :
    q.1.store.schedule = p.1.store.schedule := by
  induction xs generalizing p with
  | nil =>
    obtain rfl : p = q := by simpa using h
    rfl
  | cons x xs ih =>
    obtain ⟨u, hu, h⟩ := run_cons.mp h
    refine (ih h).trans ?_
    obtain ⟨es, hx, -⟩ := logged_eq_some.mp hu
    obtain ⟨r, rollback, heq, -⟩ | ⟨y, -, -, hpersist, -⟩ | ⟨k, i, heq, -⟩ :=
      Destruction.step_cases hx
    · cases heq
    · exact persistAll_schedule hpersist
    · cases heq

theorem Service.Orderly.with_store (hs : s.Orderly) (hst : st.Valid)
    (hschedule : st.schedule = s.store.schedule) : Service.Orderly { s with store := st } where
  valid := hst
  within := by
    intro id e h
    show st.version id = some e
    unfold Store.version
    rw [hschedule]
    exact hs.within id e h
  kept := hs.kept

theorem Service.Orderly.step (hs : s.Orderly) {op : Operation}
    (hstep : s.step accepts op = some t) : t.Orderly := by
  obtain ⟨hwithin, hkept⟩ := hs.within.step hs.kept hstep
  refine ⟨?_, hwithin, hkept⟩
  cases op with
  | start schedules =>
    obtain ⟨-, h⟩ := Option.ite_none_right_eq_some.mp hstep
    obtain rfl := Option.some.inj h
    exact hs.valid
  | stop ids =>
    obtain ⟨-, h⟩ := Option.ite_none_right_eq_some.mp hstep
    obtain rfl := Option.some.inj h
    exact hs.valid
  | request r rollback =>
    obtain rfl := Option.some.inj hstep
    exact (respond_evolves hs.valid r rollback).valid hs.valid

theorem Service.Orderly.act (hs : s.Orderly) {a : Activity} (hact : s.act accepts a = some t) :
    t.Orderly := by
  cases a with
  | operation op => exact hs.step hact
  | destroy scheduleId behave chaoses xs =>
    obtain ⟨st, hst, rfl⟩ := Option.map_eq_some_iff.mp hact
    refine hs.with_store (step_valid hs.valid hst) ?_
    simp only [Store.step, Option.ite_none_right_eq_some, Option.map_eq_some_iff] at hst
    obtain ⟨-, p, hrun, rfl⟩ := hst
    exact run_signals_schedule hrun
  | reap limit events deletes =>
    obtain ⟨st, hst, rfl⟩ := Option.map_eq_some_iff.mp hact
    refine hs.with_store (step_valid hs.valid hst) ?_
    simp only [Store.step, Option.ite_none_right_eq_some, Option.some.injEq] at hst
    obtain ⟨-, rfl⟩ := hst
    rw [EventReaper.doReap_eq]
    rfl

theorem orderly_run {xs : List Activity}
    (hrun : run (Service.act accepts) (.init .empty) xs = some s) : s.Orderly :=
  run_inv (fun _ _ _ hact hu => hu.act hact) hrun orderly_init

end Orderly

/-! ## What a `DELETE` removes -/

/-- The entity is gone, with the terminated instances of an event and the task of a schedule, and
everything else is as it was. -/
structure Deleted (s t : Service) (k : Controller) (i : Id) : Prop where
  application : ∀ j, t.store.application.find j =
    if k = .application ∧ j = i then none else s.store.application.find j
  schedule : ∀ j, t.store.schedule.find j =
    if k = .schedule ∧ j = i then none else s.store.schedule.find j
  chaos : ∀ j, t.store.chaos.find j = if k = .chaos ∧ j = i then none else s.store.chaos.find j
  event : ∀ j, t.store.event.find j = if k = .event ∧ j = i then none else s.store.event.find j
  eventTerminatedInstances : t.store.eventTerminatedInstances =
    if k = .event then s.store.eventTerminatedInstances.filter fun r => r.1 ≠ i
    else s.store.eventTerminatedInstances
  scheduled : ∀ j, t.scheduler.scheduled.lookup j =
    if k = .schedule ∧ j = i then none else s.scheduler.scheduled.lookup j
  live : ∀ f, t.scheduler.Live f ↔
    s.scheduler.Live f ∧ ¬ (k = .schedule ∧ s.scheduler.scheduled.lookup i = some f)
  futures : t.scheduler.futures = s.scheduler.futures
  running : t.scheduler.running = s.scheduler.running

/-- The `DELETE`s of some entities, in order. -/
def deletions (l : List (Controller × Id)) : List Operation :=
  l.map fun p => .request (p.1.delete p.2) false

/-- The operation is not a request that is refused. -/
def Service.Succeeds (s : Service) : Operation → Prop
  | .request r rollback => Success (r.respond rollback s.store).2.1
  | _ => True

/-- The `DELETE`s of some entities, in order, all succeed and lead from `s` to `t`. -/
def DeletesAll (accepts : String → Bool) (s : Service) (l : List (Controller × Id)) (t : Service) :
    Prop :=
  run (Service.step accepts) s (deletions l) = some t ∧
    Along (Service.step accepts) Service.Succeeds s (deletions l)

/-- The ids of the stored entities. -/
def Store.ids (st : Store) : Controller → List Id
  | .application => st.application.toList.map Prod.fst
  | .schedule => st.schedule.toList.map Prod.fst
  | .chaos => st.chaos.toList.map Prod.fst
  | .event => st.event.toList.map Prod.fst

section Deletions

variable {accepts : String → Bool} {s t : Service} {st : Store} {k k' : Controller} {i j : Id}

theorem mem_fst_toList {ρ : Type*} {tb : Table ρ} :
    i ∈ tb.toList.map Prod.fst ↔ (tb.find i).isSome := by
  rw [List.mem_map, Option.isSome_iff_exists]
  constructor
  · rintro ⟨⟨i, r⟩, h, rfl⟩
    exact ⟨r, Table.mem_toList.mp h⟩
  · rintro ⟨r, h⟩
    exact ⟨(i, r), Table.mem_toList.mpr h, rfl⟩

theorem mem_ids : i ∈ st.ids k ↔ st.Stored k i := by
  cases k <;> exact mem_fst_toList

theorem nodup_ids (st : Store) (k : Controller) : (st.ids k).Nodup := by
  cases k <;> exact Table.nodup_ids _

theorem step_delete_of_free (h : ¬ s.store.Referred k i) (hstored : s.store.Stored k i) :
    s.step accepts (.request (k.delete i) false) = some
      ⟨s.store.remove k i,
        s.scheduler.listenAll accepts ((k.deletion i).published s.store)⟩ := by
  show some (Service.mk ((k.delete i).respond false s.store).1
    (s.scheduler.listenAll accepts ((k.delete i).respond false s.store).2.2)) = _
  rw [respond_delete_of_free h hstored]

theorem deleted_of_step (h : ¬ s.store.Referred k i) (hstored : s.store.Stored k i)
    (hstep : s.step accepts (.request (k.delete i) false) = some t) : Deleted s t k i := by
  rw [step_delete_of_free h hstored, Option.some.injEq] at hstep
  subst hstep
  cases k with
  | schedule =>
    show Deleted s ⟨s.store.remove .schedule i, s.scheduler.stopSchedule i⟩ .schedule i
    rw [DestructionScheduler.stopSchedule_eq]
    constructor
    case schedule => simp [Store.remove, Table.find_delete]
    case scheduled =>
      intro j
      split_ifs with hj
      · rw [hj.2]
        exact AList.lookup_erase i s.scheduler.scheduled
      · exact AList.lookup_erase_ne fun hji => hj ⟨rfl, hji⟩
    case live =>
      intro f
      simp [DestructionScheduler.Live, and_assoc]
    all_goals simp [Store.remove]
  | _ =>
    constructor
    all_goals simp [Store.remove, Table.find_delete, DestructionScheduler.listenAll,
      Controller.deletion, Statement.published]

theorem isSome_ite_none {α : Type*} {c : Prop} [Decidable c] {o : Option α} :
    (if c then none else o).isSome ↔ o.isSome ∧ ¬ c := by
  split_ifs with hc <;> simp [hc]

theorem Deleted.stored_iff (h : Deleted s t k i) :
    t.store.Stored k' j ↔ s.store.Stored k' j ∧ ¬ (k = k' ∧ j = i) := by
  cases k' with
  | application =>
    show ((t.store.application.find j).isSome : Prop) ↔ _
    rw [h.application, isSome_ite_none]
    rfl
  | schedule =>
    show ((t.store.schedule.find j).isSome : Prop) ↔ _
    rw [h.schedule, isSome_ite_none]
    rfl
  | chaos =>
    show ((t.store.chaos.find j).isSome : Prop) ↔ _
    rw [h.chaos, isSome_ite_none]
    rfl
  | event =>
    show ((t.store.event.find j).isSome : Prop) ↔ _
    rw [h.event, isSome_ite_none]
    rfl

/-- A `DELETE` leaves no references but old ones. -/
theorem Deleted.refers {k₁ k₂ : Controller} {x y : Id} (h : Deleted s t k i)
    (href : t.store.Refers k₁ x k₂ y) : s.store.Refers k₁ x k₂ y := by
  cases href with
  | application hrow =>
    rw [h.chaos, Option.ite_none_left_eq_some] at hrow
    exact .application hrow.2
  | schedule hrow =>
    rw [h.chaos, Option.ite_none_left_eq_some] at hrow
    exact .schedule hrow.2
  | chaos hrow =>
    rw [h.event, Option.ite_none_left_eq_some] at hrow
    exact .chaos hrow.2

/-- **A group of entities to which nothing refers** can be deleted in any order. -/
theorem delete_group (accepts : String → Bool) {l : List (Controller × Id)} (hs : s.Orderly)
    (hnodup : l.Nodup)
    (hfree : ∀ p ∈ l, s.store.Stored p.1 p.2 ∧ ¬ s.store.Referred p.1 p.2) :
    ∃ t, DeletesAll accepts s l t ∧ t.Orderly ∧
      ∀ k i, t.store.Stored k i ↔ s.store.Stored k i ∧ (k, i) ∉ l := by
  induction l generalizing s with
  | nil => exact ⟨s, ⟨rfl, trivial⟩, hs, by simp⟩
  | cons p l ih =>
    obtain ⟨k, i⟩ := p
    obtain ⟨hnotin, hnodup⟩ := List.nodup_cons.mp hnodup
    obtain ⟨hstored, hfree₀⟩ := hfree (k, i) List.mem_cons_self
    obtain ⟨u, hu⟩ : ∃ u, s.step accepts (.request (k.delete i) false) = some u :=
      ⟨_, step_delete_of_free hfree₀ hstored⟩
    have hdeleted := deleted_of_step hfree₀ hstored hu
    obtain ⟨t, ⟨hrun, halong⟩, ht, hrest⟩ := ih (hs.step hu) hnodup fun q hq => by
      obtain ⟨hq', hfreeq⟩ := hfree q (List.mem_cons_of_mem _ hq)
      refine ⟨hdeleted.stored_iff.mpr ⟨hq', ?_⟩, ?_⟩
      · rintro ⟨rfl, rfl⟩
        exact hnotin hq
      · rintro ⟨k', j, href⟩
        exact hfreeq ⟨k', j, hdeleted.refers href⟩
    refine ⟨t, ⟨run_cons.mpr ⟨u, hu, hrun⟩, (along_cons_some hu).mpr ⟨?_, halong⟩⟩, ht, ?_⟩
    · exact success_delete_iff.mpr ⟨hstored, hfree₀⟩
    · intro k' j
      rw [hrest, hdeleted.stored_iff, List.mem_cons, Prod.mk.injEq, not_or, and_assoc,
        eq_comm (a := k)]

theorem DeletesAll.append {l l' : List (Controller × Id)} {u : Service}
    (h : DeletesAll accepts s l t) (h' : DeletesAll accepts t l' u) :
    DeletesAll accepts s (l ++ l') u := by
  obtain ⟨hrun, halong⟩ := h
  obtain ⟨hrun', halong'⟩ := h'
  unfold DeletesAll deletions
  rw [List.map_append]
  exact ⟨run_append.mpr ⟨t, hrun, hrun'⟩, halong.append hrun halong'⟩

end Deletions

/-- No table has a row. -/
structure Store.Bare (st : Store) : Prop where
  schedule : st.schedule.toList = []
  application : st.application.toList = []
  chaos : st.chaos.toList = []
  event : st.event.toList = []
  eventTerminatedInstances : st.eventTerminatedInstances = []

theorem Store.Valid.bare {st : Store} (hst : st.Valid) (h : ∀ k i, ¬ st.Stored k i) : st.Bare := by
  have hids : ∀ k, st.ids k = [] := fun k =>
    List.eq_nil_iff_forall_not_mem.mpr fun i hi => h k i (mem_ids.mp hi)
  refine ⟨List.map_eq_nil_iff.mp (hids .schedule), List.map_eq_nil_iff.mp (hids .application),
    List.map_eq_nil_iff.mp (hids .chaos), List.map_eq_nil_iff.mp (hids .event), ?_⟩
  rw [List.eq_nil_iff_forall_not_mem]
  intro r hr
  obtain ⟨row, hrow, -⟩ := hst.terminatedInstances.permitted r hr
  exact h .event r.1 (Option.isSome_of_eq_some hrow)

theorem Service.Orderly.no_tasks {s : Service} (hs : s.Orderly)
    (h : ∀ i, ¬ s.store.Stored .schedule i) :
    (∀ i, s.scheduler.scheduled.lookup i = none) ∧ ∀ f, ¬ s.scheduler.Live f := by
  have hnone : ∀ i, s.scheduler.scheduled.lookup i = none := by
    intro i
    rw [← Option.not_isSome_iff_eq_none, ← hs.kept.filed.isSome_tasks]
    intro hsome
    obtain ⟨e, he⟩ := Option.isSome_iff_exists.mp hsome
    have hversion := hs.within i e he
    obtain ⟨row, hrow, -⟩ := Option.map_eq_some_iff.mp hversion
    exact h i (Option.isSome_of_eq_some hrow)
  refine ⟨hnone, fun f hf => ?_⟩
  obtain ⟨i, hi⟩ := hs.kept.live_iff.mp hf
  rw [hnone i] at hi
  cases hi

theorem delete_kind (accepts : String → Bool) {s : Service} {k : Controller} {ids : List Id}
    (hs : s.Orderly) (hids : ∀ i, i ∈ ids ↔ s.store.Stored k i) (hnodup : ids.Nodup)
    (hfree : ∀ i, ¬ s.store.Referred k i) :
    ∃ t, DeletesAll accepts s (ids.map (Prod.mk k)) t ∧ t.Orderly ∧
      ∀ k' i, t.store.Stored k' i ↔ s.store.Stored k' i ∧ k' ≠ k := by
  obtain ⟨t, hdeletes, ht, hstored⟩ := delete_group accepts hs
    (hnodup.map (Prod.mk_right_injective k)) fun p hp => by
      obtain ⟨i, hi, rfl⟩ := List.mem_map.mp hp
      exact ⟨(hids i).mp hi, hfree i⟩
  refine ⟨t, hdeletes, ht, fun k' i => ?_⟩
  rw [hstored, mem_map_mk, hids]
  refine and_congr_right fun hi => not_congr ⟨And.left, ?_⟩
  rintro rfl
  exact ⟨rfl, hi⟩

/-- Events, then chaoses, then schedules and applications. -/
theorem delete_all (accepts : String → Bool) {s : Service} (hs : s.Orderly)
    {events chaoses : List Id} {rest : List (Controller × Id)}
    (hevents : events.Perm (s.store.ids .event)) (hchaoses : chaoses.Perm (s.store.ids .chaos))
    (hrest : rest.Perm ((s.store.ids .schedule).map (Prod.mk .schedule) ++
      (s.store.ids .application).map (Prod.mk .application))) :
    ∃ t, DeletesAll accepts s
        (events.map (Prod.mk .event) ++ chaoses.map (Prod.mk .chaos) ++ rest) t ∧
      t.Orderly ∧ ∀ k i, ¬ t.store.Stored k i := by
  obtain ⟨u, hu, huo, hustored⟩ := delete_kind accepts hs
    (fun i => hevents.mem_iff.trans mem_ids) (hevents.nodup_iff.mpr (nodup_ids _ _))
    fun i => not_referred_event
  obtain ⟨v, hv, hvo, hvstored⟩ : ∃ v, DeletesAll accepts u (chaoses.map (Prod.mk .chaos)) v ∧
      v.Orderly ∧ ∀ k i, v.store.Stored k i ↔ u.store.Stored k i ∧ k ≠ .chaos := by
    refine delete_kind accepts huo (fun i => ?_) (hchaoses.nodup_iff.mpr (nodup_ids _ _)) ?_
    · rw [hchaoses.mem_iff, mem_ids, hustored]
      exact (and_iff_left (by decide)).symm
    · rintro i ⟨k', j, href⟩
      obtain ⟨rfl, -⟩ := refers_chaos_iff.mp href
      exact ((hustored _ _).mp href.stored).2 rfl
  have hmem : ∀ p, p ∈ rest ↔
      (p.1 = .schedule ∨ p.1 = .application) ∧ s.store.Stored p.1 p.2 := by
    rintro ⟨k, i⟩
    rw [hrest.mem_iff, List.mem_append, mem_map_mk, mem_map_mk, mem_ids, mem_ids, or_and_right]
    exact or_congr (and_congr_right fun h => h ▸ Iff.rfl) (and_congr_right fun h => h ▸ Iff.rfl)
  have hnodup : rest.Nodup := by
    rw [hrest.nodup_iff, List.nodup_append]
    refine ⟨(nodup_ids _ _).map (Prod.mk_right_injective _),
      (nodup_ids _ _).map (Prod.mk_right_injective _), ?_⟩
    rintro ⟨k, i⟩ hp q hq rfl
    cases (mem_map_mk.mp hp).1.symm.trans (mem_map_mk.mp hq).1
  have hstored : ∀ k i, v.store.Stored k i ↔ s.store.Stored k i ∧ k ≠ .event ∧ k ≠ .chaos := by
    intro k i
    rw [hvstored, hustored, and_assoc]
  have hfree : ∀ p ∈ rest, v.store.Stored p.1 p.2 ∧ ¬ v.store.Referred p.1 p.2 := by
    rintro ⟨k, i⟩ hp
    obtain ⟨hk, hp⟩ := (hmem _).mp hp
    have hkinds : k ≠ .event ∧ k ≠ .chaos := by
      rcases hk with rfl | rfl <;> decide
    refine ⟨(hstored k i).mpr ⟨hp, hkinds⟩, ?_⟩
    rintro ⟨k', j, href⟩
    have hfrom := ((hstored k' j).mp href.stored).2
    cases href with
    | chaos h => exact hfrom.1 rfl
    | _ => exact hfrom.2 rfl
  obtain ⟨t, ht, hto, htstored⟩ := delete_group accepts hvo hnodup hfree
  refine ⟨t, (hu.append hv).append ht, hto, fun k i hki => ?_⟩
  obtain ⟨hki, hnot⟩ := (htstored k i).mp hki
  obtain ⟨hki, hevent, hchaos⟩ := (hstored k i).mp hki
  refine hnot ((hmem _).mpr ⟨?_, hki⟩)
  cases k with
  | application => exact Or.inr rfl
  | schedule => exact Or.inl rfl
  | chaos => exact absurd rfl hchaos
  | event => exact absurd rfl hevent

/-- **A store can be taken down in dependency order, and only in that order.** Let requests, starts
and stops, runs of destroyers and runs of the reaper follow one another in any way. Then a `DELETE`
succeeds exactly if its entity is stored and nothing refers to it, and removes just that. And the
`DELETE`s of all events, of all chaoses, and of all schedules and applications, in any order in each
of these groups, all succeed, and leave no row in any table and no live task. -/
theorem taken_down_in_order {accepts : String → Bool} {xs : List Activity} {s : Service}
    (hreach : run (Service.act accepts) (.init .empty) xs = some s) :
    (∀ k i, (Success ((k.delete i).respond false s.store).2.1 ↔
        s.store.Stored k i ∧ ¬ s.store.Referred k i) ∧
      ∀ t, Success ((k.delete i).respond false s.store).2.1 →
        s.step accepts (.request (k.delete i) false) = some t → Deleted s t k i) ∧
    ∀ (events chaoses : List Id) (rest : List (Controller × Id)),
      events.Perm (s.store.ids .event) → chaoses.Perm (s.store.ids .chaos) →
      rest.Perm ((s.store.ids .schedule).map (Prod.mk .schedule) ++
        (s.store.ids .application).map (Prod.mk .application)) →
      ∃ t, DeletesAll accepts s
          (events.map (Prod.mk .event) ++ chaoses.map (Prod.mk .chaos) ++ rest) t ∧
        t.store.Bare ∧ (∀ i, t.scheduler.scheduled.lookup i = none) ∧
        ∀ f, ¬ t.scheduler.Live f := by
  have hs := orderly_run hreach
  constructor
  · intro k i
    refine ⟨success_delete_iff, fun t hsuccess hstep => ?_⟩
    obtain ⟨hstored, hfree⟩ := success_delete_iff.mp hsuccess
    exact deleted_of_step hfree hstored hstep
  · intro events chaoses rest hevents hchaoses hrest
    obtain ⟨t, ht, hto, hnone⟩ := delete_all accepts hs hevents hchaoses hrest
    exact ⟨t, ht, hto.valid.bare hnone, hto.no_tasks fun i => hnone .schedule i⟩

/-- A chaos is created, the scheduler is started, and the schedule fires once. -/
def firedActivities : List Activity :=
  [.operation (.request (.createApplication (some 1)) false),
    .operation (.request (.createSchedule ⟨some "0 0 * * * *", some "hourly"⟩) false),
    .operation (.request (.createChaos ⟨some "/applications/1", some 1, some "/schedules/1"⟩) false),
    .operation (.start [⟨"0 0 * * * *", 1, "hourly"⟩]),
    .destroy 1 (fun _ => spareFirst) [certainChaos]
      (signals (hourlySignals (.deleteApplication 1) true))]

theorem taken_down_in_order_fired :
    ∃ s t, run (Service.act fun _ => true) (.init .empty) firedActivities = some s ∧
      s.scheduler.Live 1 ∧ s.store.eventTerminatedInstances = [(1, 1)] ∧
      DeletesAll (fun _ => true) s
        [(.event, 1), (.chaos, 1), (.application, 1), (.schedule, 1)] t ∧
      t.store.Bare ∧ ∀ f, ¬ t.scheduler.Live f := by
  obtain ⟨s, hreach, hlive, hterminated, hevents, hchaoses, hrest⟩ :
      ∃ s, run (Service.act fun _ => true) (.init .empty) firedActivities = some s ∧
        s.scheduler.Live 1 ∧ s.store.eventTerminatedInstances = [(1, 1)] ∧
        [1].Perm (s.store.ids .event) ∧ [1].Perm (s.store.ids .chaos) ∧
        [(Controller.application, 1), (Controller.schedule, 1)].Perm
          ((s.store.ids .schedule).map (Prod.mk .schedule) ++
            (s.store.ids .application).map (Prod.mk .application)) :=
    ⟨_, rfl, by decide, rfl, List.Perm.of_eq rfl, List.Perm.of_eq rfl, List.Perm.swap _ _ _⟩
  obtain ⟨t, hdeletes, hbare, -, hnone⟩ :=
    (taken_down_in_order hreach).2 [1] [1] _ hevents hchaoses hrest
  exact ⟨s, t, hreach, hlive, hterminated, hdeletes, hbare, hnone⟩

end ChaosLoris
