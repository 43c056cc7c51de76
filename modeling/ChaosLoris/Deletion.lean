import ChaosLoris.Targets

/-!
# Deleted schedules

A schedule is deleted only when no chaos refers to it, and from then on none can be created that
does, so its destroyer finds nothing (`Store.Gone.findByScheduleId`). What the scheduler has made
of its task does not matter: a future that has not been cancelled, or has been put back by a
handler that came late, still runs, and makes no call (`deleted_schedule_is_harmless`).
-/

namespace ChaosLoris

open FlatMap Runs Keyed

/-- The id is that of a schedule that was stored once and is not stored any more. -/
def Store.Gone (st : Store) (scheduleId : Id) : Prop :=
  st.schedule.find scheduleId = none ∧ scheduleId < st.schedule.next

section Gone

variable {st st' : Store} {scheduleId : Id}

theorem Store.Gone.exec {s : Statement} (hexec : s.exec st = some st') (h : st.Gone scheduleId) :
    st'.Gone scheduleId := by
  obtain ⟨hnone, hlt⟩ := h
  cases exec_eq_some.mp hexec with
  | insertSchedule row _ _ =>
    refine ⟨?_, hlt.trans (Int.lt_add_one_of_le le_rfl)⟩
    show (st.schedule.insert row).find scheduleId = none
    rw [Table.find_insert, if_neg (Int.ne_of_lt hlt), hnone]
  | updateSchedule id row _ _ =>
    refine ⟨?_, ?_⟩
    · show (st.schedule.set id row).find scheduleId = none
      rw [Table.find_set, if_neg, hnone]
      rintro ⟨rfl, hsome⟩
      simp [hnone] at hsome
    · show scheduleId < (st.schedule.set id row).next
      rwa [Table.next_set]
  | deleteSchedule id _ =>
    refine ⟨?_, hlt⟩
    show (st.schedule.delete id).find scheduleId = none
    rw [Table.find_delete, hnone, ite_self]
  | _ => exact ⟨hnone, hlt⟩

theorem Store.Gone.evolves (h : st.Gone scheduleId) (hst : Evolves st st') : st'.Gone scheduleId :=
  hst.keeps (P := fun u => u.Gone scheduleId) (fun _ _ _ _ hexec hu => hu.exec hexec) h

theorem Store.Gone.findByScheduleId (h : st.Gone scheduleId) (hst : st.Valid) :
    st.findByScheduleId scheduleId = [] := by
  unfold Store.findByScheduleId
  rw [List.filterMap_eq_nil_iff]
  rintro ⟨id, row⟩ hrow
  refine if_neg fun hid => ?_
  have hsome := hst.schedules id row (Table.mem_toList.mp hrow)
  rw [hid, h.1] at hsome
  cases hsome

/-- A `DELETE` that is answered with success has found the schedule and removed it. -/
theorem gone_of_deleteSchedule {snapshot : Store} {rollback : Bool}
    (hnext : snapshot.schedule.next ≤ st.schedule.next)
    (hstatus : ((Request.deleteSchedule scheduleId).respondFrom rollback snapshot st).2.1 = 204) :
    ((Request.deleteSchedule scheduleId).respondFrom rollback snapshot st).1.Gone scheduleId := by
  obtain ⟨tx, st', h, hexec, heq⟩ | ⟨status, hrefused, heq⟩ :=
    respondFrom_cases (r := .deleteSchedule scheduleId) rfl rollback snapshot st
  · rw [heq]
    obtain ⟨hstored, rfl⟩ := ScheduleController.delete_eq_ok.mp h
    obtain ⟨row, hrow⟩ := Option.isSome_iff_exists.mp hstored
    rw [execAll_singleton] at hexec
    show st'.Gone scheduleId
    cases exec_eq_some.mp hexec with
    | deleteSchedule _ hfree =>
      refine ⟨?_, (Table.lt_of_find hrow).trans_le hnext⟩
      show (st.schedule.delete scheduleId).find scheduleId = none
      rw [Table.find_delete, if_pos rfl]
  · rw [heq] at hstatus
    obtain rfl : status = 204 := hstatus
    obtain h | ⟨e, he⟩ := hrefused
    · cases h
    · cases e <;> cases he

end Gone

theorem DestroyerRun.quiet {behave : Chaos → Behaviour} {xs : List (Signal ChaosSignal)}
    {d : Destroyer} {log : List (ℕ × Effect)} (h : DestroyerRun behave [] xs d log) : log = [] := by
  rw [List.eq_nil_iff_forall_not_mem]
  rintro ⟨k, e⟩ he
  obtain ⟨c, u, -, hc⟩ :=
    h.exists_publisher (Or.inr (List.ne_nil_of_mem (mem_effectsOf.mpr he)))
  simp at hc

/-- The schedule is gone, and the runs of its destroyer from the `n`-th on have found nothing. -/
structure Harmless (scheduleId : Id) (n : ℕ) (s : System) : Prop where
  sound : s.Sound
  gone : s.store.Gone scheduleId
  length_le : n ≤ s.executions.length
  chaoses : ∀ j e, n ≤ j → s.executions[j]? = some e → e.scheduleId = scheduleId → e.chaoses = []

section Runs

variable {accepts : String → Bool} {scheduleId : Id} {n : ℕ} {s t : System}

theorem Harmless.step {x : System.Label} (hs : Harmless scheduleId n s)
    (h : s.step accepts x = some t) : Harmless scheduleId n t := by
  have hsound := sound_step hs.sound h
  have hgone := hs.gone.evolves (step_evolves hs.sound h)
  obtain ⟨r, -, rfl⟩ | ⟨k, rollback, r, snapshot, -, -, -, -, hexecutions⟩ |
    ⟨y, -, handlers, rfl⟩ | ⟨id, behave, chaoses, -, hperm, rfl⟩ |
    ⟨k, y, e, d, es, st, -, hk, -, -, rfl⟩ | ⟨event, st, -, -, rfl⟩ | ⟨-, rfl⟩ :=
    System.step_cases h
  · exact ⟨hsound, hgone, hs.length_le, hs.chaoses⟩
  · refine ⟨hsound, hgone, ?_, ?_⟩
    · rw [hexecutions]
      exact hs.length_le
    · rw [hexecutions]
      exact hs.chaoses
  · exact ⟨hsound, hgone, hs.length_le, hs.chaoses⟩
  · refine ⟨hsound, hgone, ?_, fun j e hj he hid => ?_⟩
    · rw [List.length_append]
      exact hs.length_le.trans (Nat.le_add_right _ _)
    · by_cases hlt : j < s.executions.length
      · rw [List.getElem?_append_left hlt] at he
        exact hs.chaoses j e hj he hid
      · -- the query has come after the deletion
        rw [List.getElem?_append_right (not_lt.mp hlt)] at he
        obtain rfl := List.mem_singleton.mp (List.mem_of_getElem? he)
        obtain rfl : id = scheduleId := hid
        rw [hs.gone.findByScheduleId hs.sound.store] at hperm
        exact hperm.eq_nil
  · refine ⟨hsound, hgone, ?_, fun j e' hj he' hid => ?_⟩
    · rw [List.length_set]
      exact hs.length_le
    · by_cases hjk : k = j
      · subst hjk
        rw [List.getElem?_set_self (List.getElem?_eq_some_iff.mp hk).1] at he'
        obtain rfl := Option.some.inj he'
        exact hs.chaoses k e hj hk hid
      · rw [List.getElem?_set_ne hjk] at he'
        exact hs.chaoses j e' hj he' hid
  · exact ⟨hsound, hgone, hs.length_le, hs.chaoses⟩
  · exact ⟨hsound, hgone, hs.length_le, hs.chaoses⟩

/-- **A deleted schedule is harmless.** Let requests, handlers of the scheduler, runs of destroyers,
the reaper and restarts interleave in any way. Every run of the destroyer of a schedule that makes
its query after a `DELETE` of the schedule has committed makes no call at all: it terminates
nothing and saves no event. -/
theorem deleted_schedule_is_harmless {xs ys : List System.Label} {u v : System} {k : ℕ}
    {rollback : Bool} {snapshot : Store} (hpre : run (System.step accepts) .init xs = some u)
    (hk : u.requests[k]? = some (.deleteSchedule scheduleId, snapshot))
    (hstatus : ((Request.deleteSchedule scheduleId).respondFrom rollback snapshot u.store).2.1 = 204)
    (hcommit : u.step accepts (.commit k rollback) = some v)
    (hrun : run (System.step accepts) v ys = some t) :
    ∀ j e, u.executions.length ≤ j → t.executions[j]? = some e → e.scheduleId = scheduleId →
      e.log = [] := by
  have hu := system_sound hpre
  have hv : Harmless scheduleId u.executions.length v := by
    have hsound := sound_step hu hcommit
    have hnext := (hu.requests _ (List.mem_of_getElem? hk)).2
    simp only [System.step, hk, Option.map_some, Option.some.injEq] at hcommit
    subst hcommit
    refine ⟨hsound, gone_of_deleteSchedule hnext hstatus, le_rfl, fun j e hj he _ => ?_⟩
    exact absurd (List.getElem?_eq_some_iff.mp he).1 (not_lt.mpr hj)
  have ht : Harmless scheduleId u.executions.length t :=
    run_inv (fun _ _ _ h hs => hs.step h) hrun hv
  intro j e hj he hid
  obtain ⟨zs, hexecution⟩ := ht.sound.executions e (List.mem_of_getElem? he)
  rw [ht.chaoses j e hj he hid] at hexecution
  exact hexecution.quiet

/-- A schedule is created, a start begins to schedule it, and it is deleted. -/
def orphanLabels : List System.Label :=
  commitAtOnce (.createSchedule ⟨some "0 0 * * * *", some "hourly"⟩) ++
    [.handler (.spawn (.start [⟨"0 0 * * * *", 1, "hourly"⟩])), .handler (.advance 1),
      .begin (.deleteSchedule 1)]

/-- The handler of the deletion is done before the start puts its future into the map: the future
stays live, and its destroyer runs. -/
theorem deleted_schedule_is_harmless_orphan :
    ∃ u v t, run (System.step fun _ => true) .init orphanLabels = some u ∧
      u.step (fun _ => true) (.commit 0 false) = some v ∧
      run (System.step fun _ => true) v [.handler (.advance 2), .handler (.advance 1),
        .query 1 (fun _ => spareFirst) []] = some t ∧
      t.handlers.scheduler.Live 0 ∧ ∃ e, t.executions[0]? = some e ∧ e.log = [] := by
  obtain ⟨u, v, t, snapshot, hpre, hk, hnone, hstatus, hcommit, hrun, hlive, e, he, hid⟩ :
      ∃ u v t snapshot, run (System.step fun _ => true) .init orphanLabels = some u ∧
        u.requests[0]? = some (.deleteSchedule 1, snapshot) ∧ u.executions.length ≤ 0 ∧
        ((Request.deleteSchedule 1).respondFrom false snapshot u.store).2.1 = 204 ∧
        u.step (fun _ => true) (.commit 0 false) = some v ∧
        run (System.step fun _ => true) v [.handler (.advance 2), .handler (.advance 1),
          .query 1 (fun _ => spareFirst) []] = some t ∧
        t.handlers.scheduler.Live 0 ∧ ∃ e, t.executions[0]? = some e ∧ e.scheduleId = 1 :=
    ⟨_, _, _, _, rfl, rfl, le_rfl, rfl, rfl, rfl, by decide, _, rfl, rfl⟩
  exact ⟨u, v, t, hpre, hcommit, hrun, hlive, e, he,
    deleted_schedule_is_harmless hpre hk hstatus hcommit hrun 0 e hnone he hid⟩

end Runs

end ChaosLoris
