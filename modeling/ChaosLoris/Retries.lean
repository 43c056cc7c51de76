import ChaosLoris.Lib.Later
import ChaosLoris.TakeDown

/-!
# Sending a request again

A client that does not get the answer to a request can send the request again. If the first one has
succeeded, the second one does nothing more: what has been created is taken (`exec_insert_again`),
what has been deleted is absent, and what has been updated is up to date (`handle_again`). It is the
same if both have read the store before either has committed (`respondFrom_again`). So the store and
the scheduled tasks are those of one request (`retries_are_safe`).
-/

namespace ChaosLoris

open Keyed Runs

/-- The answer to a request that has succeeded before. -/
def Request.retryStatus : Request → Status
  | .createApplication _ => 400
  | .createSchedule _ => 400
  | .createChaos _ => 400
  | .updateSchedule _ _ => 204
  | .updateChaos _ _ => 204
  | _ => 404

section Again

variable {st st' snapshot : Store} {s : Statement} {r : Request} {tx : Transaction}

/-- The statement inserts a row of a `POST`. -/
def Statement.creates : Statement → Bool
  | .insertSchedule _ => true
  | .insertApplication _ => true
  | .insertChaos _ => true
  | _ => false

/-- What has been inserted cannot be inserted again, for its unique columns. -/
theorem exec_insert_again (hs : s.creates = true) (hexec : s.exec st = some st') :
    s.exec st' = none := by
  rw [Option.eq_none_iff_forall_ne_some]
  intro st'' hexec'
  cases exec_eq_some.mp hexec with
  | insertSchedule row _ _ =>
    cases exec_eq_some.mp hexec' with
    | insertSchedule _ _ hname =>
      have hrow := Table.any_eq_false.mp hname st.schedule.next row
        ((Table.find_insert ..).trans (if_pos rfl))
      simp [Table.insert] at hrow
  | insertApplication row _ =>
    cases exec_eq_some.mp hexec' with
    | insertApplication _ hnew =>
      exact hnew st.application.next row ((Table.find_insert ..).trans (if_pos rfl)) rfl
  | insertChaos row _ _ _ =>
    cases exec_eq_some.mp hexec' with
    | insertChaos _ _ _ hpair =>
      have hrow := Table.any_eq_false.mp hpair st.chaos.next row
        ((Table.find_insert ..).trans (if_pos rfl))
      simp [Table.insert] at hrow
  | _ => cases hs

theorem not_stored_of_deletion {k : Controller} {i : Id}
    (hexec : (k.deletion i).exec st = some st') : ¬ st'.Stored k i := by
  have hnone : ∀ {ρ : Type} (t : Table ρ), ¬ ((t.delete i).find i).isSome := by
    intro ρ t
    rw [Table.find_delete, if_pos rfl]
    exact Bool.false_ne_true
  cases k with
  | application =>
    cases exec_eq_some.mp hexec with
    | deleteApplication => exact hnone st.application
  | schedule =>
    cases exec_eq_some.mp hexec with
    | deleteSchedule => exact hnone st.schedule
  | chaos =>
    cases exec_eq_some.mp hexec with
    | deleteChaos => exact hnone st.chaos
  | event =>
    cases exec_eq_some.mp hexec with
    | deleteEvent => exact hnone st.event

theorem apply_apply (input : ScheduleUpdateInput) (row : ScheduleRow) :
    input.apply (input.apply row) = input.apply row := by
  obtain ⟨expression, name⟩ := input
  cases expression <;> cases name <;> rfl

theorem saveAndFlush_of_none (h : s.exec st = none) :
    saveAndFlush s st = .error .dataIntegrityViolation := by
  unfold saveAndFlush
  rw [h]

theorem delete_again {k : Controller} {i : Id} (h : execAll [k.deletion i] st = some st') :
    ∃ e : Failure, (k.delete i).handle st' = .error e ∧ e.status = 404 := by
  rw [execAll_singleton] at h
  exact ⟨_, handle_delete_of_absent (not_stored_of_deletion h), rfl⟩

/-- **The handler of a request that has been committed** refuses it, or finds nothing to write. -/
theorem handle_again (h : r.handle st = .ok tx) (hexec : execAll tx.pending tx.store = some st') :
    (∃ e : Failure, r.handle st' = .error e ∧ e.status = r.retryStatus) ∨
      r.handle st' = .ok ⟨st', [], tx.published, r.retryStatus⟩ ∧
        (tx.published = [] ∨ ∃ a, tx.published = [.updated a]) := by
  cases r with
  | createApplication applicationId =>
    obtain ⟨a, st₁, rfl, hinsert, rfl⟩ := ApplicationController.create_eq_ok.mp h
    obtain rfl : st₁ = st' := Option.some.inj hexec
    refine .inl ⟨.dataIntegrityViolation, ?_, rfl⟩
    show saveAndFlush _ st₁ >>= _ = _
    rw [saveAndFlush_of_none (exec_insert_again rfl hinsert)]
    rfl
  | createSchedule input =>
    obtain ⟨expression, name, st₁, rfl, hinsert, rfl⟩ := ScheduleController.create_eq_ok.mp h
    obtain rfl : st₁ = st' := Option.some.inj hexec
    refine .inl ⟨.dataIntegrityViolation, ?_, rfl⟩
    show saveAndFlush _ st₁ >>= _ = _
    rw [saveAndFlush_of_none (exec_insert_again rfl hinsert)]
    rfl
  | createChaos input =>
    obtain ⟨_, p, _, i, j, st₁, rfl, hp, hi, hj, hinsert, rfl⟩ :=
      ChaosController.create_eq_ok.mp h
    obtain rfl : st₁ = st' := Option.some.inj hexec
    refine .inl ⟨.dataIntegrityViolation, ?_, rfl⟩
    rw [Request.handle, create_of_references hp hi hj,
      saveAndFlush_of_none (exec_insert_again rfl hinsert)]
    rfl
  | deleteApplication id =>
    obtain ⟨-, rfl⟩ := ApplicationController.delete_eq_ok.mp h
    exact .inl (delete_again (k := .application) hexec)
  | deleteSchedule id =>
    obtain ⟨-, rfl⟩ := ScheduleController.delete_eq_ok.mp h
    exact .inl (delete_again (k := .schedule) hexec)
  | deleteChaos id =>
    obtain ⟨-, rfl⟩ := ChaosController.delete_eq_ok.mp h
    exact .inl (delete_again (k := .chaos) hexec)
  | deleteEvent id =>
    obtain ⟨-, rfl⟩ := EventController.delete_eq_ok.mp h
    exact .inl (delete_again (k := .event) hexec)
  | updateSchedule id input =>
    obtain ⟨row, hrow, rfl⟩ := ScheduleController.update_eq_ok.mp h
    have hrow' : st'.schedule.find id = some (input.apply row) := by
      dsimp only at hexec
      split_ifs at hexec with hsame
      · obtain rfl : st = st' := Option.some.inj hexec
        rw [hrow, hsame]
      · rw [execAll_singleton] at hexec
        cases exec_eq_some.mp hexec with
        | updateSchedule =>
          exact (Table.find_set ..).trans (if_pos ⟨rfl, Option.isSome_of_eq_some hrow⟩)
    refine .inr ⟨ScheduleController.update_eq_ok.mpr ⟨_, hrow', ?_⟩, .inr ⟨_, rfl⟩⟩
    rw [apply_apply, if_pos rfl]
    rfl
  | updateChaos id probability =>
    obtain ⟨hp, row, hrow, rfl⟩ := ChaosController.update_eq_ok.mp h
    have hrow' : st'.chaos.find id =
        some { row with probability := probability.getD row.probability } := by
      dsimp only at hexec
      split_ifs at hexec with hsame
      · obtain rfl : st = st' := Option.some.inj hexec
        rw [hrow, hsame]
      · rw [execAll_singleton] at hexec
        cases exec_eq_some.mp hexec with
        | updateChaos =>
          exact (Table.find_set ..).trans (if_pos ⟨rfl, Option.isSome_of_eq_some hrow⟩)
    refine .inr ⟨ChaosController.update_eq_ok.mpr ⟨hp, _, hrow', ?_⟩, .inl rfl⟩
    cases probability <;> simp [Request.retryStatus]

theorem any_set_ne {ρ : Type} {t : Table ρ} {id : Id} {row : ρ} {p : ρ → Bool}
    (h : (t.any fun j r => j ≠ id && p r) = false) :
    ((t.set id row).any fun j r => j ≠ id && p r) = false := by
  refine Table.any_eq_false.mpr fun j r hr => ?_
  by_cases hj : j = id
  · simp [hj]
  · rw [find_set_of_ne hj] at hr
    exact Table.any_eq_false.mp h j r hr

/-- **An update or a deletion can be executed once more**, and leaves what it has made. -/
theorem exec_again (hr : r.flushes = false) (h : r.Issues snapshot s)
    (hexec : s.exec st = some st') : s.exec st' = some st' := by
  cases h with
  | deleteApplication id =>
    cases exec_eq_some.mp hexec with
    | deleteApplication _ hfree =>
      refine (exec_eq_some.mpr (@Executes.deleteApplication
        { st with application := st.application.delete id } id hfree)).trans ?_
      simp only [Table.delete_delete]
  | deleteSchedule id =>
    cases exec_eq_some.mp hexec with
    | deleteSchedule _ hfree =>
      refine (exec_eq_some.mpr (@Executes.deleteSchedule
        { st with schedule := st.schedule.delete id } id hfree)).trans ?_
      simp only [Table.delete_delete]
  | deleteChaos id =>
    cases exec_eq_some.mp hexec with
    | deleteChaos _ hfree =>
      refine (exec_eq_some.mpr (@Executes.deleteChaos
        { st with chaos := st.chaos.delete id } id hfree)).trans ?_
      simp only [Table.delete_delete]
  | deleteEvent id =>
    cases exec_eq_some.mp hexec with
    | deleteEvent =>
      refine (exec_eq_some.mpr (.deleteEvent id)).trans ?_
      simp only [Table.delete_delete, List.filter_filter, Bool.and_self]
  | updateSchedule id input row _ =>
    cases exec_eq_some.mp hexec with
    | updateSchedule _ _ hfits hname =>
      refine (exec_eq_some.mpr (@Executes.updateSchedule
        { st with schedule := st.schedule.set id _ } id _ hfits (any_set_ne hname))).trans ?_
      simp only [Table.set_set]
  | updateChaos id probability row _ =>
    cases exec_eq_some.mp hexec with
    | updateChaos _ _ happlication hschedule hpair =>
      refine (exec_eq_some.mpr (@Executes.updateChaos
        { st with chaos := st.chaos.set id _ } id _ happlication hschedule
          (any_set_ne hpair))).trans ?_
      simp only [Table.set_set]
  | _ => cases hr

/-- What is pending of a request that does not flush can be executed once more. -/
theorem pending_again (hr : r.flushes = false) (h : r.handle st = .ok tx)
    (hexec : execAll tx.pending st = some st') : execAll tx.pending st' = some st' := by
  obtain hpend | ⟨s, hs, hpend, -⟩ := handle_pending hr h
  · rw [hpend]
    rfl
  · rw [hpend, execAll_singleton] at hexec ⊢
    exact exec_again hr hs hexec

theorem handle_of_success (h : Success (r.respond false st).2.1) :
    ∃ tx st', r.handle st = .ok tx ∧ execAll tx.pending tx.store = some st' ∧
      r.respond false st = (st', tx.status, tx.published) := by
  cases hhandle : r.handle st with
  | error e =>
    rw [(Refused.handler e hhandle).respond] at h
    exact absurd h (Refused.handler e hhandle : Refused r false st e.status).not_success
  | ok tx =>
    cases hexec : execAll tx.pending tx.store with
    | none =>
      rw [(Refused.flush tx hhandle hexec).respond] at h
      exact absurd h (by decide : ¬ Success 400)
    | some st' => exact ⟨tx, st', rfl, hexec, respond_of_commits hhandle hexec⟩

/-- The second request leaves the store, and publishes nothing or once more the same update. -/
theorem respond_again (h : r.handle st = .ok tx) (hexec : execAll tx.pending tx.store = some st')
    (rollback : Bool) :
    (r.respond rollback st').1 = st' ∧ (r.respond false st').2.1 = r.retryStatus ∧
      ((r.respond rollback st').2.2 = [] ∨
        ∃ a, tx.published = [.updated a] ∧ (r.respond rollback st').2.2 = [.updated a]) := by
  obtain ⟨e, he, hstatus⟩ | ⟨hok, hpublished⟩ := handle_again h hexec
  · have hrespond : ∀ b, r.respond b st' = (st', e.status, []) :=
      fun b => (Refused.handler e he).respond
    rw [hrespond, hrespond]
    exact ⟨rfl, hstatus, .inl rfl⟩
  · have hcommit := respond_of_commits hok rfl
    cases rollback with
    | false =>
      rw [hcommit]
      refine ⟨rfl, rfl, hpublished.imp_right fun ⟨a, ha⟩ => ⟨a, ha, ha⟩⟩
    | true =>
      have hback := (Refused.commit _ st' hok rfl rfl : Refused r true st' 500).respond
      rw [hback, hcommit]
      exact ⟨rfl, rfl, .inl rfl⟩

/-- A duplicate that had read the store before the first request was committed. -/
theorem respondFrom_again (h : r.handle st = .ok tx)
    (hexec : execAll tx.pending tx.store = some st') (rollback : Bool) :
    (r.respondFrom rollback st st').1 = st' := by
  cases hr : r.flushes with
  | true =>
    have heq : r.respondFrom rollback st st' = r.respond rollback st' := if_pos hr
    rw [heq]
    exact (respond_again h hexec rollback).1
  | false =>
    rw [handle_store hr h] at hexec
    have hagain := pending_again hr h hexec
    unfold Request.respondFrom
    simp only [hr, Bool.false_eq_true, if_false, h, hagain]
    cases rollback <;> rfl

end Again

/-- **Retries are safe.** Let a request succeed in a service, and let the same request be sent
again. The store, the scheduled tasks and whether the scheduler is running stay as they are. The
answer is that to something taken for a `POST`, to something absent for a `DELETE`, and a success
for a `PATCH`. The store also stays if both requests had read it before the first one was committed.
-/
theorem retries_are_safe {accepts : String → Bool} {s t u : Service} {r : Request}
    {rollback : Bool} (hkept : s.scheduler.WellKept)
    (hfirst : s.step accepts (.request r false) = some t)
    (hsuccess : Success (r.respond false s.store).2.1)
    (hsecond : t.step accepts (.request r rollback) = some u) :
    u.store = t.store ∧ u.scheduler.tasks = t.scheduler.tasks ∧
      u.scheduler.isRunning = t.scheduler.isRunning ∧
      (r.respond false t.store).2.1 = r.retryStatus ∧
      (r.respondFrom rollback s.store t.store).1 = t.store := by
  obtain ⟨tx, st', hhandle, hexec, hrespond⟩ := handle_of_success hsuccess
  obtain rfl := Option.some.inj hfirst
  obtain rfl := Option.some.inj hsecond
  obtain ⟨hstore, hstatus, hevents⟩ := respond_again hhandle hexec rollback
  dsimp only
  rw [hrespond]
  refine ⟨hstore, ?_, ?_, hstatus, respondFrom_again hhandle hexec rollback⟩
  · obtain hnil | ⟨a, hfirst, hsecond⟩ := hevents
    · rw [hnil]
      rfl
    · rw [hfirst, hsecond]
      show ((s.scheduler.listen accepts (.updated a)).1.listen accepts (.updated a)).1.tasks =
        (s.scheduler.listen accepts (.updated a)).1.tasks
      rw [(hkept.listen accepts _).tasks_listen, hkept.tasks_listen]
      simp only [DestructionScheduler.taskAfter, Function.update_idem]
  · obtain hnil | ⟨a, hfirst, hsecond⟩ := hevents
    · rw [hnil]
      rfl
    · rw [hfirst, hsecond]
      exact DestructionScheduler.running_listen _ accepts _

/-- The schedule that is updated has the expression already. -/
theorem retries_are_safe_hourly :
    ∃ s t u, run (Service.step sixFields) (.init .empty) hourlyOperations = some s ∧
      s.step sixFields (.request (.updateSchedule 1 ⟨some "0 45 * * * *", none⟩) false) = some t ∧
      t.step sixFields (.request (.updateSchedule 1 ⟨some "0 45 * * * *", none⟩) false) = some u ∧
      u.scheduler.tasks = t.scheduler.tasks := by
  obtain ⟨s, t, u, hrun, hfirst, hsuccess, hsecond⟩ : ∃ s t u,
      run (Service.step sixFields) (.init .empty) hourlyOperations = some s ∧
      s.step sixFields (.request (.updateSchedule 1 ⟨some "0 45 * * * *", none⟩) false) = some t ∧
      Success ((Request.updateSchedule 1 ⟨some "0 45 * * * *", none⟩).respond false s.store).2.1 ∧
      t.step sixFields (.request (.updateSchedule 1 ⟨some "0 45 * * * *", none⟩) false) = some u :=
    ⟨_, _, _, rfl, rfl, by decide, rfl⟩
  have hkept := (run_faithful hrun (by decide) DestructionScheduler.wellKept_init
    (Mirror.faithful_stopped _)).1
  exact ⟨s, t, u, hrun, hfirst, hsecond, (retries_are_safe hkept hfirst hsuccess hsecond).2.1⟩

end ChaosLoris
