import ChaosLoris.Service
import ChaosLoris.System

/-!
# Refused requests

A request is refused when its handler throws, when the commit flushes a statement that violates a
constraint, or when the commit fails for a reason outside the program. In the last two cases the
handler has returned, with schedule events published (`respond_refused_iff`). Only a handler that
has returned knows a status of success (`handle_status`), so a response that is none is one of a
request that has left everything as it was (`refused_changes_nothing`).
-/

namespace ChaosLoris

open Runs

/-- 2xx. -/
def Success (status : Status) : Prop := 200 ≤ status ∧ status < 300

instance (status : Status) : Decidable (Success status) := inferInstanceAs (Decidable (_ ∧ _))

/-- Where a request is refused, with the status of the response. -/
inductive Refused (r : Request) (rollback : Bool) (st : Store) : Status → Prop
  | handler (e : Failure) (h : r.handle st = .error e) : Refused r rollback st e.status
  | flush (tx : Transaction) (h : r.handle st = .ok tx)
      (hexec : execAll tx.pending tx.store = none) :
      Refused r rollback st Failure.dataIntegrityViolation.status
  | commit (tx : Transaction) (st' : Store) (h : r.handle st = .ok tx)
      (hexec : execAll tx.pending tx.store = some st') (hrollback : rollback = true) :
      Refused r rollback st 500

section Refused

variable {r : Request} {rollback : Bool} {st st' : Store} {tx : Transaction} {status : Status}
  {events : List ScheduleEvent} {id : Id}

theorem success_created : Success 201 := by decide

theorem success_noContent : Success 204 := by decide

theorem handle_status (h : r.handle st = .ok tx) : Success tx.status := by
  cases r with
  | createApplication applicationId =>
    obtain ⟨a, st', -, -, rfl⟩ := ApplicationController.create_eq_ok.mp h
    exact success_created
  | deleteApplication id =>
    obtain ⟨-, rfl⟩ := ApplicationController.delete_eq_ok.mp h
    exact success_noContent
  | createSchedule input =>
    obtain ⟨expression, name, st', -, -, rfl⟩ := ScheduleController.create_eq_ok.mp h
    exact success_created
  | deleteSchedule id =>
    obtain ⟨-, rfl⟩ := ScheduleController.delete_eq_ok.mp h
    exact success_noContent
  | updateSchedule id input =>
    obtain ⟨row, -, rfl⟩ := ScheduleController.update_eq_ok.mp h
    exact success_noContent
  | createChaos input =>
    obtain ⟨_, _, _, _, _, st', -, -, -, -, -, rfl⟩ := ChaosController.create_eq_ok.mp h
    exact success_created
  | deleteChaos id =>
    obtain ⟨-, rfl⟩ := ChaosController.delete_eq_ok.mp h
    exact success_noContent
  | updateChaos id probability =>
    obtain ⟨-, row, -, rfl⟩ := ChaosController.update_eq_ok.mp h
    exact success_noContent
  | deleteEvent id =>
    obtain ⟨-, rfl⟩ := EventController.delete_eq_ok.mp h
    exact success_noContent

theorem Refused.not_success (h : Refused r rollback st status) : ¬ Success status := by
  cases h with
  | handler e h => cases e <;> decide
  | flush tx h hexec => decide
  | commit tx st' h hexec hrollback => decide

theorem Refused.respond (h : Refused r rollback st status) :
    r.respond rollback st = (st, status, []) := by
  unfold Request.respond
  cases h with
  | handler e h => rw [h]
  | flush tx h hexec => simp only [h, hexec]
  | commit tx st' h hexec hrollback => simp only [h, hexec, hrollback, if_true]

theorem respond_of_commits (h : r.handle st = .ok tx)
    (hexec : execAll tx.pending tx.store = some st') :
    r.respond false st = (st', tx.status, tx.published) := by
  unfold Request.respond
  simp only [h, hexec, Bool.false_eq_true, if_false]

/-- **A response is no success exactly if the request is refused**, at one of the three points. -/
theorem respond_refused_iff (hr : r.respond rollback st = (st', status, events)) :
    ¬ Success status ↔ Refused r rollback st status := by
  refine ⟨fun hno => ?_, Refused.not_success⟩
  unfold Request.respond at hr
  cases h : r.handle st with
  | error e =>
    obtain ⟨-, rfl, -⟩ : st = st' ∧ e.status = status ∧ [] = events := by simpa [h] using hr
    exact .handler e h
  | ok tx =>
    cases hexec : execAll tx.pending tx.store with
    | none =>
      obtain ⟨-, rfl, -⟩ : st = st' ∧ _ = status ∧ [] = events := by simpa [h, hexec] using hr
      exact .flush tx h hexec
    | some st₁ =>
      cases rollback with
      | true =>
        obtain ⟨-, rfl, -⟩ : st = st' ∧ 500 = status ∧ [] = events := by
          simpa [h, hexec] using hr
        exact .commit tx st₁ h hexec rfl
      | false =>
        obtain ⟨-, rfl, -⟩ : st₁ = st' ∧ tx.status = status ∧ _ = events := by
          simpa [h, hexec] using hr
        exact absurd (handle_status h) hno

/-- A request that is refused after other requests have committed. -/
theorem respondFrom_refused {snapshot : Store}
    (hno : ¬ Success (r.respondFrom rollback snapshot st).2.1) :
    r.respondFrom rollback snapshot st =
      (st, (r.respondFrom rollback snapshot st).2.1, []) := by
  cases hflush : r.flushes with
  | true =>
    unfold Request.respondFrom at hno ⊢
    rw [hflush, if_pos rfl] at hno
    rw [hflush, if_pos rfl]
    exact ((respond_refused_iff rfl).mp hno).respond
  | false =>
    obtain ⟨tx, st', h, -, heq⟩ | ⟨status, -, heq⟩ := respondFrom_cases hflush rollback snapshot st
    · rw [heq] at hno
      exact absurd (handle_status h) hno
    · rw [heq]

end Refused

/-- **A refused request changes nothing.** Take any request and any outcome of its commit. If its
response is no success, a service that is otherwise idle is as it was: its tables, the map of the
scheduler, and the futures with all cancellations. If other requests, handlers, destroyers and the
reaper run at the same time, all that has changed is that the request is not there any more. -/
theorem refused_changes_nothing (accepts : String → Bool) (r : Request) (rollback : Bool) :
    (∀ s : Service, ¬ Success (r.respond rollback s.store).2.1 →
      s.step accepts (.request r rollback) = some s) ∧
    ∀ (s : System) (k : ℕ) (snapshot : Store), s.requests[k]? = some (r, snapshot) →
      ¬ Success (r.respondFrom rollback snapshot s.store).2.1 →
      s.step accepts (.commit k rollback) = some { s with requests := s.requests.eraseIdx k } := by
  constructor
  · intro s hno
    have hrefused := ((respond_refused_iff rfl).mp hno).respond
    show some (Service.mk (r.respond rollback s.store).1
      (s.scheduler.listenAll accepts (r.respond rollback s.store).2.2)) = some s
    rw [hrefused]
    rfl
  · intro s k snapshot hk hno
    have hrefused := respondFrom_refused hno
    simp only [System.step, hk, Option.map_some, Option.some.injEq]
    rw [hrefused]
    simp

/-- A schedule is renamed to the name of another one: the handler publishes its event, and the
commit fails. -/
theorem refused_changes_nothing_taken :
    ∃ s tx, run (Service.step fun _ => true) (.init .empty)
        [.request (.createSchedule ⟨some "0 0 * * * *", some "hourly"⟩) false,
          .request (.createSchedule ⟨some "0 0 0 * * *", some "daily"⟩) false] = some s ∧
      (Request.updateSchedule 2 ⟨some "0 30 * * * *", some "hourly"⟩).handle s.store = .ok tx ∧
      tx.published = [.updated ⟨"0 30 * * * *", 2, "hourly"⟩] ∧
      s.step (fun _ => true)
        (.request (.updateSchedule 2 ⟨some "0 30 * * * *", some "hourly"⟩) false) = some s := by
  obtain ⟨s, tx, hrun, hhandle, hpublished, hno⟩ : ∃ s tx,
      run (Service.step fun _ => true) (.init .empty)
        [.request (.createSchedule ⟨some "0 0 * * * *", some "hourly"⟩) false,
          .request (.createSchedule ⟨some "0 0 0 * * *", some "daily"⟩) false] = some s ∧
      (Request.updateSchedule 2 ⟨some "0 30 * * * *", some "hourly"⟩).handle s.store = .ok tx ∧
      tx.published = [.updated ⟨"0 30 * * * *", 2, "hourly"⟩] ∧
      ¬ Success ((Request.updateSchedule 2 ⟨some "0 30 * * * *", some "hourly"⟩).respond false
        s.store).2.1 := ⟨_, _, rfl, rfl, rfl, by decide⟩
  exact ⟨s, tx, hrun, hhandle, hpublished,
    (refused_changes_nothing _ _ false).1 s hno⟩

end ChaosLoris
