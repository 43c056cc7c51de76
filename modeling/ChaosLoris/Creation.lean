import ChaosLoris.Refusals
import ChaosLoris.Resources

/-!
# The answer to a `POST` of a chaos

A body that has passed `@Valid` is answered in one of three ways. If both references denote ids,
the chaos is inserted, and the constraints decide: 201 if it can be (`respond_of_creatable`), 400 if
it cannot (`respond_of_not_creatable`). If one of them denotes none, `getApplication` or
`getSchedule` throws an `IllegalArgumentException`, which no handler maps
(`respond_of_malformed`). So the status is the documented one exactly if both denote ids
(`malformed_reference_iff`).
-/

namespace ChaosLoris

open Keyed Runs

/-- 4xx. -/
def ClientError (status : Status) : Prop := 400 ≤ status ∧ status < 500

/-- A chaos can be created for the application and the schedule. -/
structure Store.Creatable (st : Store) (applicationId scheduleId : Id) : Prop where
  application : st.Stored .application applicationId
  schedule : st.Stored .schedule scheduleId
  unused : ∀ id row, st.chaos.find id = some row →
    ¬ (row.applicationId = applicationId ∧ row.scheduleId = scheduleId)

/-- The references denote an application and a schedule that a chaos can be created for. -/
def Store.Admissible (st : Store) (application schedule : URI) : Prop :=
  ∃ i j, Denotes "/applications/" application i ∧ Denotes "/schedules/" schedule j ∧
    st.Creatable i j

/-- The response is 201 if the chaos can be created, and a client error otherwise. -/
def CreatedOrClientError (st : Store) (application schedule : URI) (status : Status) : Prop :=
  (st.Admissible application schedule → status = 201) ∧
    (¬ st.Admissible application schedule → ClientError status)

section Answer

variable {st : Store} {application schedule : URI} {probability : ℚ} {i j : Id} {rollback : Bool}

theorem exec_insertChaos_iff :
    (∃ st', (Statement.insertChaos ⟨i, probability, j⟩).exec st = some st') ↔ st.Creatable i j := by
  simp only [exec_eq_some]
  constructor
  · rintro ⟨st', h⟩
    cases h with
    | insertChaos _ happlication hschedule hpair =>
      refine ⟨happlication, hschedule, fun id row hrow hsame => ?_⟩
      exact pair_ne_of_pairTaken hpair hrow (ne_next hrow) (Prod.ext hsame.1 hsame.2)
  · intro h
    refine ⟨_, .insertChaos _ h.application h.schedule ?_⟩
    refine Table.any_eq_false.mpr fun id row hrow => ?_
    have hunused := h.unused id row hrow
    simp only [Bool.and_eq_false_imp, decide_eq_true_eq, decide_eq_false_iff_not]
    exact fun _ happlication hschedule => hunused ⟨happlication, hschedule⟩

theorem respond_of_malformed (hp : validProbability probability = true)
    (h : applicationId application = none ∨ scheduleId schedule = none) :
    (Request.createChaos ⟨some application, some probability, some schedule⟩).respond rollback st =
      (st, 500, []) := by
  have hhandle :
      (Request.createChaos ⟨some application, some probability, some schedule⟩).handle st =
        .error .illegalArgument := by
    unfold Request.handle ChaosController.create
    simp only [hp, if_true]
    rcases h with h | h
    · rw [h]
    · rw [h]
      cases applicationId application <;> rfl
  exact (Refused.handler .illegalArgument hhandle).respond

theorem respond_of_creatable (hp : validProbability probability = true)
    (hi : applicationId application = some i) (hj : scheduleId schedule = some j)
    (h : st.Creatable i j) :
    ((Request.createChaos ⟨some application, some probability, some schedule⟩).respond false
      st).2.1 = 201 := by
  obtain ⟨st', hexec⟩ : ∃ st', (Statement.insertChaos ⟨i, probability, j⟩).exec st = some st' :=
    exec_insertChaos_iff.mpr h
  have hhandle :
      (Request.createChaos ⟨some application, some probability, some schedule⟩).handle st =
        .ok ⟨st', [], [], 201⟩ := by
    rw [Request.handle, create_of_references hp hi hj, saveAndFlush, hexec]
    rfl
  rw [respond_of_commits hhandle rfl]

theorem respond_of_not_creatable (hp : validProbability probability = true)
    (hi : applicationId application = some i) (hj : scheduleId schedule = some j)
    (h : ¬ st.Creatable i j) :
    (Request.createChaos ⟨some application, some probability, some schedule⟩).respond rollback st =
      (st, 400, []) := by
  have hexec : (Statement.insertChaos ⟨i, probability, j⟩).exec st = none := by
    rw [Option.eq_none_iff_forall_ne_some]
    exact fun st' hst' => h (exec_insertChaos_iff.mp ⟨st', hst'⟩)
  have hhandle :
      (Request.createChaos ⟨some application, some probability, some schedule⟩).handle st =
        .error .dataIntegrityViolation := by
    rw [Request.handle, create_of_references hp hi hj, saveAndFlush, hexec]
    rfl
  exact (Refused.handler .dataIntegrityViolation hhandle).respond

theorem not_createdOrClientError : ¬ CreatedOrClientError st application schedule 500 := by
  rintro ⟨hcreated, herror⟩
  by_cases h : st.Admissible application schedule
  · exact absurd (hcreated h) (by decide)
  · exact absurd (herror h).2 (by decide)

theorem clientError_badRequest : ClientError 400 := ⟨by decide, by decide⟩

end Answer

/-- **A malformed reference is a server error.** Take any store and a `POST` of a chaos that has
passed `@Valid`. It is answered with 201 if the references denote an application and a schedule
that are stored and that no chaos links yet, and with a client error otherwise, if and only if both
URIs have a reference and the digits of the last one denote a `Long`. -/
theorem malformed_reference_iff {application schedule : URI}
    (happlication : ∀ c ∈ application.toList, isURIChar c = true)
    (hschedule : ∀ c ∈ schedule.toList, isURIChar c = true) {probability : ℚ}
    (hp : validProbability probability = true) (st : Store) :
    CreatedOrClientError st application schedule
        ((Request.createChaos ⟨some application, some probability, some schedule⟩).respond false
          st).2.1 ↔
      (∃ i, Denotes "/applications/" application i) ∧ ∃ j, Denotes "/schedules/" schedule j := by
  have hread : ∀ i, applicationId application = some i ↔ Denotes "/applications/" application i :=
    fun i => referencedId_eq_some isSegment_applications happlication
  have hread' : ∀ j, scheduleId schedule = some j ↔ Denotes "/schedules/" schedule j :=
    fun j => referencedId_eq_some isSegment_schedules hschedule
  constructor
  · intro hanswer
    cases hi : applicationId application with
    | none =>
      rw [respond_of_malformed hp (Or.inl hi)] at hanswer
      exact absurd hanswer not_createdOrClientError
    | some i =>
      cases hj : scheduleId schedule with
      | none =>
        rw [respond_of_malformed hp (Or.inr hj)] at hanswer
        exact absurd hanswer not_createdOrClientError
      | some j => exact ⟨⟨i, (hread i).mp hi⟩, j, (hread' j).mp hj⟩
  · rintro ⟨⟨i, hdenotes⟩, j, hdenotes'⟩
    have hi := (hread i).mpr hdenotes
    have hj := (hread' j).mpr hdenotes'
    have hadmissible : st.Admissible application schedule ↔ st.Creatable i j := by
      constructor
      · rintro ⟨i', j', hi', hj', h⟩
        obtain rfl := Option.some.inj (hi.symm.trans ((hread i').mpr hi'))
        obtain rfl := Option.some.inj (hj.symm.trans ((hread' j').mpr hj'))
        exact h
      · exact fun h => ⟨i, j, hdenotes, hdenotes', h⟩
    unfold CreatedOrClientError
    rw [hadmissible]
    refine ⟨respond_of_creatable hp hi hj, fun h => ?_⟩
    rw [respond_of_not_creatable hp hi hj h]
    exact clientError_badRequest

/-- The links of an application and a schedule. -/
theorem malformed_reference_iff_stored :
    ∃ s, run (Service.step fun _ => true) (.init .empty)
        [.request (.createApplication (some 1)) false,
          .request (.createSchedule ⟨some "0 0 * * * *", some "hourly"⟩) false] = some s ∧
      CreatedOrClientError s.store "http://localhost/applications/1" "http://localhost/schedules/1"
        ((Request.createChaos ⟨some "http://localhost/applications/1", some 1,
          some "http://localhost/schedules/1"⟩).respond false s.store).2.1 := by
  have happlication : ∀ c ∈ "http://localhost/applications/1".toList, isURIChar c = true :=
    forall_mem_of_all (by decide)
  have hschedule : ∀ c ∈ "http://localhost/schedules/1".toList, isURIChar c = true :=
    forall_mem_of_all (by decide)
  refine ⟨_, rfl, (malformed_reference_iff happlication hschedule (by decide) _).mpr
    ⟨⟨1, ?_⟩, 1, ?_⟩⟩
  · exact (referencedId_eq_some isSegment_applications happlication).mp rfl
  · exact (referencedId_eq_some isSegment_schedules hschedule).mp rfl

/-- No segment of the first URI is `applications`. -/
theorem malformed_reference_server_error :
    ¬ ∀ (accepts : String → Bool) (labels : List System.Label) (s : System)
        (application schedule : URI) (probability : ℚ),
      run (System.step accepts) .init labels = some s →
      (∀ c ∈ application.toList, isURIChar c = true) → (∀ c ∈ schedule.toList, isURIChar c = true) →
      validProbability probability = true →
      CreatedOrClientError s.store application schedule
        ((Request.createChaos ⟨some application, some probability, some schedule⟩).respond false
          s.store).2.1 := by
  intro h
  have hanswer := h (fun _ => true) [] _ "http://localhost/apps/1" "http://localhost/schedules/1" 1
    rfl (forall_mem_of_all (by decide)) (forall_mem_of_all (by decide)) (by decide)
  exact not_createdOrClientError hanswer

end ChaosLoris
