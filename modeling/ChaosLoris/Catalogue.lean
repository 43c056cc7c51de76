import ChaosLoris.Creation
import ChaosLoris.Lib.Extent
import ChaosLoris.TakeDown

/-!
# The catalogue

What the service keeps, without the database: functions from ids to rows, and which instances an
event lists. `serve` says what a request comes to. It is refused with a status, or it is answered
and makes one change, and whether it is depends on the catalogue alone: there are no handlers, no
flushes and no statements.

The controllers do the same with the store (`respond_refines`), and so do any number of requests
one after another (`serial_refines`).
-/

namespace ChaosLoris

open Keyed Runs

/-- The answer to a request: the status, and the events that the listeners are given. -/
abbrev Answer := Status × List ScheduleEvent

@[ext] structure Catalogue where
  schedule : Extent ScheduleRow
  application : Extent ApplicationRow
  chaos : Extent ChaosRow
  event : Extent EventRow
  terminatedInstances : Set (Id × ℕ)

/-- The catalogue that a store keeps. -/
def Store.catalogue (st : Store) : Catalogue where
  schedule := st.schedule.extent
  application := st.application.extent
  chaos := st.chaos.extent
  event := st.event.extent
  terminatedInstances := {p | p ∈ st.eventTerminatedInstances}

namespace Catalogue

variable (m : Catalogue)

/-- The schedule `id` may have the row: it fits, and no other schedule has the name. -/
def Admits (id : Id) (row : ScheduleRow) : Prop :=
  row.fits = true ∧ ∀ j r, m.schedule.find j = some r → r.name = row.name → j = id

/-- The application and the schedule are there, and no chaos links them. -/
structure Linkable (applicationId scheduleId : Id) : Prop where
  application : (m.application.find applicationId).isSome
  schedule : (m.schedule.find scheduleId).isSome
  unused : ∀ j r, m.chaos.find j = some r →
    ¬ (r.applicationId = applicationId ∧ r.scheduleId = scheduleId)

def Contains : Controller → Id → Prop
  | .application, i => (m.application.find i).isSome
  | .schedule, i => (m.schedule.find i).isSome
  | .chaos, i => (m.chaos.find i).isSome
  | .event, i => (m.event.find i).isSome

/-- Another entity refers to this one. -/
def Needed : Controller → Id → Prop
  | .application, i => ∃ j r, m.chaos.find j = some r ∧ r.applicationId = i
  | .schedule, i => ∃ j r, m.chaos.find j = some r ∧ r.scheduleId = i
  | .chaos, i => ∃ j r, m.event.find j = some r ∧ r.chaosId = i
  | .event, _ => False

/-- The catalogue without an entity. -/
def remove : Controller → Id → Catalogue
  | .application, i => { m with application := m.application.remove i }
  | .schedule, i => { m with schedule := m.schedule.remove i }
  | .chaos, i => { m with chaos := m.chaos.remove i }
  | .event, i =>
    { m with
      event := m.event.remove i
      terminatedInstances := {p | p ∈ m.terminatedInstances ∧ p.1 ≠ i} }

open Classical in
/-- `DELETE`: what is not there cannot be deleted, nor what is needed. -/
noncomputable def discard (k : Controller) (i : Id) : Except Status (Catalogue × Answer) :=
  if ¬ m.Contains k i then .error 404
  else if m.Needed k i then .error 400
  else .ok (m.remove k i, 204, if k = .schedule then [.deleted i] else [])

open Classical in
/-- A request. `.error` is the status of one that is refused. A `PATCH` of what is not there is told
so only if it gives a field. -/
noncomputable def serve : Request → Except Status (Catalogue × Answer)
  | .createApplication none => .error 400
  | .createApplication (some g) =>
    if ∃ j, m.application.find j = some ⟨g⟩ then .error 400
    else .ok ({ m with application := m.application.add ⟨g⟩ }, 201, [])
  | .deleteApplication id => m.discard .application id
  | .createSchedule ⟨some expression, some name⟩ =>
    if m.Admits m.schedule.next ⟨name, expression⟩ then
      .ok ({ m with schedule := m.schedule.add ⟨name, expression⟩ }, 201,
        [.created ⟨expression, m.schedule.next, name⟩])
    else .error 400
  | .createSchedule _ => .error 400
  | .deleteSchedule id => m.discard .schedule id
  | .updateSchedule id input =>
    match m.schedule.find id with
    | none => .error (if input = ⟨none, none⟩ then 500 else 404)
    | some row =>
      if input.apply row = row ∨ m.Admits id (input.apply row) then
        .ok ({ m with schedule := m.schedule.put id (input.apply row) }, 204,
          [.updated ((input.apply row).entity id)])
      else .error 400
  | .createChaos ⟨some application, some probability, some schedule⟩ =>
    if validProbability probability = true then
      match applicationId application, scheduleId schedule with
      | some applicationId, some scheduleId =>
        if m.Linkable applicationId scheduleId then
          .ok ({ m with chaos := m.chaos.add ⟨applicationId, probability, scheduleId⟩ }, 201, [])
        else .error 400
      | _, _ => .error 500
    else .error 400
  | .createChaos _ => .error 400
  | .deleteChaos id => m.discard .chaos id
  | .updateChaos id probability =>
    if probability.all validProbability = true then
      match m.chaos.find id with
      | none => .error (if probability = none then 500 else 404)
      | some row =>
        let row' := { row with probability := probability.getD row.probability }
        .ok ({ m with chaos := m.chaos.put id row' }, 204, [])
    else .error 400
  | .deleteEvent id => m.discard .event id

end Catalogue

/-- What a request has come to: `.error` is the status of one that is refused. -/
def outcome (p : Store × Answer) : Except Status (Catalogue × Answer) :=
  if Success p.2.1 then .ok (p.1.catalogue, p.2) else .error p.2.1

theorem outcome_of_success {p : Store × Answer} (h : Success p.2.1) :
    outcome p = .ok (p.1.catalogue, p.2) := if_pos h

theorem outcome_of_not_success {p : Store × Answer} (h : ¬ Success p.2.1) :
    outcome p = .error p.2.1 := if_neg h

/-! ## One request -/

section Refines

variable {st st' : Store} {k : Controller} {i j id : Id}

theorem contains_iff : st.catalogue.Contains k i ↔ st.Stored k i := by
  cases k <;> exact Iff.rfl

theorem needed_iff : st.catalogue.Needed k i ↔ st.Referred k i := by
  cases k with
  | application =>
    rw [referred_application_iff, any_iff_find]
    exact Iff.rfl
  | schedule =>
    rw [referred_schedule_iff, any_iff_find]
    exact Iff.rfl
  | chaos =>
    rw [referred_chaos_iff, any_iff_find]
    exact Iff.rfl
  | event => exact iff_of_false (fun h => h) not_referred_event

theorem catalogue_remove : (st.remove k i).catalogue = st.catalogue.remove k i := by
  cases k with
  | application => simp [Store.catalogue, Store.remove, Catalogue.remove]
  | schedule => simp [Store.catalogue, Store.remove, Catalogue.remove]
  | chaos => simp [Store.catalogue, Store.remove, Catalogue.remove]
  | event => simp [Store.catalogue, Store.remove, Catalogue.remove]

theorem admits_iff {row : ScheduleRow} : st.catalogue.Admits id row ↔ st.Admits id row := by
  unfold Catalogue.Admits Store.Admits Store.nameTaken
  rw [Table.any_eq_false]
  refine and_congr_right fun _ => forall₃_congr fun j r _ => ?_
  simp only [ne_eq, Bool.and_eq_false_imp, decide_eq_true_eq, decide_eq_false_iff_not]
  exact ⟨fun h hj hname => hj (h hname), fun h hname => not_not.mp fun hj => h hj hname⟩

theorem linkable_iff : st.catalogue.Linkable i j ↔ st.Creatable i j :=
  ⟨fun h => ⟨h.application, h.schedule, h.unused⟩, fun h => ⟨h.application, h.schedule, h.unused⟩⟩

theorem discard_refines :
    outcome ((k.delete i).respond false st) = st.catalogue.discard k i := by
  unfold Catalogue.discard
  rw [contains_iff, needed_iff]
  by_cases hstored : st.Stored k i
  · rw [if_neg (not_not_intro hstored)]
    by_cases href : st.Referred k i
    · rw [respond_delete_of_referred href hstored, if_pos href]
      rfl
    · rw [respond_delete_of_free href hstored, if_neg href, outcome_of_success success_noContent,
        catalogue_remove]
      cases k <;> rfl
  · rw [respond_delete_of_absent hstored, if_pos hstored]
    rfl

theorem createApplication_refines (g : UUID) :
    outcome ((Request.createApplication (some g)).respond false st) =
      st.catalogue.serve (.createApplication (some g)) := by
  have htaken : (∃ j, st.catalogue.application.find j = some ⟨g⟩) ↔
      st.applicationIdTaken g = true := by
    unfold Store.applicationIdTaken
    rw [Table.any_iff]
    simp only [decide_eq_true_eq]
    constructor
    · rintro ⟨j, h⟩
      exact ⟨j, ⟨g⟩, h, rfl⟩
    · rintro ⟨j, ⟨_⟩, h, rfl⟩
      exact ⟨j, h⟩
  simp only [Catalogue.serve]
  cases h : st.applicationIdTaken g with
  | true =>
    have hexec : (Statement.insertApplication ⟨g⟩).exec st = none := if_pos h
    have hhandle : (Request.createApplication (some g)).handle st =
        .error .dataIntegrityViolation := by
      rw [Request.handle, ApplicationController.create, saveAndFlush, hexec]
      rfl
    rw [(Refused.handler .dataIntegrityViolation hhandle).respond, if_pos (htaken.mpr h)]
    rfl
  | false =>
    have hfree : ¬ st.applicationIdTaken g = true := by
      rw [h]
      exact Bool.false_ne_true
    have hexec : (Statement.insertApplication ⟨g⟩).exec st =
        some { st with application := st.application.insert ⟨g⟩ } := if_neg hfree
    have hhandle := ApplicationController.create_eq_ok.mpr ⟨g, _, rfl, hexec, rfl⟩
    rw [respond_of_commits (r := .createApplication (some g)) hhandle rfl,
      outcome_of_success success_created, if_neg (mt htaken.mp hfree)]
    simp [Store.catalogue]

theorem createSchedule_refines (expression name : String) :
    outcome ((Request.createSchedule ⟨some expression, some name⟩).respond false st) =
      st.catalogue.serve (.createSchedule ⟨some expression, some name⟩) := by
  have hadmits : st.catalogue.Admits st.catalogue.schedule.next ⟨name, expression⟩ ↔
      st.Admits st.schedule.next ⟨name, expression⟩ := admits_iff
  rw [respond_createSchedule]
  simp only [Catalogue.serve]
  by_cases h : st.Admits st.schedule.next ⟨name, expression⟩
  · have hexec : (Statement.insertSchedule ⟨name, expression⟩).exec st =
        some { st with schedule := st.schedule.insert ⟨name, expression⟩ } := if_pos h
    rw [hexec, if_pos (hadmits.mpr h)]
    simp only [Bool.false_eq_true, if_false]
    rw [outcome_of_success success_created]
    simp [Store.catalogue]
  · have hexec : (Statement.insertSchedule ⟨name, expression⟩).exec st = none := if_neg h
    rw [hexec, if_neg (mt hadmits.mp h)]
    rfl

theorem updateSchedule_refines (input : ScheduleUpdateInput) :
    outcome ((Request.updateSchedule id input).respond false st) =
      st.catalogue.serve (.updateSchedule id input) := by
  have hfind : st.catalogue.schedule.find id = st.schedule.find id := rfl
  simp only [Catalogue.serve, hfind]
  cases hrow : st.schedule.find id with
  | none =>
    have hhandle : (Request.updateSchedule id input).handle st =
        .error (proxyFailure (input.expression.isSome || input.name.isSome)) := by
      simp [Request.handle, ScheduleController.update, hrow]
    rw [(Refused.handler _ hhandle).respond]
    obtain ⟨_ | expression, _ | name⟩ := input <;> rfl
  | some row =>
    rw [respond_updateSchedule input false hrow]
    dsimp only
    by_cases hsame : input.apply row = row
    · -- the row that is put is the one that is there
      rw [if_pos hsame, if_pos (Or.inl hsame)]
      simp only [Bool.false_eq_true, if_false]
      rw [outcome_of_success success_noContent, hsame, Extent.put_eq_self (hfind.trans hrow)]
    · rw [if_neg hsame]
      by_cases h : st.Admits id (input.apply row)
      · have hexec : (Statement.updateSchedule id (input.apply row)).exec st =
            some { st with schedule := st.schedule.set id (input.apply row) } := if_pos h
        rw [hexec, if_pos (Or.inr (admits_iff.mpr h))]
        simp only [Bool.false_eq_true, if_false]
        rw [outcome_of_success success_noContent]
        simp [Store.catalogue]
      · have hexec : (Statement.updateSchedule id (input.apply row)).exec st = none := if_neg h
        rw [hexec, if_neg (not_or_intro hsame (mt admits_iff.mp h))]
        rfl

theorem createChaos_refines (application schedule : URI) (probability : ℚ) :
    outcome ((Request.createChaos ⟨some application, some probability, some schedule⟩).respond
      false st) =
      st.catalogue.serve (.createChaos ⟨some application, some probability, some schedule⟩) := by
  simp only [Catalogue.serve]
  cases hp : validProbability probability with
  | false =>
    have hhandle :
        (Request.createChaos ⟨some application, some probability, some schedule⟩).handle st =
          .error .invalid := by
      simp [Request.handle, ChaosController.create, hp]
    rw [(Refused.handler .invalid hhandle).respond]
    rfl
  | true =>
    cases hi : applicationId application with
    | none =>
      rw [respond_of_malformed hp (Or.inl hi)]
      rfl
    | some i =>
      cases hj : scheduleId schedule with
      | none =>
        rw [respond_of_malformed hp (Or.inr hj)]
        rfl
      | some j =>
        simp only [if_true]
        by_cases h : st.Creatable i j
        · obtain ⟨st', hexec⟩ := exec_insertChaos_iff.mpr h
          have hhandle := ChaosController.create_eq_ok.mpr
            ⟨application, probability, schedule, i, j, st', rfl, hp, hi, hj, hexec, rfl⟩
          have hrespond := respond_of_commits
            (r := .createChaos ⟨some application, some probability, some schedule⟩) hhandle rfl
          rw [hrespond, outcome_of_success success_created, if_pos (linkable_iff.mpr h)]
          cases exec_eq_some.mp hexec with
          | insertChaos row happlication hschedule hpair => simp [Store.catalogue]
        · rw [respond_of_not_creatable hp hi hj h, if_neg (mt linkable_iff.mp h)]
          rfl

/-- The database has nothing against another probability. -/
theorem exec_updateChaos_of_probability (hst : st.Valid) {row : ChaosRow}
    (hrow : st.chaos.find id = some row) (p : ℚ) :
    (Statement.updateChaos id { row with probability := p }).exec st =
      some { st with chaos := st.chaos.set id { row with probability := p } } := by
  refine if_pos ⟨references_iff.mpr ⟨hst.applications id row hrow, hst.schedules id row hrow⟩, ?_⟩
  refine Table.any_eq_false.mpr fun j r hr => ?_
  simp only [ne_eq, Bool.and_eq_false_imp, decide_eq_true_eq, decide_eq_false_iff_not]
  intro hj happlication hschedule
  exact hj (hst.pairs j id r row hr hrow (Prod.ext happlication hschedule))

theorem updateChaos_refines (hst : st.Valid) (probability : Option ℚ) :
    outcome ((Request.updateChaos id probability).respond false st) =
      st.catalogue.serve (.updateChaos id probability) := by
  have hfind : st.catalogue.chaos.find id = st.chaos.find id := rfl
  simp only [Catalogue.serve, hfind]
  cases hp : probability.all validProbability with
  | false =>
    have hhandle : (Request.updateChaos id probability).handle st = .error .invalid := by
      simp [Request.handle, ChaosController.update, hp]
    rw [(Refused.handler .invalid hhandle).respond]
    rfl
  | true =>
    cases hrow : st.chaos.find id with
    | none =>
      have hhandle : (Request.updateChaos id probability).handle st =
          .error (proxyFailure probability.isSome) := by
        simp [Request.handle, ChaosController.update, hp, hrow]
      rw [(Refused.handler _ hhandle).respond]
      cases probability with
      | none => rfl
      | some p => rfl
    | some row =>
      have hhandle := ChaosController.update_eq_ok.mpr ⟨hp, row, hrow, rfl⟩
      by_cases hsame : { row with probability := probability.getD row.probability } = row
      · rw [if_pos hsame] at hhandle
        rw [respond_of_commits (r := .updateChaos id probability) hhandle rfl,
          outcome_of_success success_noContent]
        simp only [if_true]
        rw [hsame, Extent.put_eq_self (hfind.trans hrow)]
      · rw [if_neg hsame] at hhandle
        have hexec := exec_updateChaos_of_probability hst hrow
          (probability.getD row.probability)
        rw [respond_of_commits (r := .updateChaos id probability) hhandle
          (execAll_singleton.trans hexec), outcome_of_success success_noContent]
        simp [Store.catalogue]

/-- **A request does to the store what it does to the catalogue**, and is given the same answer. -/
theorem respond_refines (hst : st.Valid) (r : Request) :
    outcome (r.respond false st) = st.catalogue.serve r := by
  cases r with
  | createApplication applicationId =>
    cases applicationId with
    | none => rfl
    | some g => exact createApplication_refines g
  | deleteApplication id => exact discard_refines (k := .application)
  | createSchedule input =>
    obtain ⟨_ | expression, _ | name⟩ := input
    · rfl
    · rfl
    · rfl
    · exact createSchedule_refines expression name
  | deleteSchedule id => exact discard_refines (k := .schedule)
  | updateSchedule id input => exact updateSchedule_refines input
  | createChaos input =>
    obtain ⟨_ | application, _ | probability, _ | schedule⟩ := input
    case some.some.some => exact createChaos_refines application schedule probability
    all_goals rfl
  | deleteChaos id => exact discard_refines (k := .chaos)
  | updateChaos id probability => exact updateChaos_refines hst probability
  | deleteEvent id => exact discard_refines (k := .event)

end Refines

/-! ## Requests one after another -/

/-- The store after the requests, and their answers. -/
def respondAll : List Request → Store → Store × List Answer
  | [], st => (st, [])
  | r :: rs, st =>
    let p := r.respond false st
    let q := respondAll rs p.1
    (q.1, p.2 :: q.2)

/-- The catalogue after the requests, and what they have come to. One that is refused has changed
nothing. -/
noncomputable def Catalogue.serveAll :
    Catalogue → List Request → Catalogue × List (Except Status Answer)
  | m, [] => (m, [])
  | m, r :: rs =>
    match m.serve r with
    | .error status =>
      let q := m.serveAll rs
      (q.1, .error status :: q.2)
    | .ok (m', a) =>
      let q := m'.serveAll rs
      (q.1, .ok a :: q.2)

/-- What the client is told. -/
def Answer.result (a : Answer) : Except Status Answer := if Success a.1 then .ok a else .error a.1

/-- **Any number of requests, one after another, do to the store what they do to the catalogue**,
and each of them is given the answer that the catalogue gives. `AUTO_INCREMENT` is taken to count
without gaps, where a database may skip the id of an insertion it has refused. -/
theorem serial_refines {st : Store} (hst : st.Valid) (rs : List Request) :
    st.catalogue.serveAll rs =
      ((respondAll rs st).1.catalogue, (respondAll rs st).2.map Answer.result) := by
  induction rs generalizing st with
  | nil => rfl
  | cons r rs ih =>
    have hrefines := respond_refines hst r
    have hrest := ih ((respond_evolves hst r false).valid hst)
    unfold Catalogue.serveAll respondAll
    rw [← hrefines]
    by_cases h : Success (r.respond false st).2.1
    · rw [outcome_of_success h, List.map_cons, Answer.result, if_pos h]
      simp only [hrest]
    · have hsame := ((respond_refused_iff rfl).mp h).respond
      rw [hsame] at hrest
      rw [outcome_of_not_success h, List.map_cons, Answer.result, if_neg h, hsame]
      simp only [hrest]

/-- An application cannot be deleted before its chaos, which is not there any more to be updated. -/
def dismantling : List Request :=
  [.createApplication (some 1), .createSchedule ⟨some "0 0 * * * *", some "hourly"⟩,
    .createChaos ⟨some "/applications/1", some 1, some "/schedules/1"⟩, .deleteApplication 1,
    .deleteChaos 1, .deleteApplication 1, .updateChaos 1 (some 0), .updateChaos 1 none]

theorem serial_refines_dismantling :
    (Store.empty.catalogue.serveAll dismantling).2 =
      [.ok (201, []), .ok (201, [.created ⟨"0 0 * * * *", 1, "hourly"⟩]), .ok (201, []),
        .error 400, .ok (204, []), .ok (204, []), .error 404, .error 500] := by
  rw [serial_refines valid_empty]
  rfl

end ChaosLoris
