import ChaosLoris.StoreInvariant

/-!
# The repositories

`getOne` and the derived queries, as entities with the entities they refer to. In a valid store
every row is an entity, as its references are stored.
-/

namespace ChaosLoris

open Keyed

/-! ## Entities -/

def Store.getApplication (st : Store) (id : Id) : Option Application :=
  (st.application.find id).map fun row => ⟨row.applicationId, id⟩

def Store.getSchedule (st : Store) (id : Id) : Option Schedule :=
  (st.schedule.find id).map fun row => row.entity id

def Store.getChaos (st : Store) (id : Id) : Option Chaos :=
  (st.chaos.find id).bind (st.chaosEntity id)

/-- The event entity of a row, with its collection in order. -/
def Store.eventEntity (st : Store) (id : Id) (row : EventRow) : Option Event :=
  (st.getChaos row.chaosId).map fun chaos =>
    { chaos, executedAt := row.executedAt, id := some id,
      terminatedInstances :=
        ((st.eventTerminatedInstances.filter fun r => r.1 = id).map Prod.snd).mergeSort,
      totalInstanceCount := row.totalInstanceCount }

def Store.getEvent (st : Store) (id : Id) : Option Event :=
  (st.event.find id).bind (st.eventEntity id)

/-! ## Queries, in some order -/

def Store.findChaoses (st : Store) (p : ChaosRow → Prop) [DecidablePred p] : List Chaos :=
  st.chaos.toList.filterMap fun e => if p e.2 then st.chaosEntity e.1 e.2 else none

def Store.findByApplication (st : Store) (application : Application) : List Chaos :=
  st.findChaoses fun row => row.applicationId = application.id

def Store.findBySchedule (st : Store) (schedule : Schedule) : List Chaos :=
  st.findChaoses fun row => row.scheduleId = schedule.id

def Store.findByChaos (st : Store) (chaos : Chaos) : List Event :=
  st.event.toList.filterMap fun e =>
    if e.2.chaosId = chaos.id then st.eventEntity e.1 e.2 else none

section Entities

variable {st : Store} {id : Id} {row : ChaosRow} {c : Chaos}

theorem chaosEntity_eq_some : st.chaosEntity id row = some c ↔
    ∃ a s, st.application.find row.applicationId = some a ∧
      st.schedule.find row.scheduleId = some s ∧
      c = { application := ⟨a.applicationId, row.applicationId⟩, id,
            probability := row.probability, schedule := s.entity row.scheduleId } := by
  unfold Store.chaosEntity
  cases ha : st.application.find row.applicationId with
  | none => simp
  | some a =>
    cases hs : st.schedule.find row.scheduleId with
    | none => simp
    | some s => simp [eq_comm]

theorem chaosEntity_id (h : st.chaosEntity id row = some c) : c.id = id := by
  obtain ⟨a, s, -, -, rfl⟩ := chaosEntity_eq_some.mp h
  rfl

theorem getChaos_eq_some : st.getChaos id = some c ↔
    ∃ row, st.chaos.find id = some row ∧ st.chaosEntity id row = some c := Option.bind_eq_some_iff

theorem getChaos_id (h : st.getChaos id = some c) : c.id = id := by
  obtain ⟨row, -, h⟩ := getChaos_eq_some.mp h
  exact chaosEntity_id h

theorem getEvent_eq_some {e : Event} : st.getEvent id = some e ↔
    ∃ row chaos, st.event.find id = some row ∧ st.getChaos row.chaosId = some chaos ∧
      e = { chaos, executedAt := row.executedAt, id := some id,
            terminatedInstances :=
              ((st.eventTerminatedInstances.filter fun r => r.1 = id).map Prod.snd).mergeSort,
            totalInstanceCount := row.totalInstanceCount } := by
  unfold Store.getEvent Store.eventEntity
  simp only [Option.bind_eq_some_iff, Option.map_eq_some_iff]
  constructor
  · rintro ⟨row, hrow, chaos, hchaos, rfl⟩
    exact ⟨row, chaos, hrow, hchaos, rfl⟩
  · rintro ⟨row, chaos, hrow, hchaos, rfl⟩
    exact ⟨row, hrow, chaos, hchaos, rfl⟩

@[simp] theorem isSome_getApplication :
    (st.getApplication id).isSome = (st.application.find id).isSome := Option.isSome_map ..

@[simp] theorem isSome_getSchedule : (st.getSchedule id).isSome = (st.schedule.find id).isSome :=
  Option.isSome_map ..

theorem Store.Valid.isSome_chaosEntity (hst : st.Valid) (hrow : st.chaos.find id = some row) :
    (st.chaosEntity id row).isSome := by
  obtain ⟨a, ha⟩ := Option.isSome_iff_exists.mp (hst.applications id row hrow)
  obtain ⟨s, hs⟩ := Option.isSome_iff_exists.mp (hst.schedules id row hrow)
  rw [chaosEntity_eq_some.mpr ⟨a, s, ha, hs, rfl⟩]
  rfl

theorem Store.Valid.isSome_getChaos (hst : st.Valid) (id : Id) :
    (st.getChaos id).isSome = (st.chaos.find id).isSome := by
  unfold Store.getChaos
  cases hrow : st.chaos.find id with
  | none => rfl
  | some row => exact hst.isSome_chaosEntity hrow

theorem Store.Valid.isSome_getEvent (hst : st.Valid) (id : Id) :
    (st.getEvent id).isSome = (st.event.find id).isSome := by
  unfold Store.getEvent Store.eventEntity
  cases hrow : st.event.find id with
  | none => rfl
  | some row =>
    show ((st.getChaos row.chaosId).map _).isSome = true
    rw [Option.isSome_map, hst.isSome_getChaos]
    exact hst.chaoses id row hrow

end Entities

/-! ## What a query returns -/

section Found

variable {st : Store} {p : ChaosRow → Prop} [DecidablePred p] {scheduleId : Id} {c : Chaos}
  {e : Event}

theorem mem_findChaoses : c ∈ st.findChaoses p ↔
    ∃ row, st.chaos.find c.id = some row ∧ p row ∧ st.chaosEntity c.id row = some c := by
  unfold Store.findChaoses
  rw [List.mem_filterMap]
  constructor
  · rintro ⟨⟨id, row⟩, hrow, h⟩
    obtain ⟨hp, h⟩ := Option.ite_none_right_eq_some.mp h
    obtain rfl : c.id = id := chaosEntity_id h
    exact ⟨row, Table.mem_toList.mp hrow, hp, h⟩
  · rintro ⟨row, hrow, hp, h⟩
    exact ⟨(c.id, row), Table.mem_toList.mpr hrow, (if_pos hp).trans h⟩

theorem nodup_findChaoses_ids (st : Store) (p : ChaosRow → Prop) [DecidablePred p] :
    ((st.findChaoses p).map Chaos.id).Nodup := by
  refine Table.nodup_ids_filterMap Function.injective_id (fun e c h => ?_) st.chaos
  exact chaosEntity_id (Option.ite_none_right_eq_some.mp h).2

theorem Store.Valid.mem_findChaoses_ids (hst : st.Valid) {id : Id} :
    id ∈ (st.findChaoses p).map Chaos.id ↔ ∃ row, st.chaos.find id = some row ∧ p row := by
  rw [List.mem_map]
  constructor
  · rintro ⟨c, hc, rfl⟩
    obtain ⟨row, hrow, hp, -⟩ := mem_findChaoses.mp hc
    exact ⟨row, hrow, hp⟩
  · rintro ⟨row, hrow, hp⟩
    obtain ⟨c, hc⟩ := Option.isSome_iff_exists.mp (hst.isSome_chaosEntity hrow)
    obtain rfl : c.id = id := chaosEntity_id hc
    exact ⟨c, mem_findChaoses.mpr ⟨row, hrow, hp, hc⟩, rfl⟩

theorem mem_findByScheduleId : c ∈ st.findByScheduleId scheduleId ↔
    ∃ row, st.chaos.find c.id = some row ∧ row.scheduleId = scheduleId ∧
      st.chaosEntity c.id row = some c :=
  mem_findChaoses (p := fun row => row.scheduleId = scheduleId)

theorem nodup_findByScheduleId (st : Store) (scheduleId : Id) :
    (st.findByScheduleId scheduleId).Nodup :=
  .of_map _ (nodup_findChaoses_ids st fun row => row.scheduleId = scheduleId)

theorem eventEntity_id {id : Id} {row : EventRow} (h : st.eventEntity id row = some e) :
    e.id = some id := by
  obtain ⟨chaos, -, rfl⟩ := Option.map_eq_some_iff.mp h
  rfl

theorem nodup_findByChaos_ids (st : Store) (chaos : Chaos) :
    ((st.findByChaos chaos).map Event.id).Nodup := by
  refine Table.nodup_ids_filterMap (Option.some_injective _) (fun p e h => ?_) st.event
  exact eventEntity_id (Option.ite_none_right_eq_some.mp h).2

theorem Store.Valid.mem_findByChaos_ids (hst : st.Valid) {chaos : Chaos} {i : Option Id} :
    i ∈ (st.findByChaos chaos).map Event.id ↔
      ∃ id row, i = some id ∧ st.event.find id = some row ∧ row.chaosId = chaos.id := by
  unfold Store.findByChaos
  rw [List.mem_map]
  constructor
  · rintro ⟨e, he, rfl⟩
    obtain ⟨⟨id, row⟩, hrow, h⟩ := List.mem_filterMap.mp he
    obtain ⟨hchaos, h⟩ := Option.ite_none_right_eq_some.mp h
    exact ⟨id, row, eventEntity_id h, Table.mem_toList.mp hrow, hchaos⟩
  · rintro ⟨id, row, rfl, hrow, hchaos⟩
    have hsome : (st.getEvent id).isSome := by
      rw [hst.isSome_getEvent, hrow]
      rfl
    obtain ⟨e, he⟩ := Option.isSome_iff_exists.mp hsome
    rw [Store.getEvent, hrow] at he
    refine ⟨e, List.mem_filterMap.mpr ⟨(id, row), Table.mem_toList.mpr hrow, ?_⟩, eventEntity_id he⟩
    exact (if_pos hchaos).trans he

end Found

end ChaosLoris
