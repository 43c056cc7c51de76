import Mathlib.Data.List.TakeWhile
import ChaosLoris.EventReaper

/-!
# What the reaper removes

A reaper run removes the events it has found up to the first one that it cannot delete
(`doReap_eq`). Removing events is a selection of rows (`Store.removeEvents`), so the order does not
matter, and two runs remove what the later limit alone would (`reaper_deletes_expired`).
-/

namespace ChaosLoris

open Keyed EventReaper

/-- The store without some events and their terminated instances. -/
def Store.removeEvents (st : Store) (ids : List Id) : Store :=
  { st with
    event := st.event.filter fun id _ => id ∉ ids
    eventTerminatedInstances := st.eventTerminatedInstances.filter fun r => r.1 ∉ ids }

/-- The events `ids` are gone from the store, with their terminated instances and nothing else. -/
structure Removed (st st' : Store) (ids : List Id) : Prop where
  event : ∀ id, st'.event.find id = if id ∈ ids then none else st.event.find id
  eventTerminatedInstances :
    st'.eventTerminatedInstances = st.eventTerminatedInstances.filter fun r => r.1 ∉ ids
  chaos : st'.chaos = st.chaos
  application : st'.application = st.application
  schedule : st'.schedule = st.schedule

section Remove

variable {st : Store} {ids ids' : List Id} {id : Id} {limit : Instant}

theorem removeEvents_nil (st : Store) : st.removeEvents [] = st := by
  unfold Store.removeEvents
  simp [Table.filter_true]

theorem removeEvents_removeEvents (st : Store) (ids ids' : List Id) :
    (st.removeEvents ids).removeEvents ids' = st.removeEvents (ids ++ ids') := by
  unfold Store.removeEvents
  simp only [Table.filter_filter, List.filter_filter, List.mem_append, not_or, Bool.decide_and]
  congr 1
  exact List.filter_congr fun r _ => Bool.and_comm _ _

theorem removeEvents_congr (h : ∀ id, id ∈ ids ↔ id ∈ ids') :
    st.removeEvents ids = st.removeEvents ids' := by
  unfold Store.removeEvents
  simp only [h]

theorem find_removeEvents (st : Store) (ids : List Id) (id : Id) :
    (st.removeEvents ids).event.find id = if id ∈ ids then none else st.event.find id := by
  show (st.event.filter _).find id = _
  rw [Table.find_filter]
  split_ifs with h
  · simp [h]
  · cases st.event.find id <;> simp [h]

theorem removed_removeEvents (st : Store) (ids : List Id) :
    Removed st (st.removeEvents ids) ids :=
  ⟨find_removeEvents st ids, rfl, rfl, rfl, rfl⟩

theorem exec_deleteEvent (st : Store) (id : Id) :
    (Statement.deleteEvent id).exec st = some (st.removeEvents [id]) := by
  unfold Statement.exec Store.removeEvents
  simp only [List.mem_singleton, Table.delete_eq_filter]

theorem mem_findByExecutedAtBefore : id ∈ st.findByExecutedAtBefore limit ↔
    ∃ r, st.event.find id = some r ∧ r.executedAt < limit := by
  unfold Store.findByExecutedAtBefore
  simp only [List.mem_map, List.mem_filter, decide_eq_true_eq]
  constructor
  · rintro ⟨⟨id, r⟩, ⟨hr, hlt⟩, rfl⟩
    exact ⟨r, Table.mem_toList.mp hr, hlt⟩
  · rintro ⟨r, hr, hlt⟩
    exact ⟨(id, r), ⟨Table.mem_toList.mpr hr, hlt⟩, rfl⟩

theorem nodup_findByExecutedAtBefore (st : Store) (limit : Instant) :
    (st.findByExecutedAtBefore limit).Nodup :=
  st.event.nodup_ids.sublist (List.filter_sublist.map _)

end Remove

namespace EventReaper

variable {deletes : Id → Bool} {events : List Id} {st : Store}

/-- The events before the first one that cannot be deleted are removed. -/
theorem reapAll_eq (deletes : Id → Bool) (events : List Id) (st : Store) :
    reapAll deletes events st = (st.removeEvents (events.takeWhile deletes), events.all deletes) := by
  induction events generalizing st with
  | nil => exact Prod.ext (removeEvents_nil st).symm rfl
  | cons event events ih =>
    unfold reapAll
    cases h : deletes event with
    | false => simp [h, removeEvents_nil]
    | true =>
      rw [if_pos rfl, exec_deleteEvent]
      dsimp only
      rw [ih, removeEvents_removeEvents]
      simp [h]

theorem doReap_eq (deletes : Id → Bool) (events : List Id) (st : Store) :
    doReap deletes events st = (st.removeEvents (events.takeWhile deletes),
      if events.all deletes then some events.length else none) := by
  unfold doReap
  rw [reapAll_eq]
  cases events.all deletes <;> rfl

theorem doReapAt_ofDays {days : ℤ} {now : Instant}
    (h : events.Perm (st.findByExecutedAtBefore (now - days * nanosPerDay))) :
    doReapAt (.ofDays days) now deletes events st = some (doReap deletes events st) := by
  show (if events.Perm _ then some _ else none) = _
  exact if_pos h

theorem doReapAt_of_deletes {days : ℤ} {now : Instant}
    (h : events.Perm (st.findByExecutedAtBefore (now - days * nanosPerDay)))
    (hdeletes : ∀ id ∈ events, deletes id = true) :
    doReapAt (.ofDays days) now deletes events st =
      some (st.removeEvents events, some events.length) := by
  rw [doReapAt_ofDays h, doReap_eq, List.takeWhile_eq_self_iff.mpr hdeletes,
    if_pos (List.all_eq_true.mpr hdeletes)]

/-- The first failure ends the run. -/
theorem doReapAt_of_fails {days : ℤ} {now : Instant} {k : ℕ} {id : Id}
    (h : events.Perm (st.findByExecutedAtBefore (now - days * nanosPerDay)))
    (hk : events[k]? = some id) (hfails : deletes id = false)
    (hdeletes : ∀ j ∈ events.take k, deletes j = true) :
    doReapAt (.ofDays days) now deletes events st =
      some (st.removeEvents (events.take k), none) := by
  obtain ⟨hlt, hget⟩ := List.getElem?_eq_some_iff.mp hk
  have hsplit : events = events.take k ++ id :: events.drop (k + 1) := by
    rw [← hget, List.getElem_cons_drop, List.take_append_drop]
  have htake : events.takeWhile deletes = events.take k := by
    conv_lhs => rw [hsplit]
    rw [List.takeWhile_append_of_pos hdeletes, List.takeWhile_cons_of_neg (by simp [hfails]),
      List.append_nil]
  have hall : events.all deletes = false :=
    List.all_eq_false.mpr ⟨id, List.mem_of_getElem? hk, by simp [hfails]⟩
  rw [doReapAt_ofDays h, doReap_eq, htake, hall]
  rfl

end EventReaper

section Compose

variable {st : Store} {limit limit' : Instant} {events events' all : List Id}

/-- The events before a limit, and then those before a later one. -/
theorem perm_append_found (hle : limit ≤ limit')
    (h : events.Perm (st.findByExecutedAtBefore limit))
    (h' : events'.Perm ((st.removeEvents events).findByExecutedAtBefore limit'))
    (hall : all.Perm (st.findByExecutedAtBefore limit')) : (events ++ events').Perm all := by
  have hmem : ∀ id, id ∈ events' ↔ id ∉ events ∧ id ∈ all := by
    intro id
    rw [h'.mem_iff, hall.mem_iff, mem_findByExecutedAtBefore, mem_findByExecutedAtBefore,
      find_removeEvents]
    split_ifs with hid <;> simp [hid]
  have hsub : ∀ id ∈ events, id ∈ all := by
    intro id hid
    rw [h.mem_iff, mem_findByExecutedAtBefore] at hid
    rw [hall.mem_iff, mem_findByExecutedAtBefore]
    obtain ⟨r, hr, hlt⟩ := hid
    exact ⟨r, hr, hlt.trans_le hle⟩
  have hnodup : (events ++ events').Nodup := by
    rw [List.nodup_append]
    refine ⟨h.nodup_iff.mpr (nodup_findByExecutedAtBefore _ _),
      h'.nodup_iff.mpr (nodup_findByExecutedAtBefore _ _), ?_⟩
    rintro id hid _ hid' rfl
    exact ((hmem id).mp hid').1 hid
  rw [List.perm_ext_iff_of_nodup hnodup (hall.nodup_iff.mpr (nodup_findByExecutedAtBefore _ _))]
  intro id
  rw [List.mem_append, hmem]
  constructor
  · rintro (hid | ⟨-, hid⟩)
    · exact hsub id hid
    · exact hid
  · intro hid
    by_cases hevents : id ∈ events
    · exact Or.inl hevents
    · exact Or.inr ⟨hevents, hid⟩

end Compose

/-- **The reaper deletes exactly the expired events.** Take any store, a period of whole days and a
time `t`, and let the query return the events before the limit in any order. Without failures they
are removed and counted. If the delete at position `k` is the first to fail, those before it are
removed, nothing is counted, and an event that is not before the limit is left alone. A run at a
later time, without failures, then removes the rest of what it would have removed by itself, and
the counts add up; another run at `t` finds nothing. -/
theorem reaper_deletes_expired (days : ℤ) (st : Store) {t : Instant} {events : List Id}
    (hquery : events.Perm (st.findByExecutedAtBefore (t - days * nanosPerDay))) :
    (events.Nodup ∧ ∀ id, id ∈ events ↔
      ∃ r, st.event.find id = some r ∧ r.executedAt < t - days * nanosPerDay) ∧
    (∀ deletes : Id → Bool, (∀ id ∈ events, deletes id = true) →
      ∃ st', doReapAt (.ofDays days) t deletes events st = some (st', some events.length) ∧
        Removed st st' events) ∧
    (∀ (deletes : Id → Bool) k id, events[k]? = some id → deletes id = false →
      (∀ j ∈ events.take k, deletes j = true) →
      ∃ st', doReapAt (.ofDays days) t deletes events st = some (st', none) ∧
        Removed st st' (events.take k) ∧
        ∀ j r, st.event.find j = some r → t - days * nanosPerDay ≤ r.executedAt →
          st'.event.find j = some r ∧ ∀ i, (j, i) ∈ st'.eventTerminatedInstances ↔
            (j, i) ∈ st.eventTerminatedInstances) ∧
    (∀ t' st' count events' all, t ≤ t' →
      doReapAt (.ofDays days) t (fun _ => true) events st = some (st', count) →
      events'.Perm (st'.findByExecutedAtBefore (t' - days * nanosPerDay)) →
      all.Perm (st.findByExecutedAtBefore (t' - days * nanosPerDay)) →
      ∃ st'', doReapAt (.ofDays days) t' (fun _ => true) events' st' =
          some (st'', some events'.length) ∧
        doReapAt (.ofDays days) t' (fun _ => true) all st = some (st'', some all.length) ∧
        count = some events.length ∧ events.length + events'.length = all.length) ∧
    ∀ st' count events', doReapAt (.ofDays days) t (fun _ => true) events st = some (st', count) →
      events'.Perm (st'.findByExecutedAtBefore (t - days * nanosPerDay)) →
      doReapAt (.ofDays days) t (fun _ => true) events' st' = some (st', some 0) := by
  have hnodup : events.Nodup := hquery.nodup_iff.mpr (nodup_findByExecutedAtBefore _ _)
  have hmem : ∀ id, id ∈ events ↔
      ∃ r, st.event.find id = some r ∧ r.executedAt < t - days * nanosPerDay :=
    fun id => hquery.mem_iff.trans mem_findByExecutedAtBefore
  have hreaped : doReapAt (.ofDays days) t (fun _ => true) events st =
      some (st.removeEvents events, some events.length) :=
    doReapAt_of_deletes hquery fun _ _ => rfl
  refine ⟨⟨hnodup, hmem⟩, fun deletes hdeletes => ?_, fun deletes k id hk hfails hdeletes => ?_,
    fun t' st' count events' all hle h hevents' hall => ?_, fun st' count events' h hevents' => ?_⟩
  · exact ⟨_, doReapAt_of_deletes hquery hdeletes, removed_removeEvents st events⟩
  · have hremoved := removed_removeEvents st (events.take k)
    refine ⟨_, doReapAt_of_fails hquery hk hfails hdeletes, hremoved, fun j r hr hlimit => ?_⟩
    have hj : j ∉ events.take k := by
      intro hj
      obtain ⟨r', hr', hlt⟩ := (hmem j).mp (List.mem_of_mem_take hj)
      obtain rfl : r = r' := Option.some.inj (hr.symm.trans hr')
      exact absurd hlt (not_lt.mpr hlimit)
    refine ⟨?_, fun i => ?_⟩
    · rw [hremoved.event, if_neg hj, hr]
    · rw [hremoved.eventTerminatedInstances, List.mem_filter]
      simp [hj]
  · rw [hreaped] at h
    obtain ⟨rfl, rfl⟩ := Prod.mk.inj (Option.some.inj h)
    have hperm := perm_append_found (Int.sub_le_sub_right hle _) hquery hevents' hall
    refine ⟨_, doReapAt_of_deletes hevents' fun _ _ => rfl, ?_, rfl, ?_⟩
    · rw [removeEvents_removeEvents, removeEvents_congr fun id => hperm.mem_iff]
      exact doReapAt_of_deletes hall fun _ _ => rfl
    · rw [← List.length_append]
      exact hperm.length_eq
  · rw [hreaped] at h
    obtain ⟨rfl, -⟩ := Prod.mk.inj (Option.some.inj h)
    have hperm := perm_append_found le_rfl hquery hevents' hquery
    obtain rfl : events' = [] := by
      have := hperm.length_eq
      rw [List.length_append] at this
      exact List.length_eq_zero_iff.mp (by omega)
    rw [doReapAt_of_deletes hevents' fun _ _ => rfl, removeEvents_nil]
    rfl

/-- Two events, with one terminated instance each. -/
def agedStore : Store :=
  { Store.empty with
    event := (Table.empty.insert ⟨1, 0, 1⟩).insert ⟨1, nanosPerDay, 1⟩
    eventTerminatedInstances := [(2, 0), (1, 0)] }

/-- The first event is more than a day old, the second one is not. -/
theorem reaper_deletes_expired_aged :
    ∃ st', doReapAt (.ofDays 1) (nanosPerDay + 1) (fun _ => true) [1] agedStore =
      some (st', some 1) ∧ Removed agedStore st' [1] :=
  (reaper_deletes_expired 1 agedStore (List.Perm.of_eq rfl)).2.1 _ fun _ _ => rfl

end ChaosLoris
