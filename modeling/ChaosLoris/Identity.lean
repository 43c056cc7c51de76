import ChaosLoris.Lib.Later
import ChaosLoris.Queries
import ChaosLoris.Resources

/-!
# What an id stands for

Requests, handlers, runs of destroyers, the reaper and restarts interleave, and a request may write
what it has computed from an old snapshot. All the same an id stands for one entity for good: the
GUID of an application, the ends of a chaos and all of an event stay what they were, and an id that
has been handed out and is not stored is never stored again (`ids_keep_their_meaning`). Only the
name and the expression of a schedule and the probability of a chaos can change.
-/

namespace ChaosLoris

open FlatMap Keyed Runs

/-- A later state of a store. -/
structure Store.Later (st st' : Store) : Prop where
  application : Keyed.Later id st.application st'.application
  schedule : Keyed.Later (fun _ => ()) st.schedule st'.schedule
  chaos : Keyed.Later (fun r => (r.applicationId, r.scheduleId)) st.chaos st'.chaos
  event : Keyed.Later id st.event st'.event
  terminatedInstances : ∀ e i, e < st.event.next → (st'.event.find e).isSome →
    ((e, i) ∈ st'.eventTerminatedInstances ↔ (e, i) ∈ st.eventTerminatedInstances)

/-- The statement leaves the ends of a chaos as they are. -/
def Statement.KeepsEnds (st : Store) : Statement → Prop
  | .updateChaos id row => ∀ old, st.chaos.find id = some old →
      (old.applicationId, old.scheduleId) = (row.applicationId, row.scheduleId)
  | _ => True

section Later

variable {st st' st'' : Store} {s : Statement}

theorem Store.Later.refl : st.Later st :=
  ⟨.refl, .refl, .refl, .refl, fun _ _ _ _ => Iff.rfl⟩

theorem Store.Later.trans (h : st.Later st') (h' : st'.Later st'') : st.Later st'' where
  application := h.application.trans h'.application
  schedule := h.schedule.trans h'.schedule
  chaos := h.chaos.trans h'.chaos
  event := h.event.trans h'.event
  terminatedInstances := by
    intro e i he hstored
    have he' := he.trans_le h.event.next_le
    have hstored' : (st'.event.find e).isSome := by
      obtain ⟨r, hr⟩ := Option.isSome_iff_exists.mp hstored
      obtain ⟨r', hr', -⟩ := h'.event.kept e r he' hr
      exact Option.isSome_of_eq_some hr'
    exact (h'.terminatedInstances e i he' hstored).trans (h.terminatedInstances e i he hstored')

/-- **A statement leads to a later store.** -/
theorem exec_later (hs : s.KeepsEnds st) (hexec : s.exec st = some st') : st.Later st' := by
  cases exec_eq_some.mp hexec with
  | insertSchedule row _ _ => exact { Store.Later.refl with schedule := .insert row }
  | updateSchedule id row _ _ => exact { Store.Later.refl with schedule := .set fun _ _ => rfl }
  | deleteSchedule id _ => exact { Store.Later.refl with schedule := .delete id }
  | insertApplication row _ => exact { Store.Later.refl with application := .insert row }
  | deleteApplication id _ => exact { Store.Later.refl with application := .delete id }
  | insertChaos row _ _ _ => exact { Store.Later.refl with chaos := .insert row }
  | updateChaos id row _ _ _ => exact { Store.Later.refl with chaos := .set hs }
  | deleteChaos id _ => exact { Store.Later.refl with chaos := .delete id }
  | insertEvent row terminatedInstances _ _ =>
    refine { Store.Later.refl with event := .insert row, terminatedInstances := ?_ }
    intro e i he _
    rw [List.mem_append]
    refine or_iff_right fun hmem => ?_
    obtain ⟨j, -, heq⟩ := List.mem_map.mp hmem
    obtain ⟨rfl, -⟩ := Prod.mk.inj heq
    exact absurd he (lt_irrefl _)
  | deleteEvent id =>
    refine { Store.Later.refl with event := .delete id, terminatedInstances := ?_ }
    intro e i _ hstored
    rw [List.mem_filter]
    refine and_iff_left (decide_eq_true ?_)
    rintro rfl
    rw [Table.find_delete, if_pos rfl] at hstored
    cases hstored

theorem persistAll_later {es : List (ℕ × Effect)} (h : persistAll es st = some st') :
    st.Later st' :=
  persistAll_keeps (P := fun u => st.Later u)
    (fun row l _ _ hexec hlater =>
      hlater.trans (exec_later (s := .insertEvent row l) trivial hexec)) h .refl

end Later

/-! ## Requests -/

section Requests

variable {st snapshot : Store} {r : Request}

/-- A `PATCH` of a chaos writes the ends it has read, and they are still what they were. -/
theorem Request.Issues.keepsEnds {s : Statement} (h : r.Issues snapshot s)
    (hlater : snapshot.Later st) : s.KeepsEnds st := by
  cases h with
  | updateChaos id probability row hrow =>
    exact fun old hold => (hlater.chaos.column_eq hrow hold).symm
  | _ => trivial

theorem respondFrom_later (hlater : snapshot.Later st) (r : Request) (rollback : Bool) :
    st.Later (r.respondFrom rollback snapshot st).1 := by
  obtain hsame | ⟨s, hs, hexec, -⟩ := respondFrom_issues r rollback snapshot st
  · rw [hsame]
    exact .refl
  · exact exec_later (hs.keepsEnds hlater) hexec

end Requests

/-! ## The system -/

/-- Every request in flight has read an earlier store. -/
def System.ReadsEarlier (s : System) : Prop := ∀ p ∈ s.requests, p.2.Later s.store

section System

variable {accepts : String → Bool} {s t : System} {x : System.Label}

theorem step_later (hs : s.ReadsEarlier) (h : s.step accepts x = some t) :
    s.store.Later t.store := by
  obtain ⟨r, -, rfl⟩ | ⟨k, rollback, r, snapshot, -, hk, hstore, -, -⟩ | ⟨y, -, handlers, rfl⟩ |
    ⟨id, behave, chaoses, -, -, rfl⟩ | ⟨k, y, e, d, es, st, -, -, -, hst, rfl⟩ |
    ⟨event, st, -, hst, rfl⟩ | ⟨-, rfl⟩ := System.step_cases h
  · exact .refl
  · rw [hstore]
    exact respondFrom_later (hs _ (List.mem_of_getElem? hk)) r rollback
  · exact .refl
  · exact .refl
  · exact persistAll_later hst
  · exact exec_later (s := .deleteEvent event) trivial hst
  · exact .refl

theorem readsEarlier_step (hs : s.ReadsEarlier) (h : s.step accepts x = some t) :
    t.ReadsEarlier := by
  have hlater := step_later hs h
  obtain ⟨r, -, rfl⟩ | ⟨k, rollback, r, snapshot, -, -, -, hrequests, -⟩ | ⟨y, -, handlers, rfl⟩ |
    ⟨id, behave, chaoses, -, -, rfl⟩ | ⟨k, y, e, d, es, st, -, -, -, -, rfl⟩ |
    ⟨event, st, -, -, rfl⟩ | ⟨-, rfl⟩ := System.step_cases h
  · intro p hp
    rcases List.mem_append.mp hp with hp | hp
    · exact hs p hp
    · obtain rfl := List.mem_singleton.mp hp
      exact .refl
  · intro p hp
    rw [hrequests] at hp
    exact (hs p (List.mem_of_mem_eraseIdx hp)).trans hlater
  · exact hs
  · exact hs
  · exact fun p hp => (hs p hp).trans hlater
  · exact fun p hp => (hs p hp).trans hlater
  · exact fun p hp => absurd hp List.not_mem_nil

theorem readsEarlier_run {xs : List System.Label}
    (hrun : run (System.step accepts) s xs = some t) (hs : s.ReadsEarlier) : t.ReadsEarlier :=
  run_inv (fun _ _ _ h hu => readsEarlier_step hu h) hrun hs

theorem readsEarlier_init : System.init.ReadsEarlier :=
  fun _ hp => absurd hp List.not_mem_nil

theorem run_later {xs : List System.Label} (hrun : run (System.step accepts) s xs = some t)
    (hs : s.ReadsEarlier) : s.store.Later t.store := by
  refine (run_inv (P := fun u => u.ReadsEarlier ∧ s.store.Later u.store) ?_ hrun
    ⟨hs, .refl⟩).2
  rintro u x v h ⟨hu, hlater⟩
  exact ⟨readsEarlier_step hu h, hlater.trans (step_later hu h)⟩

end System

/-! ## Entities of a later store -/

/-- An id means in the store `st'` what it has meant in `st`. -/
structure Store.KeepsMeaning (st st' : Store) : Prop where
  gone : ∀ k i, i < st.next k → ¬ st.Stored k i → ¬ st'.Stored k i
  application : ∀ i a a', st.getApplication i = some a → st'.getApplication i = some a' → a' = a
  chaos : ∀ i c c', st.getChaos i = some c → st'.getChaos i = some c' →
    c'.application = c.application ∧ c'.schedule.id = c.schedule.id
  event : ∀ i e e', st.getEvent i = some e → st'.getEvent i = some e' →
    e'.executedAt = e.executedAt ∧ e'.terminatedInstances = e.terminatedInstances ∧
      e'.totalInstanceCount = e.totalInstanceCount ∧ e'.chaos.id = e.chaos.id ∧
      e'.chaos.application = e.chaos.application ∧ e'.chaos.schedule.id = e.chaos.schedule.id

section Meaning

variable {st st' : Store} {i : Id}

theorem Store.Later.not_stored (h : st.Later st') {k : Controller} (hi : i < st.next k)
    (hnot : ¬ st.Stored k i) : ¬ st'.Stored k i := by
  cases k with
  | application =>
    have hnone := Option.not_isSome_iff_eq_none.mp hnot
    exact Option.not_isSome_iff_eq_none.mpr (h.application.find_eq_none hi hnone)
  | schedule =>
    have hnone := Option.not_isSome_iff_eq_none.mp hnot
    exact Option.not_isSome_iff_eq_none.mpr (h.schedule.find_eq_none hi hnone)
  | chaos =>
    have hnone := Option.not_isSome_iff_eq_none.mp hnot
    exact Option.not_isSome_iff_eq_none.mpr (h.chaos.find_eq_none hi hnone)
  | event =>
    have hnone := Option.not_isSome_iff_eq_none.mp hnot
    exact Option.not_isSome_iff_eq_none.mpr (h.event.find_eq_none hi hnone)

theorem Store.Later.chaos_eq (h : st.Later st') {c c' : Chaos} (hc : st.getChaos i = some c)
    (hc' : st'.getChaos i = some c') :
    c'.application = c.application ∧ c'.schedule.id = c.schedule.id := by
  obtain ⟨row, hrow, hentity⟩ := getChaos_eq_some.mp hc
  obtain ⟨row', hrow', hentity'⟩ := getChaos_eq_some.mp hc'
  obtain ⟨happlication, hschedule⟩ := Prod.mk.inj (h.chaos.column_eq hrow hrow')
  obtain ⟨a, s, ha, -, rfl⟩ := chaosEntity_eq_some.mp hentity
  obtain ⟨a', s', ha', -, rfl⟩ := chaosEntity_eq_some.mp hentity'
  rw [← happlication] at ha'
  have ha : a = a' := h.application.column_eq ha ha'
  exact ⟨by rw [← happlication, ha], hschedule.symm⟩

theorem mergeSort_eq_of_mem {l l' : List (Id × ℕ)} (hl : l.Nodup) (hl' : l'.Nodup)
    (hmem : ∀ j, (i, j) ∈ l' ↔ (i, j) ∈ l) :
    ((l'.filter fun r => r.1 = i).map Prod.snd).mergeSort =
      ((l.filter fun r => r.1 = i).map Prod.snd).mergeSort := by
  have hperm : (l'.filter fun r => r.1 = i).Perm (l.filter fun r => r.1 = i) := by
    refine (List.perm_ext_iff_of_nodup (hl'.filter _) (hl.filter _)).mpr fun r => ?_
    rw [List.mem_filter, List.mem_filter]
    refine and_congr_left fun hr => ?_
    obtain ⟨j, n⟩ := r
    obtain rfl : j = i := of_decide_eq_true hr
    exact hmem n
  refine List.Perm.eq_of_sortedLE List.sortedLE_mergeSort List.sortedLE_mergeSort ?_
  exact (List.mergeSort_perm _ _).trans ((hperm.map _).trans (List.mergeSort_perm _ _).symm)

theorem Store.Later.keepsMeaning (h : st.Later st') (hst : st.Valid) (hst' : st'.Valid) :
    st.KeepsMeaning st' where
  gone _ _ hi hnot := h.not_stored hi hnot
  application i a a' ha ha' := by
    obtain ⟨row, hrow, rfl⟩ := Option.map_eq_some_iff.mp ha
    obtain ⟨row', hrow', rfl⟩ := Option.map_eq_some_iff.mp ha'
    obtain rfl : row = row' := h.application.column_eq hrow hrow'
    rfl
  chaos _ _ _ hc hc' := h.chaos_eq hc hc'
  event i e e' he he' := by
    obtain ⟨row, c, hrow, hc, rfl⟩ := getEvent_eq_some.mp he
    obtain ⟨row', c', hrow', hc', rfl⟩ := getEvent_eq_some.mp he'
    obtain rfl : row = row' := h.event.column_eq hrow hrow'
    obtain ⟨happlication, hschedule⟩ := h.chaos_eq hc hc'
    refine ⟨rfl, ?_, rfl, (getChaos_id hc').trans (getChaos_id hc).symm, happlication, hschedule⟩
    refine mergeSort_eq_of_mem hst.terminatedInstances.nodup hst'.terminatedInstances.nodup
      fun j => ?_
    exact h.terminatedInstances i j (Table.lt_of_find hrow) (Option.isSome_of_eq_some hrow')

end Meaning

/-- **An id keeps its meaning.** From one state of the system to any later one, an id that has been
handed out and is not stored is not stored again, the application under an id is the same
application, the chaos under an id links the same application and the same schedule, and the event
under an id is the same event. -/
theorem ids_keep_their_meaning {accepts : String → Bool} {xs ys : List System.Label}
    {s t : System} (hreach : run (System.step accepts) .init xs = some s)
    (hrun : run (System.step accepts) s ys = some t) : s.store.KeepsMeaning t.store :=
  (run_later hrun (readsEarlier_run hreach readsEarlier_init)).keepsMeaning
    (system_sound hreach).store (sound_run hrun (system_sound hreach)).store

/-- The schedule of an event is renamed, and the probability of its chaos changes. -/
theorem ids_keep_their_meaning_event :
    ∃ s t, run (System.step fun _ => true) .init eventLabels = some s ∧
      run (System.step fun _ => true) s
        (commitAtOnce (.updateSchedule 1 ⟨none, some "daily"⟩) ++
          commitAtOnce (.updateChaos 1 (some 0))) = some t ∧ s.store.KeepsMeaning t.store := by
  obtain ⟨s, t, hreach, hrun⟩ : ∃ s t,
      run (System.step fun _ => true) .init eventLabels = some s ∧
      run (System.step fun _ => true) s
        (commitAtOnce (.updateSchedule 1 ⟨none, some "daily"⟩) ++
          commitAtOnce (.updateChaos 1 (some 0))) = some t := ⟨_, _, rfl, rfl⟩
  exact ⟨s, t, hreach, hrun, ids_keep_their_meaning hreach hrun⟩

end ChaosLoris
