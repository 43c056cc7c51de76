import ChaosLoris.Deployment
import ChaosLoris.Durability
import ChaosLoris.Reaping

/-!
# How long events are kept

A run of the reaper deletes what its query has found, one event after another, while requests,
destroyers and other runs of the reaper go on. No event is deleted too early: what a run has still
to delete has expired (`Deployment.expired_step`), so an event that has gone was deleted by request
or was too old (`events_are_retained`). And none is left: what the query of a run has found is still
to be deleted by the run, or has gone (`expired_events_are_reaped`).
-/

namespace ChaosLoris

open FlatMap Keyed Runs

/-- What the reaper has still to delete has expired. -/
def Deployment.Expired (history : Period) (s : Deployment) : Prop :=
  ∀ r ∈ s.reaping, ∃ limit, Instant.minus r.now history = some limit ∧
    ∀ i ∈ r.events, i < s.system.store.event.next ∧
      ∀ row, s.system.store.event.find i = some row → row.executedAt < limit

section Reaper

variable {accepts : String → Bool} {history : Period} {s t : Deployment} {x : Deployment.Label}
  {l : List Task}

theorem Deployment.Expired.later (hs : s.Expired history)
    (hlater : s.system.store.Later t.system.store)
    (hreaping : ∀ r ∈ t.reaping, ∃ r' ∈ s.reaping, r.now = r'.now ∧ r.events ⊆ r'.events) :
    t.Expired history := by
  intro r hr
  obtain ⟨r', hr', hnow, hevents⟩ := hreaping r hr
  obtain ⟨limit, hlimit, hexpired⟩ := hs r' hr'
  refine ⟨limit, hnow ▸ hlimit, fun i hi => ?_⟩
  obtain ⟨hlt, hrow⟩ := hexpired i (hevents hi)
  refine ⟨hlt.trans_le hlater.event.next_le, fun row h => ?_⟩
  obtain ⟨row', h', rfl⟩ := hlater.event.kept i row hlt h
  exact hrow row' h'

/-- **What the reaper has still to delete has expired**, and has expired when it is deleted. -/
theorem Deployment.expired_step (hs : s.Expired history) (hreads : s.system.ReadsEarlier)
    (h : s.step accepts history x = some (t, l)) : t.Expired history := by
  have hlater := Deployment.later_of_step hreads h
  obtain ⟨y, -, -, -, ht, -⟩ | ⟨future, task, -, -, -, rfl, -⟩ |
    ⟨k, behave, chaoses, id, -, -, -, -, hreaping, -⟩ |
    ⟨now, events, limit, -, hlimit, hperm, rfl, -⟩ |
    ⟨k, now, event, events, -, hk, -, -, hreaping, -⟩ := Deployment.step_cases h
  · have hsub : t.reaping ⊆ s.reaping := by
      rw [ht]
      cases y <;> first | exact List.nil_subset _ | exact List.Subset.refl _
    exact hs.later hlater fun r hr => ⟨r, hsub hr, rfl, List.Subset.refl _⟩
  · exact hs
  · exact hs.later hlater fun r hr => ⟨r, hreaping ▸ hr, rfl, List.Subset.refl _⟩
  · intro r hr
    rcases List.mem_append.mp hr with hr | hr
    · exact hs r hr
    · obtain rfl := List.mem_singleton.mp hr
      refine ⟨limit, hlimit, fun i hi => ?_⟩
      obtain ⟨row, hrow, hlt⟩ := mem_findByExecutedAtBefore.mp (hperm.mem_iff.mp hi)
      refine ⟨Table.lt_of_find hrow, fun row' hrow' => ?_⟩
      obtain rfl : row = row' := Option.some.inj (hrow.symm.trans hrow')
      exact hlt
  · refine hs.later hlater fun r hr => ?_
    rw [hreaping] at hr
    rcases List.mem_or_eq_of_mem_set hr with hr | rfl
    · exact ⟨r, hr, rfl, List.Subset.refl _⟩
    · exact ⟨_, List.mem_of_getElem? hk, rfl, List.subset_cons_self _ _⟩

/-- A deployment that a reaper can rely on. -/
def Deployment.Retains (history : Period) (s : Deployment) : Prop :=
  s.Expired history ∧ s.system.ReadsEarlier

theorem Deployment.retains_init : Deployment.init.Retains history :=
  ⟨fun _ hr => absurd hr List.not_mem_nil, readsEarlier_init⟩

theorem Deployment.retains_step (hs : s.Retains history)
    (h : s.step accepts history x = some (t, l)) : t.Retains history := by
  refine ⟨Deployment.expired_step hs.1 hs.2 h, ?_⟩
  obtain hsame | ⟨y, hy⟩ := Deployment.step_system h
  · exact hsame ▸ hs.2
  · exact readsEarlier_step hs.2 hy

theorem Deployment.retains_run {xs : List Deployment.Label} {m : List Task}
    (hrun : run (logged (Deployment.step accepts history)) (s, l) xs = some (t, m))
    (hs : s.Retains history) : t.Retains history := by
  refine run_inv (P := fun p : Deployment × List Task => p.1.Retains history) ?_ hrun hs
  intro p x q h hp
  obtain ⟨es, h, -⟩ := logged_eq_some.mp h
  exact Deployment.retains_step hp h

end Reaper

/-- **Events are retained.** Take any reachable deployment and an event that is stored in it. If the
event has gone at the end of a further run, then one of the steps has deleted it as it was: a
`DELETE` of it was acknowledged, or the reaper deleted it, and it was older than the limit of the
reaper. -/
theorem events_are_retained {accepts : String → Bool} {history : Period}
    {xs ys : List Deployment.Label} {s t : Deployment} {l m : List Task}
    (hreach : DeploymentRun accepts history xs s l)
    (hrun : run (logged (Deployment.step accepts history)) (s, l) ys = some (t, m)) {i : Id}
    {row : EventRow} (hrow : s.system.store.event.find i = some row)
    (hgone : t.system.store.event.find i = none) :
    ∃ zs x ws u n, ys = zs ++ x :: ws ∧
      run (logged (Deployment.step accepts history)) (s, l) zs = some (u, n) ∧
      u.system.store.event.find i = some row ∧
      ((∃ k rollback, x = .system (.commit k rollback) ∧
        u.system.Deletes .event i (.commit k rollback)) ∨
      ∃ k now events limit, x = .delete k ∧ u.reaping[k]? = some ⟨now, i :: events⟩ ∧
        Instant.minus now history = some limit ∧ row.executedAt < limit) := by
  have hs := Deployment.retains_run hreach Deployment.retains_init
  obtain ⟨zs, x, ws, ⟨u, n⟩, ⟨v, n'⟩, rfl, hu, hv, hstored, hlost⟩ :=
    run_lost (P := fun p : Deployment × List Task => p.1.system.store.Stored .event i) hrun
      (Option.isSome_of_eq_some hrow) (Option.not_isSome_iff_eq_none.mpr hgone)
  obtain ⟨es, hv, -⟩ := logged_eq_some.mp hv
  obtain ⟨hexpired, hreads⟩ := Deployment.retains_run hu hs
  -- the event is what it was
  obtain ⟨row', hrow'⟩ := Option.isSome_iff_exists.mp hstored
  obtain rfl : row = row' := (Deployment.later_run hu hs.2).event.column_eq hrow hrow'
  refine ⟨zs, x, ws, u, n, rfl, hu, hrow', ?_⟩
  have hdeletes : ∀ y, u.system.step accepts y = some v.system → u.system.Deletes .event i y := by
    intro y hy
    by_contra hnot
    exact hlost (step_stored hy hstored hnot)
  obtain ⟨y, rfl, htimed, hy, -, -⟩ | ⟨future, task, -, -, -, hsame, -⟩ |
    ⟨k, behave, chaoses, id, -, -, hy, -, -, -⟩ | ⟨now, events, limit, -, -, -, hsame, -⟩ |
    ⟨k, now, event, events, rfl, hk, hy, -, -, -⟩ := Deployment.step_cases hv
  · cases y with
    | commit k rollback => exact .inl ⟨k, rollback, rfl, hdeletes _ hy⟩
    | reap event => cases htimed
    | _ => exact (hdeletes _ hy).elim
  · obtain rfl : v = _ := hsame
    exact absurd hstored hlost
  · exact (hdeletes _ hy).elim
  · obtain rfl : v = _ := hsame
    exact absurd hstored hlost
  · obtain ⟨-, rfl⟩ := hdeletes _ hy
    obtain ⟨limit, hlimit, hevents⟩ := hexpired _ (List.mem_of_getElem? hk)
    exact .inr ⟨k, now, events, limit, rfl, hk, hlimit,
      (hevents i List.mem_cons_self).2 row hrow'⟩

/-- The event of the run is saved. -/
def saveLabels : List Deployment.Label :=
  fireLabels ++ [.system (.signal 0 (.inner 0 (.range (.inner 1 ())))),
    .system (.signal 0 (.inner 0 (.save true)))]

/-- The event is deleted by the reaper, eight days later. -/
def reapLabels : List Deployment.Label := [.find (8 * nanosPerDay) [1], .delete 0]

theorem events_are_retained_week :
    ∃ s t l m, DeploymentRun (fun _ => true) (.ofDays 7) saveLabels s l ∧
      run (logged (Deployment.step (fun _ => true) (.ofDays 7))) (s, l) reapLabels =
        some (t, m) ∧
      ∃ zs x ws u n, reapLabels = zs ++ x :: ws ∧
        run (logged (Deployment.step (fun _ => true) (.ofDays 7))) (s, l) zs = some (u, n) ∧
        u.system.store.event.find 1 = some ⟨1, 0, 2⟩ := by
  obtain ⟨s, t, l, m, hreach, hrun, hrow, hgone⟩ : ∃ s t l m,
      DeploymentRun (fun _ => true) (.ofDays 7) saveLabels s l ∧
      run (logged (Deployment.step (fun _ => true) (.ofDays 7))) (s, l) reapLabels =
        some (t, m) ∧
      s.system.store.event.find 1 = some ⟨1, 0, 2⟩ ∧ t.system.store.event.find 1 = none :=
    ⟨_, _, _, _, rfl, rfl, rfl, rfl⟩
  obtain ⟨zs, x, ws, u, n, hsplit, hu, hevent, -⟩ := events_are_retained hreach hrun hrow hgone
  exact ⟨s, t, l, m, hreach, hrun, zs, x, ws, u, n, hsplit, hu, hevent⟩

/-! ## What is left of a run -/

/-- The `k`-th run of the reaper has found `events` and has got on with them: each is still to be
deleted, or has gone for good. -/
def Deployment.Reaps (now : Instant) (events : List Id) (k : ℕ) (s : Deployment) : Prop :=
  ∃ rest, s.reaping[k]? = some ⟨now, rest⟩ ∧ rest <:+ events ∧
    ∀ i ∈ events, i ∉ rest → i < s.system.store.event.next ∧ s.system.store.event.find i = none

section Reaps

variable {accepts : String → Bool} {history : Period} {s t : Deployment} {x : Deployment.Label}
  {l : List Task} {now : Instant} {events : List Id} {k : ℕ}

theorem reap_store {s t : System} {event : Id} (h : s.step accepts (.reap event) = some t) :
    t.store = s.store.removeEvents [event] := by
  simp only [System.step, exec_deleteEvent, Option.map_some, Option.some.injEq] at h
  rw [← h]

theorem Deployment.Reaps.later (hs : s.Reaps now events k)
    (hlater : s.system.store.Later t.system.store) (hk : t.reaping[k]? = s.reaping[k]?) :
    t.Reaps now events k := by
  obtain ⟨rest, hrest, hsuffix, hgone⟩ := hs
  refine ⟨rest, hk.trans hrest, hsuffix, fun i hi hnot => ?_⟩
  obtain ⟨hlt, hnone⟩ := hgone i hi hnot
  exact ⟨hlt.trans_le hlater.event.next_le, hlater.event.find_eq_none hlt hnone⟩

/-- **A run of the reaper gets on with what it has found**, whoever moves. -/
theorem Deployment.reaps_step (hs : s.Reaps now events k) (hinv : s.Retains history)
    (h : s.step accepts history x = some (t, l)) (hx : x ≠ .system .restart) :
    t.Reaps now events k := by
  have hlater := Deployment.later_of_step hinv.2 h
  obtain ⟨y, rfl, -, -, ht, -⟩ | ⟨future, task, -, -, -, rfl, -⟩ |
    ⟨n, behave, chaoses, id, -, -, -, -, hreaping, -⟩ | ⟨now', found, limit, -, -, -, rfl, -⟩ |
    ⟨n, now', event, found, -, hn, hreap, -, hreaping, -⟩ := Deployment.step_cases h
  · refine hs.later hlater (congrArg (·[k]?) ?_)
    rw [ht]
    cases y <;> first | exact absurd rfl hx | rfl
  · exact hs.later hlater rfl
  · exact hs.later hlater (congrArg (·[k]?) hreaping)
  · obtain ⟨rest, hrest, -⟩ := id hs
    exact hs.later hlater (List.getElem?_append_left (List.getElem?_eq_some_iff.mp hrest).1)
  · by_cases hnk : n = k
    · -- the run deletes its next event
      subst hnk
      obtain ⟨rest, hrest, hsuffix, hgone⟩ := hs
      obtain ⟨rfl, rfl⟩ := Reaping.mk.inj (Option.some.inj (hn.symm.trans hrest))
      obtain ⟨limit, -, hfound⟩ := hinv.1 _ (List.mem_of_getElem? hn)
      have hstore := reap_store hreap
      refine ⟨found, ?_, (List.suffix_cons _ _).trans hsuffix, fun i hi hnot => ?_⟩
      · rw [hreaping, List.getElem?_set_self (List.getElem?_eq_some_iff.mp hn).1]
      · by_cases hevent : i = event
        · subst hevent
          refine ⟨(hfound i List.mem_cons_self).1.trans_le hlater.event.next_le, ?_⟩
          rw [hstore, find_removeEvents, if_pos List.mem_cons_self]
        · obtain ⟨hlt, hnone⟩ := hgone i hi (List.not_mem_cons_of_ne_of_not_mem hevent hnot)
          exact ⟨hlt.trans_le hlater.event.next_le, hlater.event.find_eq_none hlt hnone⟩
    · exact hs.later hlater ((congrArg (·[k]?) hreaping).trans (List.getElem?_set_ne hnk))

theorem Deployment.reaps_run {xs : List Deployment.Label} {m : List Task}
    (hrun : run (logged (Deployment.step accepts history)) (s, l) xs = some (t, m))
    (hxs : .system .restart ∉ xs) (hinv : s.Retains history)
    (hs : s.Reaps now events k) : t.Reaps now events k := by
  induction xs generalizing s l with
  | nil =>
    obtain ⟨rfl, -⟩ : s = t ∧ l = m := by simpa using hrun
    exact hs
  | cons x xs ih =>
    obtain ⟨⟨u, n⟩, hx, hrun⟩ := run_cons.mp hrun
    obtain ⟨hne, hxs⟩ := List.ne_and_not_mem_of_not_mem_cons hxs
    obtain ⟨es, hstep, -⟩ := logged_eq_some.mp hx
    exact ih hrun hxs (Deployment.retains_step hinv hstep)
      (Deployment.reaps_step hs hinv hstep hne.symm)

end Reaps

/-- **Expired events are reaped.** Let a run of the reaper make its query in any reachable
deployment, and let the deployment run on without a restart. At any time after, the run has some of
what it has found left to delete, from a point of its list on, and every event that was before its
limit is among this or has gone; so all of them have gone once the run has come to its end. -/
theorem expired_events_are_reaped {accepts : String → Bool} {history : Period}
    {xs ys : List Deployment.Label} {s t : Deployment} {l m : List Task} {now : Instant}
    {events : List Id} (hreach : DeploymentRun accepts history xs s l)
    (hrun : run (logged (Deployment.step accepts history)) (s, l) (.find now events :: ys) =
      some (t, m)) (hys : .system .restart ∉ ys) :
    ∃ rest limit, t.reaping[s.reaping.length]? = some ⟨now, rest⟩ ∧ rest <:+ events ∧
      Instant.minus now history = some limit ∧
      ∀ i row, s.system.store.event.find i = some row → row.executedAt < limit →
        i ∈ rest ∨ t.system.store.event.find i = none := by
  have hs := Deployment.retains_run hreach Deployment.retains_init
  obtain ⟨⟨u, n⟩, hfind, hrest⟩ := run_cons.mp hrun
  obtain ⟨es, hstep, -⟩ := logged_eq_some.mp hfind
  have hu := Deployment.retains_step hs hstep
  obtain ⟨limit, hlimit, hstep⟩ := Option.bind_eq_some_iff.mp hstep
  obtain ⟨hperm, hstep⟩ := Option.ite_none_right_eq_some.mp hstep
  obtain ⟨rfl, -⟩ := Prod.mk.inj (Option.some.inj hstep)
  have hreaps : Deployment.Reaps now events s.reaping.length
      { s with reaping := s.reaping ++ [⟨now, events⟩] } :=
    ⟨events, List.getElem?_concat_length, List.suffix_rfl, fun i hi hnot => absurd hi hnot⟩
  obtain ⟨rest, hleft, hsuffix, hgone⟩ := Deployment.reaps_run hrest hys hu hreaps
  refine ⟨rest, limit, hleft, hsuffix, hlimit, fun i row hrow hlt => ?_⟩
  have hi : i ∈ events := hperm.mem_iff.mpr (mem_findByExecutedAtBefore.mpr ⟨row, hrow, hlt⟩)
  exact or_iff_not_imp_left.mpr fun hnot => (hgone i hi hnot).2

theorem expired_events_are_reaped_week :
    ∃ s t l m, DeploymentRun (fun _ => true) (.ofDays 7) saveLabels s l ∧
      run (logged (Deployment.step (fun _ => true) (.ofDays 7))) (s, l) reapLabels =
        some (t, m) ∧
      ∃ rest, t.reaping[s.reaping.length]? = some ⟨8 * nanosPerDay, rest⟩ ∧ rest <:+ [1] := by
  obtain ⟨s, t, l, m, hreach, hrun⟩ : ∃ s t l m,
      DeploymentRun (fun _ => true) (.ofDays 7) saveLabels s l ∧
      run (logged (Deployment.step (fun _ => true) (.ofDays 7))) (s, l) reapLabels =
        some (t, m) := ⟨_, _, _, _, rfl, rfl⟩
  obtain ⟨rest, -, hrest, hsuffix, -⟩ := expired_events_are_reaped hreach hrun (by simp)
  exact ⟨s, t, l, m, hreach, hrun, rest, hrest, hsuffix⟩

end ChaosLoris
