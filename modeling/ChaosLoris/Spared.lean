import ChaosLoris.Deployment

/-!
# What is no longer linked is spared

A chaos, an application or a schedule can be deleted while futures fire and destroyers run. A run
that has made its query goes on with what it has found. All later ones leave an application alone
that their schedule is no longer linked to, unless a new chaos has been created
(`unlinked_applications_are_spared`).
-/

namespace ChaosLoris

open FlatMap Keyed Runs

theorem Store.Later.links {st st' : Store} (h : st.Later st') (hst : st.Valid) {scheduleId id : Id}
    {g : UUID} (hlinks : st'.Links scheduleId g id) :
    st.Links scheduleId g id ∨ st.chaos.next ≤ id := by
  by_cases hlt : id < st.chaos.next
  · obtain ⟨row', hrow', hid, happlication⟩ := hlinks
    obtain ⟨row, hrow, hends⟩ := h.chaos.kept id row' hlt hrow'
    obtain ⟨hsame, hsameId⟩ := Prod.mk.inj hends
    obtain ⟨a, ha⟩ := Option.isSome_iff_exists.mp (hst.applications id row hrow)
    obtain rfl : a = ⟨g⟩ := h.application.column_eq ha (hsame ▸ happlication)
    exact .inl ⟨row, hrow, hsameId.trans hid, ha⟩
  · exact .inr (not_lt.mp hlt)

/-- **What is not linked is spared.** Take any reachable deployment in which no chaos links a
schedule to an application, and let it run on. If a run of the destroyer of the schedule that was
not there before sends a termination for the application, then it has found a chaos that was created
since. -/
theorem unlinked_applications_are_spared {accepts : String → Bool} {history : Period}
    {xs ys : List Deployment.Label} {s t : Deployment} {l m : List Task}
    (hreach : DeploymentRun accepts history xs s l)
    (hrun : run (logged (Deployment.step accepts history)) (s, l) ys = some (t, m))
    {scheduleId : Id} {g : UUID} (hunlinked : ∀ id, ¬ s.system.store.Links scheduleId g id)
    {k : ℕ} {e : Execution} (hk : s.system.executions.length ≤ k)
    (he : t.system.executions[k]? = some e) (hid : e.scheduleId = scheduleId) {i : ℕ}
    (hmem : .terminateInstance g i ∈ platformRequests (e.log.map Prod.snd)) :
    ∃ c ∈ e.chaoses, c.application.applicationId = g ∧ s.system.store.chaos.next ≤ c.id := by
  subst hid
  obtain ⟨labels, hlabels⟩ := deployment_run hreach
  obtain ⟨labels', hlabels'⟩ := deployment_run hrun
  have hsound := sound_run hlabels' (system_sound hlabels)
  obtain ⟨signals, hsignals⟩ := hsound.executions e (List.mem_of_getElem? he)
  obtain ⟨c, hc, rfl, -⟩ := hsignals.exists_target hmem
  obtain ⟨zs, n, ws, u, o, rfl, hu, -, hperm⟩ := Deployment.exists_query hrun hk he
  -- the query has found a link, which is old or new
  have hlater := Deployment.later_run hu (readsEarlier_run hlabels readsEarlier_init)
  have hlinks := links_of_mem (hperm.mem_iff.mp hc)
  obtain hold | hnew := hlater.links (system_sound hlabels).store hlinks
  · exact absurd hold (hunlinked c.id)
  · exact ⟨c, hc, rfl, hnew⟩

/-- The chaos of `chaosLabels` is deleted. -/
def unlinkLabels : List Deployment.Label :=
  (chaosLabels ++ commitAtOnce (.deleteChaos 1)).map .system

/-- Another one is created, and the future of the schedule fires. -/
def relinkLabels : List Deployment.Label :=
  (commitAtOnce (.createChaos ⟨some "/applications/1", some 1, some "/schedules/1"⟩) ++
      [System.Label.handler (.advance 0), .handler (.advance 0)]).map .system ++
    [.fire 0, .query 0 (fun _ => spareFirst) [{ certainChaos with id := 2 }],
      .system (.signal 0 .pull), .system (.signal 0 (.inner 0 .instanceCount)),
      .system (.signal 0 (.inner 0 (.range .pull))), .system (.signal 0 (.inner 0 (.range .pull)))]

theorem unlinked_applications_are_spared_relinked :
    ∃ s t l m, DeploymentRun (fun _ => true) (.ofDays 7) unlinkLabels s l ∧
      run (logged (Deployment.step (fun _ => true) (.ofDays 7))) (s, l) relinkLabels =
        some (t, m) ∧
      ∃ e, t.system.executions[0]? = some e ∧
        ∃ c ∈ e.chaoses, s.system.store.chaos.next ≤ c.id := by
  obtain ⟨s, t, l, m, e, hreach, hrun, hnil, hlength, he, hid, hmem⟩ : ∃ s t l m e,
      DeploymentRun (fun _ => true) (.ofDays 7) unlinkLabels s l ∧
      run (logged (Deployment.step (fun _ => true) (.ofDays 7))) (s, l) relinkLabels =
        some (t, m) ∧
      s.system.store.chaos.toList = [] ∧ s.system.executions.length = 0 ∧
      t.system.executions[0]? = some e ∧ e.scheduleId = 1 ∧
      .terminateInstance 1 1 ∈ platformRequests (e.log.map Prod.snd) :=
    ⟨_, _, _, _, _, rfl, rfl, rfl, rfl, rfl, rfl, by decide⟩
  have hunlinked : ∀ id, ¬ s.system.store.Links 1 1 id := by
    rintro id ⟨row, hrow, -⟩
    exact absurd (hnil ▸ Table.mem_toList.mpr hrow) List.not_mem_nil
  obtain ⟨c, hc, -, hnew⟩ :=
    unlinked_applications_are_spared hreach hrun hunlinked hlength.le he hid hmem
  exact ⟨s, t, l, m, hreach, hrun, e, he, c, hc, hnew⟩

end ChaosLoris
