import ChaosLoris.CloudFoundryPlatform
import ChaosLoris.Queries
import ChaosLoris.System

/-!
# The targets of a run of the destroyer

A stored chaos is known by its schedule and the GUID of its application, as GUIDs and pairs of
application and schedule are unique (`guid_injOn`). So the publishers of a run send their requests
about different applications, and no request is sent twice (`nodup_requests`).
`one_shot_per_instance` says which instances a run may terminate.
-/

namespace ChaosLoris

open FlatMap Runs Keyed

/-- The chaos `id` links the schedule to the application with the GUID `g`. -/
def Store.Links (st : Store) (scheduleId : Id) (g : UUID) (id : Id) : Prop :=
  ∃ row, st.chaos.find id = some row ∧ row.scheduleId = scheduleId ∧
    st.application.find row.applicationId = some ⟨g⟩

/-- In a run with the signals `xs` the platform reports the instance count `n` for the GUID `g`. -/
def Reported (behave : Chaos → Behaviour) (chaoses : List Chaos) (xs : List (Signal ChaosSignal))
    (g : UUID) (n : ℕ) : Prop :=
  ∃ k c, chaoses[k]? = some c ∧ c.application.applicationId = g ∧
    ChaosSignal.instanceCount ∈ signalsOf k xs ∧ (behave c).instanceCount = some n

/-! ## What the query returns -/

section Query

variable {st : Store} {scheduleId : Id} {c c' : Chaos}

theorem links_of_mem (h : c ∈ st.findByScheduleId scheduleId) :
    st.Links scheduleId c.application.applicationId c.id := by
  obtain ⟨row, hrow, hid, h⟩ := mem_findByScheduleId.mp h
  obtain ⟨a, s, ha, -, hc⟩ := chaosEntity_eq_some.mp h
  refine ⟨row, hrow, hid, ?_⟩
  rw [hc, ha]

theorem Store.Valid.links_unique (hst : st.Valid) {g : UUID} {id id' : Id}
    (h : st.Links scheduleId g id) (h' : st.Links scheduleId g id') : id = id' := by
  obtain ⟨row, hrow, hid, ha⟩ := h
  obtain ⟨row', hrow', hid', ha'⟩ := h'
  have happlication : row.applicationId = row'.applicationId :=
    hst.applicationIds _ _ _ _ ha ha' rfl
  refine hst.pairs id id' row row' hrow hrow' ?_
  show (row.applicationId, row.scheduleId) = (row'.applicationId, row'.scheduleId)
  rw [happlication, hid, hid']

/-- No two chaoses of a schedule have applications with the same GUID. -/
theorem Store.Valid.guid_injOn (hst : st.Valid) (hc : c ∈ st.findByScheduleId scheduleId)
    (hc' : c' ∈ st.findByScheduleId scheduleId)
    (h : c.application.applicationId = c'.application.applicationId) : c = c' := by
  have hid : c.id = c'.id := hst.links_unique (links_of_mem hc) (h ▸ links_of_mem hc')
  obtain ⟨row, hrow, -, hentity⟩ := mem_findByScheduleId.mp hc
  obtain ⟨row', hrow', -, hentity'⟩ := mem_findByScheduleId.mp hc'
  rw [← hid] at hrow' hentity'
  obtain rfl : row = row' := Option.some.inj (hrow.symm.trans hrow')
  exact Option.some.inj (hentity.symm.trans hentity')

end Query

/-! ## The requests of a run -/

section Run

variable {behave : Chaos → Behaviour} {chaoses : List Chaos} {xs : List (Signal ChaosSignal)}
  {d : Destroyer} {log : List (ℕ × Effect)}

theorem DestroyerRun.requests_perm (h : DestroyerRun behave chaoses xs d log) :
    (platformRequests (log.map Prod.snd)).Perm
      ((List.range d.inners.length).flatMap fun k => platformRequests (effectsOf k log)) := by
  refine ((log_perm h.flatMap_run).filterMap _).trans (List.Perm.of_eq ?_)
  exact List.filterMap_flatMap

theorem DestroyerRun.publisher_requests (h : DestroyerRun behave chaoses xs d log) {k : ℕ}
    (hk : k < d.inners.length) :
    ∃ c m, chaoses[k]? = some c ∧ m ≤ (behave c).instanceCount.getD 0 ∧
      (platformRequests (effectsOf k log)).Perm (chaosRequests c (behave c) m) := by
  have hget := List.getElem?_eq_getElem hk
  obtain ⟨m, hm, hperm, -⟩ := (h.tracks hget).requests
  exact ⟨_, m, h.account.getElem? hget, hm, hperm⟩

/-- The application a request is about. -/
def PlatformRequest.guid : PlatformRequest → UUID
  | .summary applicationId => applicationId
  | .terminateInstance applicationId _ => applicationId

theorem guid_of_mem_chaosRequests {c : Chaos} {b : Behaviour} {m : ℕ} {q : PlatformRequest}
    (h : q ∈ chaosRequests c b m) : q.guid = c.application.applicationId := by
  rcases List.mem_cons.mp h with rfl | h
  · rfl
  · obtain ⟨i, -, rfl⟩ := List.mem_map.mp h
    rfl

/-- **No request is sent twice**, if the chaoses have different GUIDs. -/
theorem DestroyerRun.nodup_requests (h : DestroyerRun behave chaoses xs d log)
    (hguids : (chaoses.map fun c => c.application.applicationId).Nodup) :
    (platformRequests (log.map Prod.snd)).Nodup := by
  rw [h.requests_perm.nodup_iff, List.nodup_flatMap]
  constructor
  · intro k hk
    obtain ⟨c, m, -, -, hperm⟩ := h.publisher_requests (List.mem_range.mp hk)
    exact hperm.nodup_iff.mpr (nodup_chaosRequests c _ m)
  · refine List.nodup_range.imp_of_mem fun {j k} hj hk hjk => ?_
    obtain ⟨c, m, hc, -, hperm⟩ := h.publisher_requests (List.mem_range.mp hj)
    obtain ⟨c', m', hc', -, hperm'⟩ := h.publisher_requests (List.mem_range.mp hk)
    intro q hq hq'
    have hguid := guid_of_mem_chaosRequests (hperm.mem_iff.mp hq)
    have hguid' := guid_of_mem_chaosRequests (hperm'.mem_iff.mp hq')
    refine hjk ((List.getElem?_inj ?_ hguids).mp ?_)
    · rw [List.length_map]
      exact (List.getElem?_eq_some_iff.mp hc).1
    · rw [List.getElem?_map, List.getElem?_map, hc, hc']
      exact congrArg some (hguid.symm.trans hguid')

theorem instanceCount_mem {c : Chaos} {b : Behaviour} {ys : List ChaosSignal} {u : Phase}
    {l : List Effect} (hrun : run (logged (terminateStep c b)) (terminateStart c) ys = some (u, l))
    (hu : u ≠ .counting) : ChaosSignal.instanceCount ∈ ys := by
  cases ys with
  | nil =>
    obtain ⟨rfl, -⟩ : Phase.counting = u ∧ _ = l := by simpa [terminateStart] using hrun
    exact absurd rfl hu
  | cons y ys =>
    obtain ⟨⟨v, m⟩, hy, -⟩ := run_cons.mp hrun
    obtain ⟨es, hy, -⟩ := logged_eq_some.mp hy
    cases y with
    | instanceCount => exact List.mem_cons_self
    | range z => simp [terminateStart, terminateStep] at hy
    | save ok => simp [terminateStart, terminateStep] at hy

/-- A publisher that has sent a termination knows the instance count, and the index is below it. -/
theorem DestroyerRun.reported (h : DestroyerRun behave chaoses xs d log) {g : UUID} {i : ℕ}
    (hmem : .terminateInstance g i ∈ platformRequests (log.map Prod.snd)) :
    ∃ k c n, chaoses[k]? = some c ∧ c.application.applicationId = g ∧
      ChaosSignal.instanceCount ∈ signalsOf k xs ∧ (behave c).instanceCount = some n ∧ i < n := by
  obtain ⟨k, hk, hmem⟩ := List.mem_flatMap.mp (h.requests_perm.mem_iff.mp hmem)
  obtain ⟨c, m, hc, hm, hperm⟩ := h.publisher_requests (List.mem_range.mp hk)
  obtain ⟨hg, hi, -⟩ := terminateInstance_mem_chaosRequests.mp (hperm.mem_iff.mp hmem)
  obtain ⟨n, hn⟩ : ∃ n, (behave c).instanceCount = some n := by
    cases hn : (behave c).instanceCount with
    | none => simp [hn] at hm; omega
    | some n => exact ⟨n, rfl⟩
  rw [hn, Option.getD_some] at hm
  have hget := List.getElem?_eq_getElem (List.mem_range.mp hk)
  refine ⟨k, c, n, hc, hg, instanceCount_mem (h.publisher_run hget) ?_, hn, by omega⟩
  intro hcounting
  have htracks := h.tracks hget
  rw [hcounting] at htracks
  generalize effectsOf k log = l at htracks hmem
  cases htracks
  simp [platformRequests, Effect.request, CloudFoundryPlatform.getInstanceCount] at hmem

end Run

/-- **One shot per instance, and only at the right targets.** Take any store the system can reach
and any run of the destroyer of a schedule on what it finds there, with any counts, fates, errors
and order of completion. It sends at most one termination for an instance of an application. If it
sends one, the store has exactly one chaos that links the schedule to the application with that
GUID, and the platform has reported exactly one count for the GUID, which the index is below. -/
theorem one_shot_per_instance {accepts : String → Bool} {labels : List System.Label} {s : System}
    {scheduleId : Id} {behave : Chaos → Behaviour} {chaoses : List Chaos}
    {xs : List (Signal ChaosSignal)} {d : Destroyer} {log : List (ℕ × Effect)}
    (hreach : run (System.step accepts) .init labels = some s)
    (hquery : chaoses.Perm (s.store.findByScheduleId scheduleId))
    (hrun : DestroyerRun behave chaoses xs d log) (g : UUID) (i : ℕ) :
    (platformRequests (log.map Prod.snd)).count (.terminateInstance g i) ≤ 1 ∧
      (.terminateInstance g i ∈ platformRequests (log.map Prod.snd) →
        (∃! id, s.store.Links scheduleId g id) ∧
        ∃ n, (∀ m, Reported behave chaoses xs g m ↔ m = n) ∧ i < n) := by
  have hvalid := (system_sound hreach).store
  have hinj : ∀ c ∈ chaoses, ∀ c' ∈ chaoses,
      c.application.applicationId = c'.application.applicationId → c = c' :=
    fun c hc c' hc' => hvalid.guid_injOn (hquery.mem_iff.mp hc) (hquery.mem_iff.mp hc')
  have hnodup : chaoses.Nodup := hquery.nodup_iff.mpr (nodup_findByScheduleId _ _)
  constructor
  · exact List.nodup_iff_count_le_one.mp (hrun.nodup_requests (hnodup.map_on hinj)) _
  · intro hmem
    obtain ⟨k, c, n, hc, rfl, hsignal, hn, hi⟩ := hrun.reported hmem
    have hchaos : c ∈ chaoses := List.mem_of_getElem? hc
    have hlinks := links_of_mem (hquery.mem_iff.mp hchaos)
    refine ⟨⟨c.id, hlinks, fun id hid => hvalid.links_unique hid hlinks⟩, n, fun m => ?_, hi⟩
    constructor
    · rintro ⟨k', c', hc', hguid, -, hm⟩
      obtain rfl : c' = c := hinj c' (List.mem_of_getElem? hc') c hchaos hguid
      exact Option.some.inj (hm.symm.trans hn)
    · rintro rfl
      exact ⟨k, c, hc, rfl, hsignal, hn⟩

/-- The only chaos has two instances, and the second one is terminated. -/
theorem one_shot_per_instance_certain :
    ∃ s d log, run (System.step fun _ => true) .init chaosLabels = some s ∧
      DestroyerRun (fun _ => spareFirst) [certainChaos]
        [.pull, .inner 0 .instanceCount, .inner 0 (.range .pull), .inner 0 (.range .pull)] d log ∧
      ∃! id, s.store.Links 1 1 id := by
  obtain ⟨s, hreach, hquery⟩ : ∃ s, run (System.step fun _ => true) .init chaosLabels = some s ∧
      [certainChaos].Perm (s.store.findByScheduleId 1) := ⟨_, rfl, List.Perm.of_eq rfl⟩
  have hrun : DestroyerRun (fun _ => spareFirst) [certainChaos]
      [.pull, .inner 0 .instanceCount, .inner 0 (.range .pull), .inner 0 (.range .pull)] _ _ := rfl
  exact ⟨s, _, _, hreach, hrun, ((one_shot_per_instance hreach hquery hrun 1 1).2 (by decide)).1⟩

end ChaosLoris
