import Mathlib.Data.List.Perm.Subperm
import ChaosLoris.EventReaper
import ChaosLoris.Identity
import ChaosLoris.Targets

/-!
# The timers

The system leaves open when a destroyer runs and what the reaper deletes. Here the futures of the
scheduler run the destroyers, and `reap()` deletes the events that it has found, one by one, while
everything else goes on. A future runs its destroyer only as long as it is live; between that and
the query of the run anything can happen. A restart loses the runs that have not made their query,
and the reaper's; the system leaves open whether the others go on.

Every step of a deployment is one of the system or none (`deployment_run`), so what holds of the
system holds of a deployment. In addition, instances are terminated only for schedules that have
fired, and only as these were linked (`terminations_are_authorized`), and no more often than they
have fired (`terminations_are_bounded`).
-/

namespace ChaosLoris

open FlatMap Keyed Runs

/-- A run of `reap()` that has made its query: the time of it, and the events still to be deleted.
-/
structure Reaping where
  now : Instant
  events : List Id
  deriving DecidableEq, Repr

structure Deployment where
  system : System
  /-- The schedules whose destroyers run and have not made their queries. -/
  fired : List Id
  reaping : List Reaping

inductive Deployment.Label
  /-- Neither a query of a destroyer nor a deletion of the reaper. -/
  | system (x : System.Label)
  | fire (future : Handle)
  /-- The `k`-th run that waits for it makes its query. -/
  | query (k : ℕ) (behave : Chaos → Behaviour) (chaoses : List Chaos)
  | find (now : Instant) (events : List Id)
  /-- The `k`-th run of the reaper deletes its next event. -/
  | delete (k : ℕ)

namespace Deployment

/-- The deployment after the migrations. -/
def init : Deployment := ⟨.init, [], []⟩

/-- The step is one of a timer. -/
def timed : System.Label → Bool
  | .query _ _ _ => true
  | .reap _ => true
  | _ => false

/-- The deployment when the system has taken a step. -/
def after (s : Deployment) (system : System) : System.Label → Deployment
  | .restart => ⟨system, [], []⟩
  | _ => { s with system }

/-- One step, with the tasks that are run. -/
def step (accepts : String → Bool) (history : Period) (s : Deployment) :
    Label → Option (Deployment × List Task)
  | .system x =>
    if timed x then none
    else (s.system.step accepts x).map fun system => (s.after system x, [])
  | .fire future =>
    if s.system.handlers.scheduler.Live future then
      s.system.handlers.scheduler.futures[future]?.map fun task =>
        ({ s with fired := s.fired ++ [task.destroyer] }, [task])
    else none
  | .query k behave chaoses =>
    s.fired[k]?.bind fun id => (s.system.step accepts (.query id behave chaoses)).map fun system =>
      ({ s with system, fired := s.fired.eraseIdx k }, [])
  | .find now events =>
    (Instant.minus now history).bind fun limit =>
      if events.Perm (s.system.store.findByExecutedAtBefore limit) then
        some ({ s with reaping := s.reaping ++ [⟨now, events⟩] }, [])
      else none
  | .delete k =>
    match s.reaping[k]? with
    | some ⟨now, event :: events⟩ => (s.system.step accepts (.reap event)).map fun system =>
        ({ s with system, reaping := s.reaping.set k ⟨now, events⟩ }, [])
    | _ => none

end Deployment

/-- The deployment gets from the migrations to the state `s`, with the tasks `l`. -/
def DeploymentRun (accepts : String → Bool) (history : Period) (xs : List Deployment.Label)
    (s : Deployment) (l : List Task) : Prop :=
  run (logged (Deployment.step accepts history)) (.init, []) xs = some (s, l)

section Step

variable {accepts : String → Bool} {history : Period} {s t : Deployment} {x : Deployment.Label}
  {l : List Task}

@[simp] theorem Deployment.after_system (s : Deployment) (system : System) (y : System.Label) :
    (s.after system y).system = system := by
  cases y <;> rfl

theorem Deployment.step_cases (h : s.step accepts history x = some (t, l)) :
    (∃ y, x = .system y ∧ Deployment.timed y = false ∧ s.system.step accepts y = some t.system ∧
      t = s.after t.system y ∧ l = []) ∨
    (∃ future task, x = .fire future ∧ s.system.handlers.scheduler.Live future ∧
      s.system.handlers.scheduler.futures[future]? = some task ∧
      t = { s with fired := s.fired ++ [task.destroyer] } ∧ l = [task]) ∨
    (∃ k behave chaoses id, x = .query k behave chaoses ∧ s.fired[k]? = some id ∧
      s.system.step accepts (.query id behave chaoses) = some t.system ∧
      t.fired = s.fired.eraseIdx k ∧ t.reaping = s.reaping ∧ l = []) ∨
    (∃ now events limit, x = .find now events ∧ Instant.minus now history = some limit ∧
      events.Perm (s.system.store.findByExecutedAtBefore limit) ∧
      t = { s with reaping := s.reaping ++ [⟨now, events⟩] } ∧ l = []) ∨
    (∃ k now event events, x = .delete k ∧ s.reaping[k]? = some ⟨now, event :: events⟩ ∧
      s.system.step accepts (.reap event) = some t.system ∧ t.fired = s.fired ∧
      t.reaping = s.reaping.set k ⟨now, events⟩ ∧ l = []) := by
  cases x with
  | system y =>
    obtain ⟨htimed, h⟩ := Option.ite_none_left_eq_some.mp h
    obtain ⟨system, hy, heq⟩ := Option.map_eq_some_iff.mp h
    obtain ⟨rfl, rfl⟩ := Prod.mk.inj heq
    have hsystem := s.after_system system y
    exact .inl ⟨y, rfl, Bool.not_eq_true _ ▸ htimed, hsystem.symm ▸ hy, by rw [hsystem], rfl⟩
  | fire future =>
    obtain ⟨hlive, h⟩ := Option.ite_none_right_eq_some.mp h
    obtain ⟨task, htask, heq⟩ := Option.map_eq_some_iff.mp h
    obtain ⟨rfl, rfl⟩ := Prod.mk.inj heq
    exact .inr (.inl ⟨future, task, rfl, hlive, htask, rfl, rfl⟩)
  | query k behave chaoses =>
    obtain ⟨id, hk, h⟩ := Option.bind_eq_some_iff.mp h
    obtain ⟨system, hy, heq⟩ := Option.map_eq_some_iff.mp h
    obtain ⟨rfl, rfl⟩ := Prod.mk.inj heq
    exact .inr (.inr (.inl ⟨k, behave, chaoses, id, rfl, hk, hy, rfl, rfl, rfl⟩))
  | find now events =>
    obtain ⟨limit, hlimit, h⟩ := Option.bind_eq_some_iff.mp h
    obtain ⟨hperm, h⟩ := Option.ite_none_right_eq_some.mp h
    obtain ⟨rfl, rfl⟩ := Prod.mk.inj (Option.some.inj h)
    exact .inr (.inr (.inr (.inl ⟨now, events, limit, rfl, hlimit, hperm, rfl, rfl⟩)))
  | delete k =>
    unfold Deployment.step at h
    dsimp only at h
    split at h
    next now event events hk =>
      obtain ⟨system, hy, heq⟩ := Option.map_eq_some_iff.mp h
      obtain ⟨rfl, rfl⟩ := Prod.mk.inj heq
      exact .inr (.inr (.inr (.inr ⟨k, now, event, events, rfl, hk, hy, rfl, rfl, rfl⟩)))
    next => cases h

/-- **A step of a deployment is a step of the system, or it leaves the system.** -/
theorem Deployment.step_system (h : s.step accepts history x = some (t, l)) :
    t.system = s.system ∨ ∃ y, s.system.step accepts y = some t.system := by
  obtain ⟨y, -, -, hy, -, -⟩ | ⟨future, task, -, -, -, rfl, -⟩ |
    ⟨k, behave, chaoses, id, -, -, hy, -, -, -⟩ | ⟨now, events, limit, -, -, -, rfl, -⟩ |
    ⟨k, now, event, events, -, -, hy, -, -, -⟩ := Deployment.step_cases h
  · exact .inr ⟨y, hy⟩
  · exact .inl rfl
  · exact .inr ⟨_, hy⟩
  · exact .inl rfl
  · exact .inr ⟨_, hy⟩

theorem deployment_run {xs : List Deployment.Label} {m : List Task}
    (hrun : run (logged (Deployment.step accepts history)) (s, m) xs = some (t, l)) :
    ∃ ys, run (System.step accepts) s.system ys = some t.system := by
  induction xs generalizing s m with
  | nil =>
    obtain ⟨rfl, -⟩ : s = t ∧ m = l := by simpa using hrun
    exact ⟨[], rfl⟩
  | cons x xs ih =>
    obtain ⟨⟨u, n⟩, hx, hrun⟩ := run_cons.mp hrun
    obtain ⟨es, hx, -⟩ := logged_eq_some.mp hx
    obtain ⟨ys, hys⟩ := ih hrun
    obtain hsame | ⟨y, hy⟩ := Deployment.step_system hx
    · exact ⟨ys, hsame ▸ hys⟩
    · exact ⟨y :: ys, run_cons.mpr ⟨_, hy, hys⟩⟩

theorem Deployment.later_of_step (hreads : s.system.ReadsEarlier)
    (h : s.step accepts history x = some (t, l)) : s.system.store.Later t.system.store := by
  obtain hsame | ⟨y, hy⟩ := Deployment.step_system h
  · exact hsame ▸ .refl
  · exact step_later hreads hy

theorem Deployment.later_run {xs : List Deployment.Label} {m : List Task}
    (hrun : run (logged (Deployment.step accepts history)) (s, m) xs = some (t, l))
    (hs : s.system.ReadsEarlier) : s.system.store.Later t.system.store := by
  obtain ⟨labels, hlabels⟩ := deployment_run hrun
  exact run_later hlabels hs

end Step

/-! ## The runs of destroyers -/

/-- What an execution has begun with. -/
def Execution.query (e : Execution) : Id × (Chaos → Behaviour) × List Chaos :=
  (e.scheduleId, e.behave, e.chaoses)

section Executions

variable {accepts : String → Bool} {history : Period}

theorem map_query_set {l : List Execution} {k : ℕ} {e e' : Execution} (hk : l[k]? = some e)
    (h : e'.query = e.query) : (l.set k e').map Execution.query = l.map Execution.query := by
  refine List.ext_getElem? fun j => ?_
  rw [List.getElem?_map, List.getElem?_map]
  by_cases hj : k = j
  · subst hj
    rw [List.getElem?_set_self (List.getElem?_eq_some_iff.mp hk).1, hk]
    exact congrArg some h
  · rw [List.getElem?_set_ne hj]

theorem map_scheduleId {l l' : List Execution}
    (h : l.map Execution.query = l'.map Execution.query) :
    l.map Execution.scheduleId = l'.map Execution.scheduleId := by
  have hid : ∀ l : List Execution, (l.map Execution.query).map Prod.fst =
      l.map Execution.scheduleId := fun l => List.map_map
  rw [← hid l, ← hid l', h]

theorem exists_of_map_query {l l' : List Execution} {k : ℕ} {e : Execution}
    (h : l.map Execution.query = l'.map Execution.query) (he : l[k]? = some e) :
    ∃ e', l'[k]? = some e' ∧ e'.query = e.query := by
  have hk := congrArg (fun l => l[k]?) h
  rw [List.getElem?_map, List.getElem?_map, he, Option.map_some] at hk
  exact Option.map_eq_some_iff.mp hk.symm

theorem step_queries {s t : System} {x : System.Label} (h : s.step accepts x = some t)
    (hx : ∀ id behave chaoses, x ≠ .query id behave chaoses) :
    t.executions.map Execution.query = s.executions.map Execution.query := by
  obtain ⟨r, -, rfl⟩ | ⟨n, rollback, r, snapshot, -, -, -, -, hexecutions⟩ |
    ⟨y, -, handlers, rfl⟩ | ⟨id, behave, chaoses, rfl, -, -⟩ |
    ⟨n, y, e, d, es, st, -, hn, -, -, rfl⟩ | ⟨event, st, -, -, rfl⟩ | ⟨-, rfl⟩ :=
    System.step_cases h
  · rfl
  · rw [hexecutions]
  · rfl
  · exact absurd rfl (hx id behave chaoses)
  · exact map_query_set hn rfl
  · rfl
  · rfl

theorem step_query {s t : System} {id : Id} {behave : Chaos → Behaviour} {chaoses : List Chaos}
    (h : s.step accepts (.query id behave chaoses) = some t) :
    chaoses.Perm (s.store.findByScheduleId id) ∧
      t = { s with executions := s.executions ++ [.start id behave chaoses] } := by
  obtain ⟨hperm, h⟩ := Option.ite_none_right_eq_some.mp h
  exact ⟨hperm, (Option.some.inj h).symm⟩

theorem ne_query_of_not_timed {y : System.Label} (h : Deployment.timed y = false) (id : Id)
    (behave : Chaos → Behaviour) (chaoses : List Chaos) : y ≠ .query id behave chaoses := by
  rintro rfl
  cases h

/-- Each run of a destroyer, whether it has made its query or not, is that of a task of its own. -/
theorem Deployment.fired_step {s t : Deployment} {x : Deployment.Label} {l m : List Task}
    (h : s.step accepts history x = some (t, l))
    (hs : (s.system.executions.map Execution.scheduleId ++ s.fired).Subperm
      (m.map Task.destroyer)) :
    (t.system.executions.map Execution.scheduleId ++ t.fired).Subperm
      ((m ++ l).map Task.destroyer) := by
  obtain ⟨y, -, htimed, hy, ht, rfl⟩ | ⟨future, task, -, -, -, rfl, rfl⟩ |
    ⟨k, behave, chaoses, id, -, hk, hy, hfired, -, rfl⟩ | ⟨now, events, limit, -, -, -, rfl, rfl⟩ |
    ⟨k, now, event, events, -, -, hy, hfired, -, rfl⟩ := Deployment.step_cases h
  · have hsub : t.fired.Sublist s.fired := by
      rw [ht]
      cases y <;> first | exact List.nil_sublist _ | exact List.Sublist.refl _
    rw [List.append_nil, map_scheduleId (step_queries hy (ne_query_of_not_timed htimed))]
    exact (hsub.append_left _).subperm.trans hs
  · rw [List.map_append, ← List.append_assoc]
    exact (List.subperm_append_right _).mpr hs
  · -- the run is there before and after its query
    obtain ⟨hlt, hget⟩ := List.getElem?_eq_some_iff.mp hk
    obtain ⟨-, hsystem⟩ := step_query hy
    have herase := List.getElem_cons_eraseIdx_perm hlt
    rw [hget] at herase
    rw [List.append_nil, hsystem, hfired, List.map_append, List.append_assoc]
    exact (herase.append_left _).subperm.trans hs
  · rwa [List.append_nil]
  · rw [List.append_nil, map_scheduleId (step_queries hy nofun), hfired]
    exact hs

theorem DeploymentRun.fired {s : Deployment} {xs : List Deployment.Label} {l : List Task}
    (hrun : DeploymentRun accepts history xs s l) :
    (s.system.executions.map Execution.scheduleId ++ s.fired).Subperm (l.map Task.destroyer) := by
  refine run_inv (P := fun p : Deployment × List Task =>
    (p.1.system.executions.map Execution.scheduleId ++ p.1.fired).Subperm
      (p.2.map Task.destroyer)) ?_ hrun (List.Subperm.refl [])
  rintro p x q h hp
  obtain ⟨es, h, hq⟩ := logged_eq_some.mp h
  rw [hq]
  exact Deployment.fired_step h hp

/-- Each execution that has been added in a run has made its query in it, for a schedule that had
fired. -/
theorem Deployment.exists_query {s t : Deployment} {xs : List Deployment.Label} {l m : List Task}
    (hrun : run (logged (Deployment.step accepts history)) (s, l) xs = some (t, m)) {k : ℕ}
    {e : Execution} (hk : s.system.executions.length ≤ k) (he : t.system.executions[k]? = some e) :
    ∃ ys n zs u o, xs = ys ++ .query n e.behave e.chaoses :: zs ∧
      run (logged (Deployment.step accepts history)) (s, l) ys = some (u, o) ∧
      u.fired[n]? = some e.scheduleId ∧
      e.chaoses.Perm (u.system.store.findByScheduleId e.scheduleId) := by
  induction xs using List.reverseRecOn generalizing t m e with
  | nil =>
    obtain ⟨rfl, -⟩ : s = t ∧ l = m := by simpa using hrun
    rw [List.getElem?_eq_none hk] at he
    cases he
  | append_singleton xs x ih =>
    obtain ⟨u, o, es, hpre, hx, -⟩ := run_logged_snoc.mp hrun
    -- an execution that was there before the step
    have hold : ∀ e', u.system.executions[k]? = some e' → e'.query = e.query →
        ∃ ys n zs v o, xs ++ [x] = ys ++ .query n e.behave e.chaoses :: zs ∧
          run (logged (Deployment.step accepts history)) (s, l) ys = some (v, o) ∧
          v.fired[n]? = some e.scheduleId ∧
          e.chaoses.Perm (v.system.store.findByScheduleId e.scheduleId) := by
      intro e' he' hquery
      obtain ⟨hid, hquery⟩ := Prod.mk.inj hquery
      obtain ⟨hbehave, hchaoses⟩ := Prod.mk.inj hquery
      obtain ⟨ys, n, zs, v, o, rfl, hv, hn, hperm⟩ := ih hpre he'
      rw [hid] at hn hperm
      rw [hchaoses] at hperm
      refine ⟨ys, n, zs ++ [x], v, o, ?_, hv, hn, hperm⟩
      rw [hbehave, hchaoses, List.append_assoc, List.cons_append]
    obtain ⟨y, -, htimed, hy, -, -⟩ | ⟨future, task, -, -, -, rfl, -⟩ |
      ⟨n, behave, chaoses, id, rfl, hn, hy, -, -, -⟩ | ⟨now, events, limit, -, -, -, rfl, -⟩ |
      ⟨n, now, event, events, -, -, hy, -, -, -⟩ := Deployment.step_cases hx
    · obtain ⟨e', he', hquery⟩ :=
        exists_of_map_query (step_queries hy (ne_query_of_not_timed htimed)) he
      exact hold e' he' hquery
    · exact hold e he rfl
    · obtain ⟨hperm, hsystem⟩ := step_query hy
      rw [hsystem] at he
      by_cases hlt : k < u.system.executions.length
      · rw [List.getElem?_append_left hlt] at he
        exact hold e he rfl
      · rw [List.getElem?_append_right (not_lt.mp hlt)] at he
        obtain rfl := List.mem_singleton.mp (List.mem_of_getElem? he)
        exact ⟨xs, n, [], u, o, rfl, hpre, hn, hperm⟩
    · exact hold e he rfl
    · obtain ⟨e', he', hquery⟩ := exists_of_map_query (step_queries hy nofun) he
      exact hold e' he' hquery

/-- A task that has been run was run by a future that was live. -/
theorem DeploymentRun.exists_fire {s : Deployment} {xs : List Deployment.Label} {l : List Task}
    (hrun : DeploymentRun accepts history xs s l) {task : Task} (htask : task ∈ l) :
    ∃ ys future zs u m, xs = ys ++ .fire future :: zs ∧ DeploymentRun accepts history ys u m ∧
      u.system.handlers.scheduler.Live future ∧
      u.system.handlers.scheduler.futures[future]? = some task := by
  induction xs using List.reverseRecOn generalizing s l with
  | nil =>
    obtain ⟨-, rfl⟩ : Deployment.init = s ∧ [] = l := by simpa [DeploymentRun] using hrun
    exact absurd htask List.not_mem_nil
  | append_singleton xs x ih =>
    obtain ⟨u, m, es, hpre, hx, rfl⟩ := run_logged_snoc.mp hrun
    rcases List.mem_append.mp htask with hm | hes
    · obtain ⟨ys, future, zs, v, n, rfl, hv, hlive, hfuture⟩ := ih hpre hm
      exact ⟨ys, future, zs ++ [x], v, n, List.append_assoc .., hv, hlive, hfuture⟩
    · obtain ⟨-, -, -, -, -, rfl⟩ | ⟨future, t, rfl, hlive, hfuture, -, rfl⟩ |
        ⟨-, -, -, -, -, -, -, -, -, rfl⟩ | ⟨-, -, -, -, -, -, -, rfl⟩ |
        ⟨-, -, -, -, -, -, -, -, -, rfl⟩ := Deployment.step_cases hx
      · exact absurd hes List.not_mem_nil
      · obtain rfl := List.mem_singleton.mp hes
        exact ⟨xs, future, [], u, m, rfl, hpre, hlive, hfuture⟩
      · exact absurd hes List.not_mem_nil
      · exact absurd hes List.not_mem_nil
      · exact absurd hes List.not_mem_nil

theorem DeploymentRun.nodup_requests {s : Deployment} {xs : List Deployment.Label} {l : List Task}
    (hrun : DeploymentRun accepts history xs s l) {e : Execution}
    (he : e ∈ s.system.executions) : (platformRequests (e.log.map Prod.snd)).Nodup := by
  obtain ⟨labels, hlabels⟩ := deployment_run hrun
  obtain ⟨signals, hsignals⟩ := (system_sound hlabels).executions e he
  obtain ⟨k, hk⟩ := List.mem_iff_getElem?.mp he
  obtain ⟨ys, n, zs, u, m, -, hu, -, hperm⟩ := Deployment.exists_query hrun (Nat.zero_le _) hk
  obtain ⟨labels', hlabels'⟩ := deployment_run hu
  refine hsignals.nodup_requests (List.Nodup.map_on ?_ ?_)
  · intro c hc c' hc'
    exact (system_sound hlabels').store.guid_injOn (hperm.mem_iff.mp hc) (hperm.mem_iff.mp hc')
  · exact hperm.nodup_iff.mpr (nodup_findByScheduleId _ _)

end Executions

theorem DestroyerRun.exists_target {behave : Chaos → Behaviour} {chaoses : List Chaos}
    {xs : List (FlatMap.Signal ChaosSignal)} {d : Destroyer} {log : List (ℕ × Effect)}
    (h : DestroyerRun behave chaoses xs d log) {g : UUID} {i : ℕ}
    (hmem : .terminateInstance g i ∈ platformRequests (log.map Prod.snd)) :
    ∃ c ∈ chaoses, c.application.applicationId = g ∧
      ∃ n, (behave c).instanceCount = some n ∧ i < n ∧ (behave c).fate i = .thumbsDown := by
  obtain ⟨k, hk, hmem⟩ := List.mem_flatMap.mp (h.requests_perm.mem_iff.mp hmem)
  obtain ⟨c, m, hc, hm, hperm⟩ := h.publisher_requests (List.mem_range.mp hk)
  obtain ⟨hg, hi, hfate⟩ := terminateInstance_mem_chaosRequests.mp (hperm.mem_iff.mp hmem)
  refine ⟨c, List.mem_of_getElem? hc, hg, ?_⟩
  cases hn : (behave c).instanceCount with
  | none =>
    rw [hn, Option.getD_none] at hm
    omega
  | some n =>
    rw [hn, Option.getD_some] at hm
    exact ⟨n, rfl, by omega, hfate⟩

/-- What the query has found is stored, with its schedule. -/
theorem getChaos_of_mem_findByScheduleId {st : Store} {id : Id} {c : Chaos}
    (h : c ∈ st.findByScheduleId id) : st.getChaos c.id = some c ∧ c.schedule.id = id := by
  obtain ⟨row, hrow, hid, hentity⟩ := mem_findByScheduleId.mp h
  refine ⟨getChaos_eq_some.mpr ⟨row, hrow, hentity⟩, ?_⟩
  obtain ⟨a, s, -, -, hc⟩ := chaosEntity_eq_some.mp hentity
  rw [hc]
  exact hid

/-- **Terminations are authorized.** In any run of a deployment there is another task that has been
run for each run of a destroyer. If a run of a destroyer has sent a termination, then a future of
its schedule fired that was live, and later its query found a chaos that linked the schedule to the
application with the GUID. The index is below the count for that chaos, and got thumbs down. -/
theorem terminations_are_authorized {accepts : String → Bool} {history : Period}
    {xs : List Deployment.Label} {s : Deployment} {l : List Task}
    (hrun : DeploymentRun accepts history xs s l) :
    (s.system.executions.map Execution.scheduleId ++ s.fired).Subperm (l.map Task.destroyer) ∧
    ∀ e ∈ s.system.executions, ∀ g i,
      .terminateInstance g i ∈ platformRequests (e.log.map Prod.snd) →
      ∃ ys future zs k ws u v m n task,
        xs = ys ++ .fire future :: zs ++ .query k e.behave e.chaoses :: ws ∧
        DeploymentRun accepts history ys u m ∧ u.system.handlers.scheduler.Live future ∧
        u.system.handlers.scheduler.futures[future]? = some task ∧
        task.destroyer = e.scheduleId ∧
        DeploymentRun accepts history (ys ++ .fire future :: zs) v n ∧
        ∃ c ∈ e.chaoses, c.application.applicationId = g ∧ c.schedule.id = e.scheduleId ∧
          v.system.store.getChaos c.id = some c ∧
          ∃ total, (e.behave c).instanceCount = some total ∧ i < total ∧
            (e.behave c).fate i = .thumbsDown := by
  refine ⟨hrun.fired, fun e he g i hmem => ?_⟩
  obtain ⟨labels, hlabels⟩ := deployment_run hrun
  obtain ⟨signals, hsignals⟩ := (system_sound hlabels).executions e he
  obtain ⟨c, hc, hg, total, hcount⟩ := hsignals.exists_target hmem
  obtain ⟨j, hj⟩ := List.mem_iff_getElem?.mp he
  obtain ⟨ys, k, ws, v, n, rfl, hv, hk, hperm⟩ :=
    Deployment.exists_query hrun (Nat.zero_le _) hj
  obtain ⟨hget, hid⟩ := getChaos_of_mem_findByScheduleId (hperm.mem_iff.mp hc)
  -- the schedule had fired when the query was made
  have hfired : e.scheduleId ∈ n.map Task.destroyer :=
    (DeploymentRun.fired hv).subset (List.mem_append_right _ (List.mem_of_getElem? hk))
  obtain ⟨task, htask, hdestroyer⟩ := List.mem_map.mp hfired
  obtain ⟨ys, future, zs, u, m, rfl, hu, hlive, hfuture⟩ := DeploymentRun.exists_fire hv htask
  exact ⟨ys, future, zs, k, ws, u, v, m, n, task, rfl, hu, hlive, hfuture, hdestroyer, hv, c, hc,
    hg, hid, hget, total, hcount⟩

/-- The future of the schedule of `chaosLabels` fires, and an instance is terminated. -/
def fireLabels : List Deployment.Label :=
  (chaosLabels ++ [System.Label.handler (.advance 0), .handler (.advance 0)]).map .system ++
    [.fire 0, .query 0 (fun _ => spareFirst) [certainChaos], .system (.signal 0 .pull),
      .system (.signal 0 (.inner 0 .instanceCount)),
      .system (.signal 0 (.inner 0 (.range .pull))), .system (.signal 0 (.inner 0 (.range .pull)))]

theorem terminations_are_authorized_fire :
    ∃ s l, DeploymentRun (fun _ => true) (.ofDays 7) fireLabels s l ∧
      (s.system.executions.map Execution.scheduleId ++ s.fired).Subperm (l.map Task.destroyer) := by
  obtain ⟨s, l, hrun⟩ : ∃ s l, DeploymentRun (fun _ => true) (.ofDays 7) fireLabels s l :=
    ⟨_, _, rfl⟩
  exact ⟨s, l, hrun, (terminations_are_authorized hrun).1⟩

/-- **Terminations are bounded by the fires.** In any run of a deployment the runs of the destroyer
of a schedule have sent no more terminations for an instance than futures of the schedule have
fired, however many of them overlap and whatever is deleted and created in between. -/
theorem terminations_are_bounded {accepts : String → Bool} {history : Period}
    {xs : List Deployment.Label} {s : Deployment} {l : List Task}
    (hrun : DeploymentRun accepts history xs s l) (id : Id) (g : UUID) (i : ℕ) :
    ((s.system.executions.filter fun e => e.scheduleId = id).map fun e =>
      (platformRequests (e.log.map Prod.snd)).count (.terminateInstance g i)).sum ≤
      (l.filter fun task => task.destroyer = id).length := by
  have hone : ∀ n ∈ (s.system.executions.filter fun e => e.scheduleId = id).map fun e =>
      (platformRequests (e.log.map Prod.snd)).count (.terminateInstance g i), n ≤ 1 := by
    intro n hn
    obtain ⟨e, he, rfl⟩ := List.mem_map.mp hn
    exact List.nodup_iff_count_le_one.mp (hrun.nodup_requests (List.mem_of_mem_filter he)) _
  have hcount : s.system.executions.countP (fun e => e.scheduleId = id) ≤
      l.countP fun task => task.destroyer = id := by
    have hsub : (s.system.executions.map Execution.scheduleId).Subperm (l.map Task.destroyer) :=
      (List.sublist_append_left _ _).subperm.trans hrun.fired
    have hle := hsub.countP_le fun j => decide (j = id)
    rwa [List.countP_map, List.countP_map] at hle
  calc _ ≤ ((s.system.executions.filter fun e => e.scheduleId = id).map _).length • 1 :=
        List.sum_le_card_nsmul _ 1 hone
    _ = s.system.executions.countP fun e => e.scheduleId = id := by
        rw [List.length_map, List.countP_eq_length_filter]
        exact Nat.mul_one _
    _ ≤ l.countP fun task => task.destroyer = id := hcount
    _ = (l.filter fun task => task.destroyer = id).length := List.countP_eq_length_filter

theorem terminations_are_bounded_fire :
    ∃ s l, DeploymentRun (fun _ => true) (.ofDays 7) fireLabels s l ∧
      (l.filter fun task => task.destroyer = 1).length = 1 ∧
      ((s.system.executions.filter fun e => e.scheduleId = 1).map fun e =>
        (platformRequests (e.log.map Prod.snd)).count (.terminateInstance 1 1)).sum ≤ 1 := by
  obtain ⟨s, l, hrun, hfires⟩ : ∃ s l,
      DeploymentRun (fun _ => true) (.ofDays 7) fireLabels s l ∧
      (l.filter fun task => task.destroyer = 1).length = 1 := ⟨_, _, rfl, rfl⟩
  exact ⟨s, l, hrun, hfires, (terminations_are_bounded hrun 1 1 1).trans hfires.le⟩

end ChaosLoris
