import ChaosLoris.Audit
import ChaosLoris.TakeDown

/-!
# What changes an entity

Each step of the system is about one entity at most: the one that a request names or creates, the
event that a destroyer saves or that the reaper deletes. All others stay as they are, also when a
request writes what it has computed from an old snapshot (`step_content`). So a change of an entity
is always explained by a request for it that was acknowledged, by a save or by the reaper, and what
has been acknowledged lasts until then (`changes_are_explained`).
-/

namespace ChaosLoris

open FlatMap Keyed Runs

/-- What is stored under an id. -/
inductive Content
  | application (row : ApplicationRow)
  | schedule (row : ScheduleRow)
  | chaos (row : ChaosRow)
  | event (row : EventRow) (terminatedInstances : Set ℕ)

def Store.content (st : Store) : Controller → Id → Option Content
  | .application, i => (st.application.find i).map .application
  | .schedule, i => (st.schedule.find i).map .schedule
  | .chaos, i => (st.chaos.find i).map .chaos
  | .event, i =>
    (st.event.find i).map fun row => .event row {n | (i, n) ∈ st.eventTerminatedInstances}

/-- The entity that a statement is about. -/
def Statement.target (st : Store) : Statement → Controller × Id
  | .insertSchedule _ => (.schedule, st.schedule.next)
  | .updateSchedule id _ => (.schedule, id)
  | .deleteSchedule id => (.schedule, id)
  | .insertApplication _ => (.application, st.application.next)
  | .deleteApplication id => (.application, id)
  | .insertChaos _ => (.chaos, st.chaos.next)
  | .updateChaos id _ => (.chaos, id)
  | .deleteChaos id => (.chaos, id)
  | .insertEvent _ _ => (.event, st.event.next)
  | .deleteEvent id => (.event, id)

/-- The entity that a request names, or that it creates in the store `st`. -/
def Request.target (st : Store) : Request → Controller × Id
  | .createApplication _ => (.application, st.application.next)
  | .deleteApplication id => (.application, id)
  | .createSchedule _ => (.schedule, st.schedule.next)
  | .deleteSchedule id => (.schedule, id)
  | .updateSchedule id _ => (.schedule, id)
  | .createChaos _ => (.chaos, st.chaos.next)
  | .deleteChaos id => (.chaos, id)
  | .updateChaos id _ => (.chaos, id)
  | .deleteEvent id => (.event, id)

/-- The step is about the entity: a request for it is acknowledged, or it is an event that is saved
or deleted. -/
def System.Concerns (s : System) (k : Controller) (i : Id) : System.Label → Prop
  | .commit n rollback => ∃ r snapshot, s.requests[n]? = some (r, snapshot) ∧
      r.target s.store = (k, i) ∧ Success (r.respondFrom rollback snapshot s.store).2.1
  | .signal _ (.inner _ (.save true)) => k = .event ∧ i = s.store.event.next
  | .reap event => k = .event ∧ i = event
  | _ => False

/-! ## Statements -/

section Statements

variable {st st' snapshot : Store} {s : Statement} {k : Controller} {i j : Id} {r : Request}
  {rollback : Bool} {tx : Transaction}

theorem ne_of_target (h : (k, j) ≠ (k, i)) : i ≠ j := fun hij => h (by rw [hij])

/-- **A statement leaves all entities but its own.** -/
theorem exec_content (hexec : s.exec st = some st') (hne : s.target st ≠ (k, i)) :
    st'.content k i = st.content k i := by
  cases exec_eq_some.mp hexec with
  | insertSchedule row _ _ =>
    cases k with
    | schedule => exact congrArg (Option.map _) (find_insert_of_ne (ne_of_target hne))
    | _ => rfl
  | updateSchedule id row _ _ =>
    cases k with
    | schedule => exact congrArg (Option.map _) (find_set_of_ne (ne_of_target hne))
    | _ => rfl
  | deleteSchedule id _ =>
    cases k with
    | schedule => exact congrArg (Option.map _) (find_delete_of_ne (ne_of_target hne))
    | _ => rfl
  | insertApplication row _ =>
    cases k with
    | application => exact congrArg (Option.map _) (find_insert_of_ne (ne_of_target hne))
    | _ => rfl
  | deleteApplication id _ =>
    cases k with
    | application => exact congrArg (Option.map _) (find_delete_of_ne (ne_of_target hne))
    | _ => rfl
  | insertChaos row _ _ _ =>
    cases k with
    | chaos => exact congrArg (Option.map _) (find_insert_of_ne (ne_of_target hne))
    | _ => rfl
  | updateChaos id row _ _ _ =>
    cases k with
    | chaos => exact congrArg (Option.map _) (find_set_of_ne (ne_of_target hne))
    | _ => rfl
  | deleteChaos id _ =>
    cases k with
    | chaos => exact congrArg (Option.map _) (find_delete_of_ne (ne_of_target hne))
    | _ => rfl
  | insertEvent row l _ _ =>
    cases k with
    | event =>
      have hi := ne_of_target hne
      have hset : ∀ n, (i, n) ∈ terminatedRows st.event.next l ++ st.eventTerminatedInstances ↔
          (i, n) ∈ st.eventTerminatedInstances := by
        intro n
        rw [List.mem_append]
        exact or_iff_right fun hmem => by simp [terminatedRows, hi.symm] at hmem
      unfold Store.content
      simp only [hset, find_insert_of_ne hi]
    | _ => rfl
  | deleteEvent id =>
    cases k with
    | event =>
      have hi := ne_of_target hne
      have hset : ∀ n, (i, n) ∈ (st.eventTerminatedInstances.filter fun r => r.1 ≠ id) ↔
          (i, n) ∈ st.eventTerminatedInstances := by
        intro n
        rw [List.mem_filter]
        exact and_iff_left (decide_eq_true hi)
      unfold Store.content
      simp only [hset, find_delete_of_ne hi]
    | _ => rfl

/-! ## Requests -/

theorem Request.Issues.target_eq (h : r.Issues snapshot s) (st : Store) :
    s.target st = r.target st := by
  cases h <;> rfl

theorem respondFrom_content (hne : r.target st ≠ (k, i)) :
    (r.respondFrom rollback snapshot st).1.content k i = st.content k i := by
  obtain hsame | ⟨s, hs, hexec, -⟩ := respondFrom_issues r rollback snapshot st
  · rw [hsame]
  · exact exec_content hexec (hs.target_eq st ▸ hne)

end Statements

/-! ## The system -/

section System

variable {accepts : String → Bool} {s t : System} {x : System.Label} {k : Controller} {i : Id}

/-- **A step leaves the entities that it is not about.** -/
theorem step_content (h : s.step accepts x = some t) (hx : ¬ s.Concerns k i x) :
    t.store.content k i = s.store.content k i := by
  obtain ⟨r, -, rfl⟩ | ⟨n, rollback, r, snapshot, rfl, hn, hstore, -, -⟩ |
    ⟨y, -, handlers, rfl⟩ | ⟨id, behave, chaoses, -, -, rfl⟩ |
    ⟨n, y, e, d, es, st, rfl, -, hd, hst, rfl⟩ | ⟨event, st, rfl, hst, rfl⟩ | ⟨-, rfl⟩ :=
    System.step_cases h
  · rfl
  · rw [hstore]
    by_cases hsuccess : Success (r.respondFrom rollback snapshot s.store).2.1
    · exact respondFrom_content fun htarget => hx ⟨r, snapshot, hn, htarget, hsuccess⟩
    · rw [respondFrom_refused hsuccess]
  · rfl
  · rfl
  · obtain hnone | ⟨p, c, event, ok, rfl, -, rfl⟩ := saves_of_step hd
    · rw [show st = s.store from persistAll_of_no_save hnone hst]
    · obtain ⟨u, hu, hst⟩ := Option.bind_eq_some_iff.mp hst
      obtain rfl : u = st := Option.some.inj hst
      cases ok with
      | true =>
        refine exec_content (s := .insertEvent _ _) hu fun htarget => hx ?_
        exact ⟨(Prod.mk.inj htarget).1.symm, (Prod.mk.inj htarget).2.symm⟩
      | false =>
        obtain ⟨-, hsame⟩ := Option.ite_none_right_eq_some.mp hu
        rw [← Option.some.inj hsame]
  · refine exec_content (s := .deleteEvent event) hst fun htarget => hx ?_
    exact ⟨(Prod.mk.inj htarget).1.symm, (Prod.mk.inj htarget).2.symm⟩
  · rfl

end System

/-! ## Deletions -/

/-- The step deletes the entity: a `DELETE` of it is acknowledged, or it is an event that is
reaped. -/
def System.Deletes (s : System) (k : Controller) (i : Id) : System.Label → Prop
  | .commit n rollback => ∃ snapshot, s.requests[n]? = some (k.delete i, snapshot) ∧
      Success ((k.delete i).respondFrom rollback snapshot s.store).2.1
  | .reap event => k = .event ∧ i = event
  | _ => False

section Deletes

variable {accepts : String → Bool} {st st' snapshot : Store} {s : Statement} {k : Controller}
  {i : Id} {r : Request} {rollback : Bool} {tx : Transaction}

theorem exec_stored (hexec : s.exec st = some st') (hstored : st.Stored k i)
    (hne : s ≠ k.deletion i) : st'.Stored k i := by
  cases exec_eq_some.mp hexec with
  | insertSchedule row _ _ => cases k <;> first | exact isSome_find_insert hstored | exact hstored
  | updateSchedule id row _ _ => cases k <;> first | exact isSome_find_set hstored | exact hstored
  | insertApplication row _ => cases k <;> first | exact isSome_find_insert hstored | exact hstored
  | insertChaos row _ _ _ => cases k <;> first | exact isSome_find_insert hstored | exact hstored
  | updateChaos id row _ _ _ => cases k <;> first | exact isSome_find_set hstored | exact hstored
  | insertEvent row l _ _ => cases k <;> first | exact isSome_find_insert hstored | exact hstored
  | deleteSchedule id _ =>
    cases k with
    | schedule => exact isSome_find_delete_of_ne hstored fun h => hne (by rw [h]; rfl)
    | _ => exact hstored
  | deleteApplication id _ =>
    cases k with
    | application => exact isSome_find_delete_of_ne hstored fun h => hne (by rw [h]; rfl)
    | _ => exact hstored
  | deleteChaos id _ =>
    cases k with
    | chaos => exact isSome_find_delete_of_ne hstored fun h => hne (by rw [h]; rfl)
    | _ => exact hstored
  | deleteEvent id =>
    cases k with
    | event => exact isSome_find_delete_of_ne hstored fun h => hne (by rw [h]; rfl)
    | _ => exact hstored

theorem deletion_inj {k' : Controller} {j : Id} (h : k.deletion i = k'.deletion j) :
    k = k' ∧ i = j := by
  cases k <;> cases k' <;> cases h <;> exact ⟨rfl, rfl⟩

/-- Only a `DELETE` of the entity deletes it. -/
theorem Request.Issues.eq_delete (h : r.Issues snapshot (k.deletion i)) : r = k.delete i := by
  cases k <;> cases h <;> rfl

theorem respondFrom_stored (hne : r ≠ k.delete i) (hstored : st.Stored k i) :
    (r.respondFrom rollback snapshot st).1.Stored k i := by
  obtain hsame | ⟨s, hs, hexec, -⟩ := respondFrom_issues r rollback snapshot st
  · rwa [hsame]
  · refine exec_stored hexec hstored ?_
    rintro rfl
    exact hne hs.eq_delete

theorem persistAll_stored {es : List (ℕ × Effect)} (h : persistAll es st = some st')
    (hstored : st.Stored k i) : st'.Stored k i :=
  persistAll_keeps (P := fun u => u.Stored k i)
    (fun row l _ _ hexec hu =>
      exec_stored (s := .insertEvent row l) hexec hu (by cases k <;> nofun)) h hstored

/-- **A step that does not delete the entity leaves it stored.** -/
theorem step_stored {s t : System} {x : System.Label} (h : s.step accepts x = some t)
    (hstored : s.store.Stored k i) (hx : ¬ s.Deletes k i x) : t.store.Stored k i := by
  obtain ⟨r, -, rfl⟩ | ⟨n, rollback, r, snapshot, rfl, hn, hstore, -, -⟩ |
    ⟨y, -, handlers, rfl⟩ | ⟨id, behave, chaoses, -, -, rfl⟩ |
    ⟨n, y, e, d, es, st, rfl, -, -, hst, rfl⟩ | ⟨event, st, rfl, hst, rfl⟩ | ⟨-, rfl⟩ :=
    System.step_cases h
  · exact hstored
  · rw [hstore]
    by_cases hsuccess : Success (r.respondFrom rollback snapshot s.store).2.1
    · refine respondFrom_stored ?_ hstored
      rintro rfl
      exact hx ⟨snapshot, hn, hsuccess⟩
    · rw [respondFrom_refused hsuccess]
      exact hstored
  · exact hstored
  · exact hstored
  · exact persistAll_stored hst hstored
  · refine exec_stored (s := .deleteEvent event) hst hstored fun heq => hx ?_
    obtain ⟨rfl, rfl⟩ := deletion_inj (k := .event) heq
    exact ⟨rfl, rfl⟩
  · exact hstored

end Deletes

/-- **Changes are explained.** Take any run, from any state on. If an entity is not what it was,
then one of the steps has been about it: a request for it was acknowledged, or it is an event that
was saved or reaped. If it has gone, then one of the steps has deleted it: a `DELETE` of it was
acknowledged, or it is an event that was reaped. -/
theorem changes_are_explained {accepts : String → Bool} {s t : System} {xs : List System.Label}
    (hrun : run (System.step accepts) s xs = some t) (k : Controller) (i : Id) :
    (t.store.content k i ≠ s.store.content k i →
      ∃ ys x zs u, xs = ys ++ x :: zs ∧ run (System.step accepts) s ys = some u ∧
        u.Concerns k i x) ∧
    (s.store.Stored k i → ¬ t.store.Stored k i →
      ∃ ys x zs u, xs = ys ++ x :: zs ∧ run (System.step accepts) s ys = some u ∧
        u.Deletes k i x) := by
  constructor
  · intro hchange
    obtain ⟨ys, x, zs, u, v, hxs, hu, hv, hsame, hother⟩ :=
      run_lost (P := fun u => u.store.content k i = s.store.content k i) hrun rfl hchange
    refine ⟨ys, x, zs, u, hxs, hu, ?_⟩
    by_contra hx
    exact hother ((step_content hv hx).trans hsame)
  · intro hstored hgone
    obtain ⟨ys, x, zs, u, v, hxs, hu, hv, hbefore, hafter⟩ :=
      run_lost (P := fun u => u.store.Stored k i) hrun hstored hgone
    refine ⟨ys, x, zs, u, hxs, hu, ?_⟩
    by_contra hx
    exact hafter (step_stored hv hbefore hx)

/-- The event of `eventLabels` is deleted. -/
theorem changes_are_explained_event :
    ∃ s t, run (System.step fun _ => true) .init eventLabels = some s ∧
      run (System.step fun _ => true) s (commitAtOnce (.deleteEvent 1)) = some t ∧
      ∃ ys x zs u, commitAtOnce (.deleteEvent 1) = ys ++ x :: zs ∧
        run (System.step fun _ => true) s ys = some u ∧ u.Deletes .event 1 x := by
  obtain ⟨s, t, hreach, hrun, hstored, hgone⟩ : ∃ s t,
      run (System.step fun _ => true) .init eventLabels = some s ∧
      run (System.step fun _ => true) s (commitAtOnce (.deleteEvent 1)) = some t ∧
      s.store.Stored .event 1 ∧ t.store.event.find 1 = none := ⟨_, _, rfl, rfl, rfl, rfl⟩
  have hnot : ¬ t.store.Stored .event 1 := Option.not_isSome_iff_eq_none.mpr hgone
  exact ⟨s, t, hreach, hrun, (changes_are_explained hrun .event 1).2 hstored hnot⟩

end ChaosLoris
