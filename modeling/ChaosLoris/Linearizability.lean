import ChaosLoris.Catalogue
import ChaosLoris.Identity
import ChaosLoris.Lib.Linearizable

/-!
# Requests at the same time

Requests that run at the same time read the store when they begin and write when they commit, with
destroyers and the reaper writing in between. What is acknowledged is nevertheless what the
catalogue would have answered to the requests in some order, one after another, and this order is
that of time (`requests_linearizable`).

It takes two conditions on the commits that write (`Clients.Undisturbed`). The row is there:
Hibernate counts the rows that a statement has changed, and rolls back if there is none. And the
fields that a `PATCH` of a schedule has not been given are as it has read them, since all columns
are written. A `PATCH` of a chaos needs no such condition: the columns that it has read besides the
probability never change.
-/

namespace ChaosLoris

open FlatMap Keyed Linearizable Runs Relation

/-! ## The catalogue as a sequential specification -/

/-- What a request does that is not refused. -/
def Catalogue.Serves (m : Catalogue) (r : Request) (m' : Catalogue) (a : Answer) : Prop :=
  m.serve r = .ok (m', a)

/-- What happens to the catalogue without a request. -/
inductive Catalogue.Background (m : Catalogue) : Catalogue → Prop
  /-- A destroyer saves an event. -/
  | record (row : EventRow) (terminatedInstances : List ℕ)
      (hchaos : m.Contains .chaos row.chaosId) :
      Background m
        { m with
          event := m.event.add row
          terminatedInstances :=
            m.terminatedInstances ∪ {p | p.1 = m.event.next ∧ p.2 ∈ terminatedInstances} }
  /-- The reaper deletes one. -/
  | reap (id : Id) : Background m (m.remove .event id)

/-! ## One request -/

/-- The handler has left nothing for the commit to write. -/
def Request.Idle (r : Request) (snapshot : Store) : Prop :=
  ∀ tx ∈ (r.handle snapshot).toOption, tx.pending = []

instance (r : Request) (snapshot : Store) : Decidable (r.Idle snapshot) :=
  inferInstanceAs (Decidable (∀ tx ∈ (r.handle snapshot).toOption, tx.pending = []))

/-- The row to be written is there, and a `PATCH` of a schedule makes of it what it has made of the
row that it has read. -/
def Request.Undisturbed (snapshot st : Store) : Request → Prop
  | .deleteApplication id => (st.application.find id).isSome
  | .deleteSchedule id => (st.schedule.find id).isSome
  | .updateSchedule id input =>
    (st.schedule.find id).map input.apply = (snapshot.schedule.find id).map input.apply
  | .deleteChaos id => (st.chaos.find id).isSome
  | .updateChaos id _ => (st.chaos.find id).isSome
  | .deleteEvent id => (st.event.find id).isSome
  | _ => True

instance (snapshot st : Store) : ∀ r : Request, Decidable (r.Undisturbed snapshot st)
  | .createApplication _ => inferInstanceAs (Decidable True)
  | .deleteApplication _ => inferInstanceAs (Decidable (_ = true))
  | .createSchedule _ => inferInstanceAs (Decidable True)
  | .deleteSchedule _ => inferInstanceAs (Decidable (_ = true))
  | .updateSchedule _ _ => inferInstanceAs (Decidable (_ = _))
  | .createChaos _ => inferInstanceAs (Decidable True)
  | .deleteChaos _ => inferInstanceAs (Decidable (_ = true))
  | .updateChaos _ _ => inferInstanceAs (Decidable (_ = true))
  | .deleteEvent _ => inferInstanceAs (Decidable (_ = true))

section Commit

variable {r : Request} {rollback : Bool} {snapshot st st' : Store} {k : Controller} {i id : Id}
  {tx : Transaction} {a : Answer}

theorem serves_of_respond (hst : st.Valid) (h : r.respond false st = (st', a))
    (ha : Success a.1) : st.catalogue.Serves r st'.catalogue a := by
  have hrefines := respond_refines hst r
  rw [h, outcome_of_success ha] at hrefines
  exact hrefines.symm

theorem respond_of_success (h : Success (r.respond rollback st).2.1) :
    r.respond rollback st = r.respond false st := by
  cases rollback with
  | false => rfl
  | true =>
    unfold Request.respond at h ⊢
    cases hr : r.handle st with
    | error e => rfl
    | ok tx =>
      rw [hr] at h
      cases hexec : execAll tx.pending tx.store with
      | none => simp only [hexec]
      | some st' =>
        simp only [hexec, if_true] at h
        exact absurd h (by decide)

theorem commits_of_success (hr : r.flushes = false)
    (h : Success (r.respondFrom rollback snapshot st).2.1) :
    ∃ tx st', r.handle snapshot = .ok tx ∧ execAll tx.pending st = some st' ∧
      r.respondFrom rollback snapshot st = (st', tx.status, tx.published) ∧ rollback = false := by
  unfold Request.respondFrom at h ⊢
  rw [hr, if_neg Bool.false_ne_true] at h ⊢
  cases hhandle : r.handle snapshot with
  | error e =>
    rw [hhandle] at h
    have hrefused : Refused r false snapshot e.status := .handler e hhandle
    exact absurd h hrefused.not_success
  | ok tx =>
    rw [hhandle] at h
    cases hexec : execAll tx.pending st with
    | none =>
      simp only [hexec] at h
      exact absurd h (by decide)
    | some st' =>
      cases rollback with
      | true =>
        simp only [hexec, if_true] at h
        exact absurd h (by decide)
      | false =>
        refine ⟨tx, st', rfl, hexec, ?_, rfl⟩
        simp only [hexec, Bool.false_eq_true, if_false]

/-- A request with nothing to write is served by the catalogue it has read. -/
theorem serves_of_idle (hr : r.flushes = false) (hsnapshot : snapshot.Valid)
    (h : r.handle snapshot = .ok tx) (hidle : tx.pending = []) :
    snapshot.catalogue.Serves r snapshot.catalogue (tx.status, tx.published) := by
  obtain rfl := handle_store hr h
  refine serves_of_respond hsnapshot (respond_of_commits h ?_) (handle_status h)
  rw [hidle]
  rfl

theorem serves_delete (hst : st.Valid) (hstored : st.Stored k i)
    (h : (k.delete i).handle snapshot = .ok tx) (hexec : execAll tx.pending st = some st') :
    st.catalogue.Serves (k.delete i) st'.catalogue (tx.status, tx.published) := by
  have hread : snapshot.Stored k i := by
    by_contra hnot
    rw [handle_delete_of_absent hnot] at h
    cases h
  obtain rfl := Except.ok.inj ((handle_delete_of_stored hread).symm.trans h)
  rw [execAll_singleton] at hexec
  have hfree : ¬ st.Referred k i := by
    intro href
    rw [exec_deletion_of_referred href] at hexec
    cases hexec
  rw [exec_deletion_of_free hfree] at hexec
  obtain rfl := Option.some.inj hexec
  have hpublished : (k.deletion i).published snapshot = (k.deletion i).published st := by
    cases k <;> rfl
  rw [hpublished]
  exact serves_of_respond hst (respond_delete_of_free hfree hstored) success_noContent

/-- The fields that a `PATCH` of a schedule has not been given are still as it has read them. -/
theorem serves_updateSchedule {input : ScheduleUpdateInput}
    (hsame : (st.schedule.find id).map input.apply = (snapshot.schedule.find id).map input.apply)
    (h : (Request.updateSchedule id input).handle snapshot = .ok tx) (hbusy : tx.pending ≠ [])
    (hexec : execAll tx.pending st = some st') :
    st.catalogue.Serves (.updateSchedule id input) st'.catalogue (tx.status, tx.published) := by
  obtain ⟨row, hrow, rfl⟩ := ScheduleController.update_eq_ok.mp h
  rw [hrow, Option.map_some] at hsame
  obtain ⟨row', hrow', happly⟩ := Option.map_eq_some_iff.mp hsame
  have hchanged : input.apply row ≠ row := fun heq => hbusy (if_pos heq)
  simp only [if_neg hchanged] at hexec ⊢
  rw [execAll_singleton] at hexec
  cases exec_eq_some.mp hexec with
  | updateSchedule id row _ hname =>
    have hadmits : st.catalogue.Admits id (input.apply row') := by
      rw [admits_iff, happly]
      exact ⟨‹_›, hname⟩
    have hfind : st.catalogue.schedule.find id = some row' := hrow'
    simp only [Catalogue.Serves, Catalogue.serve, hfind]
    rw [if_pos (Or.inr hadmits), happly]
    simp [Store.catalogue]

/-- The ends of a chaos are still as a `PATCH` has read them. -/
theorem serves_updateChaos {probability : Option ℚ} (hlater : snapshot.Later st)
    (hstored : (st.chaos.find id).isSome)
    (h : (Request.updateChaos id probability).handle snapshot = .ok tx) (hbusy : tx.pending ≠ [])
    (hexec : execAll tx.pending st = some st') :
    st.catalogue.Serves (.updateChaos id probability) st'.catalogue (tx.status, tx.published) := by
  obtain ⟨hp, row, hrow, rfl⟩ := ChaosController.update_eq_ok.mp h
  have hchanged : { row with probability := probability.getD row.probability } ≠ row :=
    fun heq => hbusy (if_pos heq)
  obtain ⟨row', hrow'⟩ := Option.isSome_iff_exists.mp hstored
  obtain ⟨happlication, hschedule⟩ := Prod.mk.inj (hlater.chaos.column_eq hrow hrow')
  have hwritten : { row' with probability := probability.getD row'.probability } =
      { row with probability := probability.getD row.probability } := by
    cases probability with
    | none => exact absurd rfl hchanged
    | some p =>
      rw [happlication, hschedule]
      rfl
  simp only [if_neg hchanged] at hexec ⊢
  rw [execAll_singleton] at hexec
  have hfind : st.catalogue.chaos.find id = some row' := hrow'
  simp only [Catalogue.Serves, Catalogue.serve, hfind, hwritten]
  cases exec_eq_some.mp hexec with
  | updateChaos id _ _ _ _ =>
    rw [if_pos hp]
    simp [Store.catalogue]

/-- **A commit is a step of the catalogue.** What is acknowledged is what the catalogue answers to
the request when it commits, or what it answered when the request began, and nothing changes. -/
theorem respondFrom_serves (hsnapshot : snapshot.Valid) (hst : st.Valid)
    (hlater : snapshot.Later st) (hsuccess : Success (r.respondFrom rollback snapshot st).2.1)
    (hcond : rollback = true ∨ r.Idle snapshot ∨ r.Undisturbed snapshot st) :
    ((r.respondFrom rollback snapshot st).1 = st ∧
        snapshot.catalogue.Serves r snapshot.catalogue (r.respondFrom rollback snapshot st).2) ∨
      st.catalogue.Serves r (r.respondFrom rollback snapshot st).1.catalogue
        (r.respondFrom rollback snapshot st).2 := by
  cases hr : r.flushes with
  | true =>
    have heq : r.respondFrom rollback snapshot st = r.respond rollback st := if_pos hr
    rw [heq] at hsuccess ⊢
    have hfalse := respond_of_success hsuccess
    rw [hfalse] at hsuccess ⊢
    exact .inr (serves_of_respond hst rfl hsuccess)
  | false =>
    obtain ⟨tx, st', h, hexec, heq, hrollback⟩ := commits_of_success hr hsuccess
    rw [heq]
    by_cases hidle : tx.pending = []
    · rw [hidle] at hexec
      obtain rfl : st = st' := Option.some.inj hexec
      exact .inl ⟨rfl, serves_of_idle hr hsnapshot h hidle⟩
    · have hundisturbed : r.Undisturbed snapshot st := by
        refine (hcond.resolve_left ?_).resolve_left fun hnot => hidle (hnot tx ?_)
        · rw [hrollback]
          exact Bool.false_ne_true
        · rw [h]
          rfl
      refine .inr ?_
      cases r with
      | deleteApplication id => exact serves_delete (k := .application) hst hundisturbed h hexec
      | deleteSchedule id => exact serves_delete (k := .schedule) hst hundisturbed h hexec
      | deleteChaos id => exact serves_delete (k := .chaos) hst hundisturbed h hexec
      | deleteEvent id => exact serves_delete (k := .event) hst hundisturbed h hexec
      | updateSchedule id input => exact serves_updateSchedule hundisturbed h hidle hexec
      | updateChaos id probability =>
        exact serves_updateChaos hlater hundisturbed h hidle hexec
      | _ => cases hr

end Commit

/-! ## The clients -/

abbrev Acknowledgement := Linearizable.Call Request Answer

/-- The system with the requests numbered as they begin. -/
structure Clients where
  system : System
  begun : ℕ
  /-- The requests of the system that have begun, with their numbers. -/
  inFlight : List (ℕ × Request × Store)

namespace Clients

def init : Clients := ⟨.init, 0, []⟩

/-- What a step acknowledges. -/
def acknowledged (s : Clients) : System.Label → List Acknowledgement
  | .commit k rollback =>
    (s.inFlight[k]?.filter fun p =>
      Success (p.2.1.respondFrom rollback p.2.2 s.system.store).2.1).toList.map fun p =>
        ⟨p.1, p.2.1, (p.2.1.respondFrom rollback p.2.2 s.system.store).2⟩
  | _ => []

/-- The clients when the system has taken a step. -/
def after (s : Clients) (t : System) : System.Label → Clients
  | .begin r => ⟨t, s.begun + 1, s.inFlight ++ [(s.begun, r, s.system.store)]⟩
  | .commit k _ => ⟨t, s.begun, s.inFlight.eraseIdx k⟩
  | .restart => ⟨t, s.begun, []⟩
  | _ => { s with system := t }

def step (accepts : String → Bool) (s : Clients) (x : System.Label) :
    Option (Clients × List Acknowledgement) :=
  (s.system.step accepts x).map fun t => (s.after t x, s.acknowledged x)

/-- What there is to be seen of the catalogue. -/
def view (s : Clients) : View Catalogue Request :=
  ⟨s.system.store.catalogue, s.begun, s.inFlight.map fun p => (p.1, p.2.1, p.2.2.catalogue)⟩

/-- A commit that writes finds what it relies on. -/
def Undisturbed (p : Clients × List Acknowledgement) : System.Label → Prop
  | .commit k rollback => ∀ q ∈ p.1.inFlight[k]?,
      rollback = true ∨ q.2.1.Idle q.2.2 ∨ q.2.1.Undisturbed q.2.2 p.1.system.store
  | _ => True

instance (p : Clients × List Acknowledgement) : ∀ x, Decidable (Undisturbed p x)
  | .begin _ => inferInstanceAs (Decidable True)
  | .commit k rollback => inferInstanceAs (Decidable (∀ q ∈ p.1.inFlight[k]?,
      rollback = true ∨ q.2.1.Idle q.2.2 ∨ q.2.1.Undisturbed q.2.2 p.1.system.store))
  | .handler _ => inferInstanceAs (Decidable True)
  | .query _ _ _ => inferInstanceAs (Decidable True)
  | .signal _ _ => inferInstanceAs (Decidable True)
  | .reap _ => inferInstanceAs (Decidable True)
  | .restart => inferInstanceAs (Decidable True)

/-- What holds of the clients at any time. -/
structure Sound (s : Clients) : Prop where
  system : s.system.Sound
  readsEarlier : s.system.ReadsEarlier
  inFlight : s.inFlight.map Prod.snd = s.system.requests

end Clients

section Clients

variable {accepts : String → Bool} {s t : Clients} {x : System.Label}
  {l l' : List Acknowledgement}

theorem Clients.step_eq_some : s.step accepts x = some (t, l) ↔
    ∃ u, s.system.step accepts x = some u ∧ t = s.after u x ∧ l = s.acknowledged x := by
  unfold Clients.step
  rw [Option.map_eq_some_iff]
  constructor
  · rintro ⟨u, hu, heq⟩
    obtain ⟨rfl, rfl⟩ := Prod.mk.inj heq
    exact ⟨u, hu, rfl, rfl⟩
  · rintro ⟨u, hu, rfl, rfl⟩
    exact ⟨u, hu, rfl⟩

@[simp] theorem Clients.after_system (s : Clients) (u : System) (x : System.Label) :
    (s.after u x).system = u := by
  cases x <;> rfl

/-- The clients only watch: every run of the system is one of theirs. -/
theorem run_clients_iff {xs : List System.Label} {u : System} :
    run (System.step accepts) s.system xs = some u ↔
      ∃ t l', run (logged (Clients.step accepts)) (s, l) xs = some (t, l') ∧ t.system = u := by
  induction xs generalizing s l with
  | nil => simp
  | cons x xs ih =>
    constructor
    · intro h
      obtain ⟨v, hv, h⟩ := run_cons.mp h
      have hsystem := s.after_system v x
      rw [← hsystem] at h
      obtain ⟨t, l', hrun, ht⟩ := (ih (l := l ++ s.acknowledged x)).mp h
      refine ⟨t, l', run_cons.mpr ⟨_, logged_eq_some.mpr ⟨_, ?_, rfl⟩, hrun⟩, ht⟩
      exact Clients.step_eq_some.mpr ⟨v, hv, rfl, rfl⟩
    · rintro ⟨t, l', h, ht⟩
      obtain ⟨⟨t₁, l₁⟩, hx, h⟩ := run_cons.mp h
      obtain ⟨es, hx, -⟩ := logged_eq_some.mp hx
      obtain ⟨v, hv, heq, -⟩ := Clients.step_eq_some.mp hx
      obtain rfl : t₁ = s.after v x := heq
      refine run_cons.mpr ⟨v, hv, ?_⟩
      rw [← s.after_system v x]
      exact ih.mpr ⟨t, l', h, ht⟩

theorem Clients.sound_init : Clients.init.Sound := ⟨ChaosLoris.sound_init, readsEarlier_init, rfl⟩

theorem Clients.Sound.step (hs : s.Sound) (h : s.step accepts x = some (t, l)) : t.Sound := by
  obtain ⟨u, hu, rfl, -⟩ := Clients.step_eq_some.mp h
  refine ⟨?_, ?_, ?_⟩
  · rw [s.after_system]
    exact sound_step hs.system hu
  · rw [s.after_system]
    exact readsEarlier_step hs.readsEarlier hu
  · rw [s.after_system]
    have hin := hs.inFlight
    obtain ⟨r, rfl, rfl⟩ | ⟨k, rollback, r, snapshot, rfl, -, -, hrequests, -⟩ |
      ⟨y, rfl, handlers, rfl⟩ | ⟨id, behave, chaoses, rfl, -, rfl⟩ |
      ⟨k, y, e, d, es, st, rfl, -, -, -, rfl⟩ | ⟨event, st, rfl, -, rfl⟩ | ⟨rfl, rfl⟩ :=
      System.step_cases hu
    · simp [Clients.after, hin]
    · rw [hrequests, ← hin]
      exact (List.eraseIdx_map ..).symm
    all_goals first | exact hin | rfl

theorem Clients.sound_run {xs : List System.Label}
    (hrun : run (logged (Clients.step accepts)) (.init, []) xs = some (t, l)) : t.Sound := by
  refine run_inv (P := fun p => p.1.Sound) ?_ hrun Clients.sound_init
  intro p x q h hp
  obtain ⟨es, h, -⟩ := logged_eq_some.mp h
  exact hp.step h

theorem Clients.acknowledged_commit {k n : ℕ} {rollback : Bool} {r : Request} {snapshot : Store}
    (hk : s.inFlight[k]? = some (n, r, snapshot)) :
    s.acknowledged (.commit k rollback) =
      if Success (r.respondFrom rollback snapshot s.system.store).2.1 then
        [⟨n, r, (r.respondFrom rollback snapshot s.system.store).2⟩]
      else [] := by
  simp only [Clients.acknowledged, hk]
  split_ifs with h
  · simp [h]
  · simp [h]

theorem mem_terminatedRows {i : Id} {l : List ℕ} {p : Id × ℕ} :
    p ∈ terminatedRows i l ↔ p.1 = i ∧ p.2 ∈ l := by
  obtain ⟨j, n⟩ := p
  simp [terminatedRows, eq_comm, and_comm]

theorem background_of_insertEvent {row : EventRow} {terminatedInstances : List ℕ} {st st' : Store}
    (h : (Statement.insertEvent row terminatedInstances).exec st = some st') :
    st.catalogue.Background st'.catalogue := by
  cases exec_eq_some.mp h with
  | insertEvent _ _ hchaos _ =>
    have heq : Store.catalogue { st with
          event := st.event.insert row
          eventTerminatedInstances :=
            terminatedRows st.event.next terminatedInstances ++ st.eventTerminatedInstances } =
        { st.catalogue with
          event := st.catalogue.event.add row
          terminatedInstances := st.catalogue.terminatedInstances ∪
            {p | p.1 = st.catalogue.event.next ∧ p.2 ∈ terminatedInstances} } := by
      refine Catalogue.ext rfl rfl rfl (Table.extent_insert ..) (Set.ext fun p => ?_)
      show p ∈ _ ++ st.eventTerminatedInstances ↔ p ∈ st.eventTerminatedInstances ∨ _
      rw [List.mem_append, mem_terminatedRows]
      exact or_comm
    rw [heq]
    exact .record row terminatedInstances hchaos

theorem persistAll_background {es : List (ℕ × Effect)} {st st' : Store}
    (h : persistAll es st = some st') :
    ReflTransGen Catalogue.Background st.catalogue st'.catalogue :=
  persistAll_keeps (P := fun u => ReflTransGen Catalogue.Background st.catalogue u.catalogue)
    (fun _ _ _ _ hexec hu => hu.tail (background_of_insertEvent hexec)) h .refl

/-- **A step of the system is a step of what is seen of the catalogue.** -/
theorem Clients.view_step (hs : s.Sound) (hcond : Clients.Undisturbed (s, l) x)
    (h : s.step accepts x = some (t, l')) :
    s.view.Step Catalogue.Serves (ReflTransGen Catalogue.Background) l' t.view := by
  obtain ⟨u, hu, rfl, rfl⟩ := Clients.step_eq_some.mp h
  obtain ⟨r, rfl, rfl⟩ | ⟨k, rollback, r, snapshot, rfl, hk, hstore, -, -⟩ |
    ⟨y, rfl, handlers, rfl⟩ | ⟨id, behave, chaoses, rfl, -, rfl⟩ |
    ⟨k, y, e, d, es, st, rfl, -, -, hst, rfl⟩ | ⟨event, st, rfl, hst, rfl⟩ | ⟨rfl, rfl⟩ :=
    System.step_cases hu
  · have hview : (s.after { s.system with requests := s.system.requests ++
        [(r, s.system.store)] } (.begin r)).view =
        ⟨s.view.state, s.view.begun + 1, s.view.inFlight ++
          [(s.view.begun, r, s.view.state)]⟩ := by
      simp [Clients.view, Clients.after]
    rw [hview]
    exact .begin r
  · rw [← hs.inFlight, List.getElem?_map, Option.map_eq_some_iff] at hk
    obtain ⟨⟨n, _, _⟩, hk, ⟨⟩⟩ := hk
    obtain ⟨hlt, hget⟩ := List.getElem?_eq_some_iff.mp hk
    have hview : (s.after u (.commit k rollback)).view =
        ⟨u.store.catalogue, s.begun, (s.inFlight.eraseIdx k).map fun p =>
          (p.1, p.2.1, p.2.2.catalogue)⟩ := rfl
    rw [hview, hstore, Clients.acknowledged_commit hk]
    have hin : (r, snapshot) ∈ s.system.requests := by
      rw [← hs.inFlight]
      exact List.mem_map_of_mem (List.mem_of_getElem? hk)
    have hperm : s.view.inFlight.Perm ((n, r, snapshot.catalogue) ::
        (s.inFlight.eraseIdx k).map fun p => (p.1, p.2.1, p.2.2.catalogue)) := by
      have := List.getElem_cons_eraseIdx_perm hlt
      rw [hget] at this
      exact (this.map _).symm
    split_ifs with hsuccess
    · obtain ⟨hsame, hserves⟩ | hserves := respondFrom_serves (hs.system.requests _ hin).1
        hs.system.store (hs.readsEarlier _ hin) hsuccess (hcond _ hk)
      · rw [hsame]
        exact .noEffect hperm hserves
      · exact .effect hperm hserves
    · rw [respondFrom_refused hsuccess]
      exact .background (List.eraseIdx_sublist .. |>.map _) .refl
  · exact .background (List.Sublist.refl _) .refl
  · exact .background (List.Sublist.refl _) .refl
  · exact .background (List.Sublist.refl _) (persistAll_background hst)
  · obtain rfl : s.system.store.remove .event event = st := Option.some.inj hst
    have hreap := Catalogue.Background.reap (m := s.system.store.catalogue) event
    rw [← catalogue_remove] at hreap
    exact .background (List.Sublist.refl _) (.single hreap)
  · exact .background (List.nil_sublist _) .refl

end Clients

/-! ## Runs -/

variable {accepts : String → Bool}

/-- **Concurrent requests are linearizable.** In any run, from the empty database on, of requests,
handlers of the scheduler, runs of destroyers, the reaper and restarts, in which every commit that
writes is undisturbed, the acknowledged requests can be put in an order in which the catalogue gives
the same answers and ends as the store does, events being recorded and reaped in between. At every
moment of the run the order can be cut in two: what was acknowledged by then is before the cut, what
had not begun is not, and the store of that moment is what is before the cut. `AUTO_INCREMENT` is
taken to count without gaps and in the order of the commits. -/
theorem requests_linearizable {xs : List System.Label} {t : Clients} {l : List Acknowledgement}
    (hundisturbed : Along (logged (Clients.step accepts)) Clients.Undisturbed (.init, []) xs)
    (hrun : run (logged (Clients.step accepts)) (.init, []) xs = some (t, l)) :
    ∃ cs : List Acknowledgement, cs.Perm l ∧
      Replays Catalogue.Serves (ReflTransGen Catalogue.Background) Store.empty.catalogue cs
        t.system.store.catalogue ∧
      ∀ ys u m, ys <+: xs → run (logged (Clients.step accepts)) (.init, []) ys = some (u, m) →
        ∃ cs₁ cs₂, cs = cs₁ ++ cs₂ ∧
          Replays Catalogue.Serves (ReflTransGen Catalogue.Background) Store.empty.catalogue cs₁
            u.system.store.catalogue ∧
          Replays Catalogue.Serves (ReflTransGen Catalogue.Background) u.system.store.catalogue cs₂
            t.system.store.catalogue ∧
          (∀ c ∈ m, c ∈ cs₁) ∧ ∀ c ∈ cs₁, c.number < u.begun := by
  refine exists_linearization (show (Clients.view .init).inFlight = [] from rfl) ?_ hrun
  intro ys x zs u m v es hxs hys hx
  have hcond := (along_iff hrun).mp hundisturbed ys x zs (u, m) hxs hys
  exact Clients.view_step (Clients.sound_run hys) hcond hx

/-- The chaos of `chaosLabels` is changed and deleted while a `PATCH` waits that changes nothing. -/
def overlappingRequests : List System.Label :=
  chaosLabels ++ [.begin (.updateChaos 1 (some 0)),
    .begin (.updateSchedule 1 ⟨none, some "hourly"⟩), .begin (.deleteChaos 1), .commit 0 false,
    .commit 1 false, .commit 0 false]

theorem requests_linearizable_overlapping :
    ∃ t l, run (logged (Clients.step fun _ => true)) (.init, []) overlappingRequests =
        some (t, l) ∧ l.map (fun c => c.number) = [0, 1, 2, 3, 5, 4] ∧
      ∃ cs : List Acknowledgement, cs.Perm l ∧
        Replays Catalogue.Serves (ReflTransGen Catalogue.Background) Store.empty.catalogue cs
          t.system.store.catalogue := by
  have hundisturbed : Along (logged (Clients.step fun _ => true)) Clients.Undisturbed (.init, [])
      overlappingRequests := by decide
  obtain ⟨t, l, hrun, hnumbers⟩ : ∃ t l, run (logged (Clients.step fun _ => true)) (.init, [])
      overlappingRequests = some (t, l) ∧ l.map (fun c => c.number) = [0, 1, 2, 3, 5, 4] :=
    ⟨_, _, rfl, rfl⟩
  obtain ⟨cs, hperm, hreplays, -⟩ := requests_linearizable hundisturbed hrun
  exact ⟨t, l, hrun, hnumbers, cs, hperm, hreplays⟩

end ChaosLoris
