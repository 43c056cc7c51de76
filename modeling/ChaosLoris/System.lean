import ChaosLoris.StoreInvariant
import ChaosLoris.Threads

/-!
# The system

Requests, handlers of the scheduler, runs of destroyers and the reaper, all at the same time. A
request reads the store when it begins and writes when it commits; what it inserts is flushed in
between, and is checked then. A run of a destroyer reads the chaoses of its schedule once, whether
or not its future is still in the map, and saves its events one by one. A restart drops the
requests and the scheduler.

A request sends one statement, or leaves the store (`respondFrom_issues`). Whatever happens to the
store is the execution of statements with sound values (`step_evolves`), so it is valid in every
state of the system (`system_sound`).
-/

namespace ChaosLoris

open FlatMap Runs Keyed

/-- A run of the destroyer of a schedule, with the calls it has made. -/
structure Execution where
  scheduleId : Id
  behave : Chaos → Behaviour
  /-- What `findByScheduleId` returned. -/
  chaoses : List Chaos
  destroyer : Destroyer
  log : List (ℕ × Effect)

structure System where
  store : Store
  /-- The requests that have begun, with the store as they have read it. -/
  requests : List (Request × Store)
  handlers : Threads
  /-- The runs of destroyers, in the order of their queries. -/
  executions : List Execution

/-- The handler saves its entity with `saveAndFlush`. -/
def Request.flushes : Request → Bool
  | .createApplication _ => true
  | .createSchedule _ => true
  | .createChaos _ => true
  | _ => false

/-- A request that has read the store `snapshot` and commits in the store `st`. -/
def Request.respondFrom (r : Request) (rollback : Bool) (snapshot st : Store) :
    Store × Status × List ScheduleEvent :=
  if r.flushes then r.respond rollback st
  else
    match r.handle snapshot with
    | .error e => (st, e.status, [])
    | .ok tx =>
      match execAll tx.pending st with
      | none => (st, Failure.dataIntegrityViolation.status, [])
      | some st' => if rollback then (st, 500, []) else (st', tx.status, tx.published)

inductive System.Label
  | begin (r : Request)
  | commit (k : ℕ) (rollback : Bool)
  /-- A handler of the scheduler begins or takes a step. -/
  | handler (x : Threads.Label)
  | query (scheduleId : Id) (behave : Chaos → Behaviour) (chaoses : List Chaos)
  | signal (k : ℕ) (x : Signal ChaosSignal)
  /-- The reaper deletes an event. -/
  | reap (event : Id)
  | restart

/-- `run()` on `chaoses`. -/
def Execution.start (scheduleId : Id) (behave : Chaos → Behaviour) (chaoses : List Chaos) :
    Execution :=
  ⟨scheduleId, behave, chaoses, Destroyer.start chaoses, []⟩

def System.step (accepts : String → Bool) (s : System) : System.Label → Option System
  | .begin r => some { s with requests := s.requests ++ [(r, s.store)] }
  | .commit k rollback =>
    s.requests[k]?.map fun p =>
      let q := p.1.respondFrom rollback p.2 s.store
      { s with
        store := q.1
        requests := s.requests.eraseIdx k
        handlers := { s.handlers with
          threads := s.handlers.threads ++ q.2.2.map fun e => .of e.handler } }
  | .handler x => (s.handlers.step accepts x).map fun handlers => { s with handlers }
  | .query scheduleId behave chaoses =>
    if chaoses.Perm (s.store.findByScheduleId scheduleId) then
      some { s with executions := s.executions ++ [.start scheduleId behave chaoses] }
    else none
  | .signal k x =>
    s.executions[k]?.bind fun e =>
      (Destroyer.step e.behave e.destroyer x).bind fun p =>
        (persistAll p.2 s.store).map fun st =>
          { s with
            store := st
            executions := s.executions.set k { e with destroyer := p.1, log := e.log ++ p.2 } }
  | .reap event =>
    ((Statement.deleteEvent event).exec s.store).map fun st => { s with store := st }
  | .restart => some { s with requests := [], handlers := .init .init }

/-- The system after the migrations. -/
def System.init : System := ⟨.empty, [], .init .init, []⟩

theorem handle_store {r : Request} {st : Store} {tx : Transaction} (hr : r.flushes = false)
    (h : r.handle st = .ok tx) : tx.store = st := by
  cases r with
  | createApplication applicationId => cases hr
  | createSchedule input => cases hr
  | createChaos input => cases hr
  | deleteApplication id =>
    obtain ⟨-, rfl⟩ := ApplicationController.delete_eq_ok.mp h
    rfl
  | deleteSchedule id =>
    obtain ⟨-, rfl⟩ := ScheduleController.delete_eq_ok.mp h
    rfl
  | updateSchedule id input =>
    obtain ⟨row, -, rfl⟩ := ScheduleController.update_eq_ok.mp h
    rfl
  | deleteChaos id =>
    obtain ⟨-, rfl⟩ := ChaosController.delete_eq_ok.mp h
    rfl
  | updateChaos id probability =>
    obtain ⟨-, row, -, rfl⟩ := ChaosController.update_eq_ok.mp h
    rfl
  | deleteEvent id =>
    obtain ⟨-, rfl⟩ := EventController.delete_eq_ok.mp h
    rfl

/-- A request that nothing has come between is answered at once. -/
theorem respondFrom_self (r : Request) (rollback : Bool) (st : Store) :
    r.respondFrom rollback st st = r.respond rollback st := by
  unfold Request.respondFrom
  cases hr : r.flushes with
  | true => rfl
  | false =>
    unfold Request.respond
    cases h : r.handle st with
    | error e => rfl
    | ok tx =>
      obtain rfl := handle_store hr h
      rfl

/-- What can come of a request that does not flush: it commits what its handler has made of the
snapshot, or it is refused and leaves the store. -/
theorem respondFrom_cases {r : Request} (hr : r.flushes = false) (rollback : Bool)
    (snapshot st : Store) :
    (∃ tx st', r.handle snapshot = .ok tx ∧ execAll tx.pending st = some st' ∧
      r.respondFrom rollback snapshot st = (st', tx.status, tx.published)) ∨
    ∃ status, (status = 500 ∨ ∃ e : Failure, status = e.status) ∧
      r.respondFrom rollback snapshot st = (st, status, []) := by
  unfold Request.respondFrom
  rw [hr, if_neg Bool.false_ne_true]
  cases h : r.handle snapshot with
  | error e => exact .inr ⟨e.status, .inr ⟨e, rfl⟩, rfl⟩
  | ok tx =>
    cases hexec : execAll tx.pending st with
    | none =>
      simp only [hexec]
      exact .inr ⟨_, .inr ⟨.dataIntegrityViolation, rfl⟩, rfl⟩
    | some st' =>
      cases rollback with
      | true =>
        simp only [hexec]
        exact .inr ⟨500, .inl rfl, rfl⟩
      | false =>
        simp only [hexec]
        exact .inl ⟨tx, st', rfl, hexec, rfl⟩

/-- The statement that a request which has read the store `snapshot` sends to the database. -/
inductive Request.Issues (snapshot : Store) : Request → Statement → Prop
  | createApplication (a : UUID) :
      Issues snapshot (.createApplication (some a)) (.insertApplication ⟨a⟩)
  | deleteApplication (id : Id) : Issues snapshot (.deleteApplication id) (.deleteApplication id)
  | createSchedule (expression name : String) : Issues snapshot
      (.createSchedule ⟨some expression, some name⟩) (.insertSchedule ⟨name, expression⟩)
  | deleteSchedule (id : Id) : Issues snapshot (.deleteSchedule id) (.deleteSchedule id)
  | updateSchedule (id : Id) (input : ScheduleUpdateInput) (row : ScheduleRow)
      (hrow : snapshot.schedule.find id = some row) :
      Issues snapshot (.updateSchedule id input) (.updateSchedule id (input.apply row))
  | createChaos (input : ChaosCreateInput) (row : ChaosRow) :
      Issues snapshot (.createChaos input) (.insertChaos row)
  | deleteChaos (id : Id) : Issues snapshot (.deleteChaos id) (.deleteChaos id)
  | updateChaos (id : Id) (probability : Option ℚ) (row : ChaosRow)
      (hrow : snapshot.chaos.find id = some row) : Issues snapshot (.updateChaos id probability)
        (.updateChaos id { row with probability := probability.getD row.probability })
  | deleteEvent (id : Id) : Issues snapshot (.deleteEvent id) (.deleteEvent id)

section Issues

variable {r : Request} {st : Store} {tx : Transaction}

/-- A handler that flushes has read nothing that its statement depends on. -/
theorem handle_flushed (hr : r.flushes = true) (h : r.handle st = .ok tx) :
    ∃ s, (∀ snapshot, r.Issues snapshot s) ∧ s.exec st = some tx.store ∧ tx.pending = [] ∧
      tx.published = s.published st := by
  cases r with
  | createApplication applicationId =>
    obtain ⟨a, st', rfl, hexec, rfl⟩ := ApplicationController.create_eq_ok.mp h
    exact ⟨_, fun _ => .createApplication a, hexec, rfl, rfl⟩
  | createSchedule input =>
    obtain ⟨expression, name, st', rfl, hexec, rfl⟩ := ScheduleController.create_eq_ok.mp h
    exact ⟨_, fun _ => .createSchedule expression name, hexec, rfl, rfl⟩
  | createChaos input =>
    obtain ⟨_, p, _, i, j, st', -, -, -, -, hexec, rfl⟩ := ChaosController.create_eq_ok.mp h
    exact ⟨_, fun _ => .createChaos input _, hexec, rfl, rfl⟩
  | _ => cases hr

theorem handle_pending (hr : r.flushes = false) (h : r.handle st = .ok tx) :
    tx.pending = [] ∨
      ∃ s, r.Issues st s ∧ tx.pending = [s] ∧ ∀ u, tx.published = s.published u := by
  cases r with
  | deleteApplication id =>
    obtain ⟨-, rfl⟩ := ApplicationController.delete_eq_ok.mp h
    exact .inr ⟨_, .deleteApplication id, rfl, fun _ => rfl⟩
  | deleteSchedule id =>
    obtain ⟨-, rfl⟩ := ScheduleController.delete_eq_ok.mp h
    exact .inr ⟨_, .deleteSchedule id, rfl, fun _ => rfl⟩
  | deleteChaos id =>
    obtain ⟨-, rfl⟩ := ChaosController.delete_eq_ok.mp h
    exact .inr ⟨_, .deleteChaos id, rfl, fun _ => rfl⟩
  | deleteEvent id =>
    obtain ⟨-, rfl⟩ := EventController.delete_eq_ok.mp h
    exact .inr ⟨_, .deleteEvent id, rfl, fun _ => rfl⟩
  | updateSchedule id input =>
    obtain ⟨row, hrow, rfl⟩ := ScheduleController.update_eq_ok.mp h
    by_cases hsame : input.apply row = row
    · exact .inl (if_pos hsame)
    · exact .inr ⟨_, .updateSchedule id input row hrow, if_neg hsame, fun _ => rfl⟩
  | updateChaos id probability =>
    obtain ⟨-, row, hrow, rfl⟩ := ChaosController.update_eq_ok.mp h
    by_cases hsame : { row with probability := probability.getD row.probability } = row
    · exact .inl (if_pos hsame)
    · exact .inr ⟨_, .updateChaos id probability row hrow, if_neg hsame, fun _ => rfl⟩
  | _ => cases hr

/-- **A request sends one statement, or leaves the store.** -/
theorem respondFrom_issues (r : Request) (rollback : Bool) (snapshot st : Store) :
    (r.respondFrom rollback snapshot st).1 = st ∨
      ∃ s, r.Issues snapshot s ∧ s.exec st = some (r.respondFrom rollback snapshot st).1 ∧
        (r.respondFrom rollback snapshot st).2.2 = s.published st := by
  cases hr : r.flushes with
  | true =>
    have heq : r.respondFrom rollback snapshot st = r.respond rollback st := if_pos hr
    rw [heq]
    unfold Request.respond
    cases h : r.handle st with
    | error e => exact .inl rfl
    | ok tx =>
      obtain ⟨s, hs, hexec, hpend, hpub⟩ := handle_flushed hr h
      simp only [hpend, execAll]
      cases rollback with
      | true => exact .inl rfl
      | false => exact .inr ⟨s, hs snapshot, hexec, hpub⟩
  | false =>
    obtain ⟨tx, st', h, hexec, heq⟩ | ⟨status, -, heq⟩ :=
      respondFrom_cases hr rollback snapshot st
    · rw [heq]
      obtain hpend | ⟨s, hs, hpend, hpub⟩ := handle_pending hr h
      · rw [hpend] at hexec
        exact .inl (Option.some.inj hexec).symm
      · rw [hpend, execAll_singleton] at hexec
        exact .inr ⟨s, hs, hexec, hpub st⟩
    · rw [heq]
      exact .inl rfl

/-- The calls of a destroyer insert events, and do nothing else to the store. -/
theorem persistAll_keeps {P : Store → Prop}
    (hinsert : ∀ row terminatedInstances u v,
      (Statement.insertEvent row terminatedInstances).exec u = some v → P u → P v)
    {es : List (ℕ × Effect)} {st' : Store} (h : persistAll es st = some st') (hst : P st) :
    P st' := by
  induction es generalizing st with
  | nil => exact Option.some.inj h ▸ hst
  | cons p es ih =>
    obtain ⟨u, hp, h⟩ := Option.bind_eq_some_iff.mp h
    refine ih h ?_
    obtain ⟨k, f⟩ := p
    cases f with
    | save e ok =>
      cases ok with
      | true => exact hinsert _ _ st u hp hst
      | false =>
        obtain ⟨-, hsame⟩ := Option.ite_none_right_eq_some.mp hp
        exact Option.some.inj hsame ▸ hst
    | _ => exact Option.some.inj hp ▸ hst

end Issues

/-! ## What holds in every state -/

section Sound

variable {accepts : String → Bool} {s t : System} {x : System.Label}

theorem respondFrom_evolves {snapshot st : Store} (hsnapshot : snapshot.Valid) (hst : st.Valid)
    (r : Request) (rollback : Bool) : Evolves st (r.respondFrom rollback snapshot st).1 := by
  cases hr : r.flushes with
  | true =>
    unfold Request.respondFrom
    rw [hr, if_pos rfl]
    exact respond_evolves hst r rollback
  | false =>
    obtain ⟨tx, st', h, hexec, heq⟩ | ⟨status, -, heq⟩ :=
      respondFrom_cases hr rollback snapshot st
    · rw [heq]
      show Evolves st st'
      cases handle_writes h with
      | flushed x hx hpub hflushed hpend =>
        rw [hpend] at hexec
        obtain rfl : st = st' := Option.some.inj hexec
        exact .refl
      | dirty x hx hpub hstore hpend =>
        rw [hpend, execAll_singleton] at hexec
        exact .single (hx.sound hsnapshot) hexec
      | clean hpub hstore hpend =>
        rw [hpend] at hexec
        obtain rfl : st = st' := Option.some.inj hexec
        exact .refl
    · rw [heq]
      exact .refl

structure System.Sound (s : System) : Prop where
  store : s.store.Valid
  requests : ∀ p ∈ s.requests, p.2.Valid ∧ p.2.schedule.next ≤ s.store.schedule.next
  executions : ∀ e ∈ s.executions, ∃ xs, DestroyerRun e.behave e.chaoses xs e.destroyer e.log

theorem sound_init : System.init.Sound where
  store := valid_empty
  requests := by simp [System.init]
  executions := by simp [System.init]

theorem System.step_cases (h : s.step accepts x = some t) :
    (∃ r, x = .begin r ∧ t = { s with requests := s.requests ++ [(r, s.store)] }) ∨
    (∃ k rollback r snapshot, x = .commit k rollback ∧ s.requests[k]? = some (r, snapshot) ∧
      t.store = (r.respondFrom rollback snapshot s.store).1 ∧
      t.requests = s.requests.eraseIdx k ∧ t.executions = s.executions) ∨
    (∃ y, x = .handler y ∧ ∃ handlers, t = { s with handlers }) ∨
    (∃ scheduleId behave chaoses, x = .query scheduleId behave chaoses ∧
      chaoses.Perm (s.store.findByScheduleId scheduleId) ∧
      t = { s with executions := s.executions ++ [.start scheduleId behave chaoses] }) ∨
    (∃ k y e d es st, x = .signal k y ∧ s.executions[k]? = some e ∧
      Destroyer.step e.behave e.destroyer y = some (d, es) ∧ persistAll es s.store = some st ∧
      t = { s with
        store := st
        executions := s.executions.set k { e with destroyer := d, log := e.log ++ es } }) ∨
    (∃ event st, x = .reap event ∧ (Statement.deleteEvent event).exec s.store = some st ∧
      t = { s with store := st }) ∨
    (x = .restart ∧ t = { s with requests := [], handlers := .init .init }) := by
  cases x with
  | begin r =>
    obtain rfl := Option.some.inj h
    exact .inl ⟨r, rfl, rfl⟩
  | commit k rollback =>
    obtain ⟨⟨r, snapshot⟩, hk, rfl⟩ := Option.map_eq_some_iff.mp h
    exact .inr (.inl ⟨k, rollback, r, snapshot, rfl, hk, rfl, rfl, rfl⟩)
  | handler y =>
    obtain ⟨handlers, -, rfl⟩ := Option.map_eq_some_iff.mp h
    exact .inr (.inr (.inl ⟨y, rfl, handlers, rfl⟩))
  | query scheduleId behave chaoses =>
    obtain ⟨hperm, h⟩ := Option.ite_none_right_eq_some.mp h
    obtain rfl := Option.some.inj h
    exact .inr (.inr (.inr (.inl ⟨scheduleId, behave, chaoses, rfl, hperm, rfl⟩)))
  | signal k y =>
    obtain ⟨e, he, h⟩ := Option.bind_eq_some_iff.mp h
    obtain ⟨⟨d, es⟩, hd, h⟩ := Option.bind_eq_some_iff.mp h
    obtain ⟨st, hst, rfl⟩ := Option.map_eq_some_iff.mp h
    exact .inr (.inr (.inr (.inr (.inl ⟨k, y, e, d, es, st, rfl, he, hd, hst, rfl⟩))))
  | reap event =>
    simp only [System.step, Option.map_eq_some_iff] at h
    obtain ⟨st, hst, rfl⟩ := h
    exact .inr (.inr (.inr (.inr (.inr (.inl ⟨event, st, rfl, hst, rfl⟩)))))
  | restart =>
    obtain rfl := Option.some.inj h
    exact .inr (.inr (.inr (.inr (.inr (.inr ⟨rfl, rfl⟩)))))

theorem DestroyerRun.snoc {behave : Chaos → Behaviour} {chaoses : List Chaos}
    {ys : List (Signal ChaosSignal)} {y : Signal ChaosSignal} {d d' : Destroyer}
    {log es : List (ℕ × Effect)} (h : DestroyerRun behave chaoses ys d log)
    (hd : Destroyer.step behave d y = some (d', es)) :
    DestroyerRun behave chaoses (ys ++ [y]) d' (log ++ es) :=
  run_logged_snoc.mpr ⟨d, log, es, h, hd, rfl⟩

/-- **The store only evolves**, whoever moves. -/
theorem step_evolves (hs : s.Sound) (h : s.step accepts x = some t) : Evolves s.store t.store := by
  obtain ⟨r, -, rfl⟩ | ⟨k, rollback, r, snapshot, -, hk, hstore, -, -⟩ | ⟨y, -, handlers, rfl⟩ |
    ⟨id, behave, chaoses, -, -, rfl⟩ | ⟨k, y, e, d, es, st, -, hk, hd, hst, rfl⟩ |
    ⟨event, st, -, hst, rfl⟩ | ⟨-, rfl⟩ := System.step_cases h
  · exact .refl
  · rw [hstore]
    exact respondFrom_evolves (hs.requests _ (List.mem_of_getElem? hk)).1 hs.store r rollback
  · exact .refl
  · exact .refl
  · obtain ⟨ys, hrun⟩ := hs.executions e (List.mem_of_getElem? hk)
    refine persistAll_evolves (fun j event he => ?_) hst
    exact (hrun.snoc hd).sound_of_save (List.mem_append_right _ he)
  · exact .single (s := .deleteEvent event) trivial hst
  · exact .refl

theorem Evolves.next_le {st st' : Store} (h : Evolves st st') :
    st.schedule.next ≤ st'.schedule.next := by
  refine h.keeps (P := fun u => st.schedule.next ≤ u.schedule.next) ?_ le_rfl
  intro a u v _ hexec hu
  cases exec_eq_some.mp hexec with
  | insertSchedule row _ _ => exact hu.trans (Int.le_add_one le_rfl)
  | updateSchedule id row _ _ => rwa [Table.next_set]
  | _ => exact hu

theorem sound_step (hs : s.Sound) (h : s.step accepts x = some t) : t.Sound := by
  have hevolves := step_evolves hs h
  have hnext := hevolves.next_le
  refine ⟨hevolves.valid hs.store, ?_, ?_⟩
  · obtain ⟨r, -, rfl⟩ | ⟨k, rollback, r, snapshot, -, -, -, hrequests, -⟩ | ⟨y, -, handlers, rfl⟩ |
      ⟨id, behave, chaoses, -, -, rfl⟩ | ⟨k, y, e, d, es, st, -, -, -, -, rfl⟩ |
      ⟨event, st, -, -, rfl⟩ | ⟨-, rfl⟩ := System.step_cases h
    · intro p hp
      rcases List.mem_append.mp hp with hp | hp
      · exact hs.requests p hp
      · rw [List.mem_singleton.mp hp]
        exact ⟨hs.store, le_rfl⟩
    · rw [hrequests]
      intro p hp
      obtain ⟨hvalid, hle⟩ := hs.requests p (List.mem_of_mem_eraseIdx hp)
      exact ⟨hvalid, hle.trans hnext⟩
    · exact hs.requests
    · exact hs.requests
    · exact fun p hp => ⟨(hs.requests p hp).1, (hs.requests p hp).2.trans hnext⟩
    · exact fun p hp => ⟨(hs.requests p hp).1, (hs.requests p hp).2.trans hnext⟩
    · simp
  · obtain ⟨r, -, rfl⟩ | ⟨k, rollback, r, snapshot, -, -, -, -, hexecutions⟩ |
      ⟨y, -, handlers, rfl⟩ | ⟨id, behave, chaoses, -, -, rfl⟩ |
      ⟨k, y, e, d, es, st, -, hk, hd, -, rfl⟩ | ⟨event, st, -, -, rfl⟩ | ⟨-, rfl⟩ :=
      System.step_cases h
    · exact hs.executions
    · rw [hexecutions]
      exact hs.executions
    · exact hs.executions
    · intro e he
      rcases List.mem_append.mp he with he | he
      · exact hs.executions e he
      · rw [List.mem_singleton.mp he]
        exact ⟨[], rfl⟩
    · intro e' he'
      rcases List.mem_or_eq_of_mem_set he' with he' | rfl
      · exact hs.executions e' he'
      · obtain ⟨ys, hrun⟩ := hs.executions e (List.mem_of_getElem? hk)
        exact ⟨ys ++ [y], hrun.snoc hd⟩
    · exact hs.executions
    · exact hs.executions

theorem sound_run {xs : List System.Label} (hrun : run (System.step accepts) s xs = some t)
    (hs : s.Sound) : t.Sound :=
  run_inv (fun _ _ _ h hu => sound_step hu h) hrun hs

theorem system_sound {xs : List System.Label}
    (hrun : run (System.step accepts) .init xs = some s) : s.Sound :=
  sound_run hrun sound_init

theorem system_evolves {xs : List System.Label}
    (hrun : run (System.step accepts) .init xs = some s) : Evolves .empty s.store := by
  refine (run_inv (P := fun u => u.Sound ∧ Evolves .empty u.store) ?_ hrun
    ⟨sound_init, .refl⟩).2
  rintro u x v h ⟨hu, hevolves⟩
  exact ⟨sound_step hu h, hevolves.trans (step_evolves hu h)⟩

end Sound

/-- A request with nothing between its beginning and its commit. -/
def commitAtOnce (r : Request) : List System.Label := [.begin r, .commit 0 false]

/-- An application, a schedule and a chaos that links them are created. -/
def chaosLabels : List System.Label :=
  commitAtOnce (.createApplication (some 1)) ++
    commitAtOnce (.createSchedule ⟨some "0 0 * * * *", some "hourly"⟩) ++
    commitAtOnce (.createChaos ⟨some "/applications/1", some 1, some "/schedules/1"⟩)

/-- The chaos of `chaosLabels`. -/
def certainChaos : Chaos := ⟨⟨1, 1⟩, 1, 1, ⟨"0 0 * * * *", 1, "hourly"⟩⟩

end ChaosLoris
