import ChaosLoris.Service
import ChaosLoris.Threads
import ChaosLoris.Lib.Writers

/-!
# Requests while handlers are in flight

A request commits at once and its handler begins, but the steps of the handler come at any later
time, between other commits and the steps of other handlers. `start()` reads the table when it
begins.

Seen from the map, a handler is a writer: it gives the entry of an id the versions of
`Handler.writes`, in order. So each entry is decided by the handler that wrote it last
(`tasks_of_last_handler`), and the tasks follow the table when the entries are written in the order
of the commits. Nothing in the program enforces that order (`tasks_may_diverge`).
-/

namespace ChaosLoris

open Runs Writers

structure Concurrent where
  store : Store
  handlers : Threads

inductive Concurrent.Label
  | request (r : Request) (rollback : Bool)
  /-- `start()`, on what `findAll()` returns. -/
  | startup (schedules : List Schedule)
  | advance (k : ℕ)

/-- What is recorded of a run: handlers that begin, and entries of the map that they write. -/
inductive Mark
  | began (h : Handler)
  | wrote (k : ℕ) (id : Id)
  deriving DecidableEq, Repr

/-- The entry of the map that the next step of a thread writes. -/
def Thread.target : Thread → Option Id
  | ⟨some (.put id _), _⟩ => some id
  | ⟨none, .stop id :: _⟩ => some id
  | _ => none

def Threads.begin (s : Threads) (h : Handler) : Threads :=
  { s with threads := s.threads ++ [.of h] }

/-- A request commits or is refused, a start begins, or a handler takes one step. -/
def Concurrent.step (accepts : String → Bool) (s : Concurrent) :
    Concurrent.Label → Option (Concurrent × List Mark)
  | .request r rollback =>
    let p := r.respond rollback s.store
    let handlers := p.2.2.map ScheduleEvent.handler
    some (⟨p.1, handlers.foldl Threads.begin s.handlers⟩, handlers.map .began)
  | .startup schedules =>
    if schedules.Perm s.store.schedules then
      some ({ s with handlers := s.handlers.begin (.start schedules) }, [.began (.start schedules)])
    else none
  | .advance k =>
    (s.handlers.step accepts (.advance k)).map fun handlers =>
      ({ s with handlers },
        ((s.handlers.threads[k]?.bind Thread.target).map (Mark.wrote k)).toList)

def begun (log : List Mark) : List Handler :=
  log.filterMap fun
    | .began h => some h
    | .wrote _ _ => none

def wrote (log : List Mark) : List (ℕ × Id) :=
  log.filterMap fun
    | .began _ => none
    | .wrote k id => some (k, id)

/-! ## Handlers as writers -/

/-- What an instruction gives the entry of an id; `none` removes the entry. -/
def Instruction.writes : Instruction → List (Id × Option String)
  | .start schedule => [(schedule.id, some schedule.expression)]
  | .stop id => [(id, none)]
  | .setRunning _ => []

def Handler.writes (h : Handler) : List (Id × Option String) :=
  h.instructions.flatMap Instruction.writes

/-- The writes a thread has left. -/
def Thread.writes (s : DestructionScheduler) (t : Thread) : List (Id × Option String) :=
  (match t.pending with
    | some (.put id future) => [(id, s.futures[future]?.map Task.expression)]
    | _ => []) ++ t.todo.flatMap Instruction.writes

/-- No start of the thread will throw. -/
def Thread.Accepted (accepts : String → Bool) (t : Thread) : Prop :=
  ∀ a, Instruction.start a ∈ t.todo → accepts a.expression = true

section Thread

variable {accepts : String → Bool} {s s' : DestructionScheduler} {t t' : Thread}

theorem tasks_putSchedule (s : DestructionScheduler) (id : Id) (f : Handle) :
    (s.putSchedule id f).2.tasks =
      Function.update s.tasks id (s.futures[f]?.map Task.expression) := by
  funext j
  rw [Function.update_apply]
  show ((s.scheduled.insert id f).lookup j).bind _ = _
  split_ifs with hj
  · rw [hj, AList.lookup_insert]
    rfl
  · rw [AList.lookup_insert_ne hj]
    rfl

theorem tasks_removeSchedule (s : DestructionScheduler) (id : Id) :
    (s.removeSchedule id).2.tasks = Function.update s.tasks id none := by
  funext j
  rw [Function.update_apply]
  show ((s.scheduled.erase id).lookup j).bind _ = _
  split_ifs with hj
  · rw [hj, AList.lookup_erase]
    rfl
  · rw [AList.lookup_erase_ne hj]
    rfl

theorem tasks_of_prefix (hs : s.Filed) (hmap : s'.scheduled = s.scheduled)
    (hfut : s.futures <+: s'.futures) : s'.tasks = s.tasks := by
  funext id
  unfold DestructionScheduler.tasks
  rw [hmap]
  cases hid : s.scheduled.lookup id with
  | none => rfl
  | some f =>
    obtain ⟨e, he⟩ := hs id f hid
    obtain ⟨l, hl⟩ := hfut
    show s'.futures[f]?.map _ = s.futures[f]?.map _
    rw [← hl, List.getElem?_append_left (List.getElem?_eq_some_iff.mp he).1]

theorem writes_of_prefix (ht : t.Filed s) (hfut : s.futures <+: s'.futures) :
    t.writes s' = t.writes s := by
  obtain ⟨pending, todo⟩ := t
  cases pending with
  | none => rfl
  | some p =>
    cases p with
    | cancel f => rfl
    | put id f =>
      obtain ⟨e, he⟩ := ht id f rfl
      obtain ⟨l, hl⟩ := hfut
      unfold Thread.writes
      dsimp only
      rw [← hl, List.getElem?_append_left (List.getElem?_eq_some_iff.mp he).1]

/-- A step does the next write of its thread, or none. -/
theorem step_writes (h : t.step accepts s = some (s', t')) (hs : s.Filed)
    (hacc : t.Accepted accepts) :
    (t.target = none ∧ t'.writes s' = t.writes s ∧ s'.tasks = s.tasks) ∨
      ∃ id v, t.target = some id ∧ t.writes s = (id, v) :: t'.writes s' ∧
        s'.tasks = Function.update s.tasks id v := by
  obtain ⟨id, f, todo, rfl, rfl, rfl⟩ | ⟨f, todo, rfl, rfl, rfl⟩ | ⟨a, todo, f, rfl, hf, rfl⟩ |
    ⟨a, todo, rfl, hrej, -, -⟩ | ⟨id, todo, rfl, rfl, rfl⟩ | ⟨running, todo, rfl, rfl, rfl⟩ :=
    Thread.step_cases h
  · refine Or.inr ⟨id, _, rfl, ?_, tasks_putSchedule s id f⟩
    cases (s.putSchedule id f).1 <;> rfl
  · exact Or.inl ⟨rfl, rfl, rfl⟩
  · have hfut := step_futures h
    obtain ⟨-, rfl, rfl⟩ := DestructionScheduler.schedule_eq_some.mp hf
    refine Or.inl ⟨rfl, ?_, tasks_of_prefix hs rfl hfut⟩
    simp [Thread.writes, Instruction.writes]
  · have := hacc a List.mem_cons_self
    simp [hrej] at this
  · refine Or.inr ⟨id, none, rfl, ?_, tasks_removeSchedule s id⟩
    cases (s.removeSchedule id).1 <;> rfl
  · exact Or.inl ⟨rfl, rfl, rfl⟩

theorem step_todo (h : t.step accepts s = some (s', t')) : t'.todo ⊆ t.todo := by
  obtain ⟨id, f, todo, rfl, rfl, rfl⟩ | ⟨f, todo, rfl, rfl, rfl⟩ | ⟨a, todo, f, rfl, hf, rfl⟩ |
    ⟨a, todo, rfl, -, -, rfl⟩ | ⟨id, todo, rfl, rfl, rfl⟩ | ⟨running, todo, rfl, rfl, rfl⟩ :=
    Thread.step_cases h
  · exact List.Subset.refl _
  · exact List.Subset.refl _
  · exact List.subset_cons_self _ _
  · exact List.nil_subset _
  · exact List.subset_cons_self _ _
  · exact List.subset_cons_self _ _

end Thread

/-! ## The simulation -/

section Simulation

variable {accepts : String → Bool} {s s' : Concurrent} {log : List Mark}

/-- The writers that the threads of a concurrent service are. -/
def Concurrent.writers (s : Concurrent) : Writers.State Id (Option String) :=
  ⟨s.handlers.scheduler.tasks, s.handlers.threads.map (Thread.writes s.handlers.scheduler)⟩

/-- A run of the service from the tasks `tasks` is a run of writers. -/
structure Simulates (accepts : String → Bool) (tasks : Id → Option String) (s : Concurrent)
    (log : List Mark) : Prop where
  custody : s.handlers.InCustody
  accepted : ∀ t ∈ s.handlers.threads, t.Accepted accepts
  writers : ∃ ys, run (logged Writers.step) (⟨tasks, []⟩, []) ys = some (s.writers, wrote log) ∧
    programs ys = (begun log).map Handler.writes
  serial : serial tasks ((begun log).map Handler.writes) = s.store.version

theorem begun_append (l m : List Mark) : begun (l ++ m) = begun l ++ begun m :=
  List.filterMap_append

theorem wrote_append (l m : List Mark) : wrote (l ++ m) = wrote l ++ wrote m :=
  List.filterMap_append

/-- A handler begins whose writes bring the versions to those of the store `st`. -/
theorem Simulates.begin {tasks : Id → Option String} (hs : Simulates accepts tasks s log)
    {h : Handler} {st : Store} (hacc : (Thread.of h).Accepted accepts)
    (hst : ∀ id, (final h.writes id).getD (s.store.version id) = st.version id) :
    Simulates accepts tasks ⟨st, s.handlers.begin h⟩ (log ++ [.began h]) where
  custody := inCustody_step
    (show s.handlers.step accepts (.spawn h) = some (s.handlers.begin h) from rfl) hs.custody
  accepted := by
    intro t ht
    rcases List.mem_append.mp ht with ht | ht
    · exact hs.accepted t ht
    · exact List.mem_singleton.mp ht ▸ hacc
  writers := by
    obtain ⟨ys, hrun, hys⟩ := hs.writers
    refine ⟨ys ++ [.join h.writes], run_logged_snoc.mpr ⟨_, _, [], hrun, ?_, ?_⟩, ?_⟩
    · show Writers.step s.writers (.join h.writes) = _
      simp [Writers.step, Concurrent.writers, Threads.begin, Thread.writes, Thread.of,
        Handler.writes]
    · rw [wrote_append]
      rfl
    · rw [programs_append, hys, begun_append, List.map_append]
      rfl
  serial := by
    funext id
    rw [begun_append, List.map_append]
    show Writers.serial tasks (_ ++ [h.writes]) id = _
    rw [serial_snoc, hs.serial]
    exact hst id

/-- What the handler of an event writes is what the event says. -/
theorem final_handler (e : ScheduleEvent) (version : Id → Option String) (id : Id) :
    (final e.handler.writes id).getD (version id) =
      Function.update version e.id e.version id := by
  rw [Function.update_apply]
  cases e with
  | created a =>
    by_cases h : a.id = id
    · simp [ScheduleEvent.handler, Handler.writes, Handler.instructions, Instruction.writes, final,
        ScheduleEvent.id, ScheduleEvent.version, h]
    · simp [ScheduleEvent.handler, Handler.writes, Handler.instructions, Instruction.writes, final,
        ScheduleEvent.id, h, Ne.symm h]
  | updated a =>
    by_cases h : a.id = id
    · simp [ScheduleEvent.handler, Handler.writes, Handler.instructions, Instruction.writes, final,
        ScheduleEvent.id, ScheduleEvent.version, h]
    · simp [ScheduleEvent.handler, Handler.writes, Handler.instructions, Instruction.writes, final,
        ScheduleEvent.id, h, Ne.symm h]
  | deleted j =>
    by_cases h : j = id
    · simp [ScheduleEvent.handler, Handler.writes, Handler.instructions, Instruction.writes, final,
        ScheduleEvent.id, ScheduleEvent.version, h]
    · simp [ScheduleEvent.handler, Handler.writes, Handler.instructions, Instruction.writes, final,
        ScheduleEvent.id, h, Ne.symm h]

theorem final_start {schedules : List Schedule} {version : Id → Option String}
    (h : ∀ a ∈ schedules, version a.id = some a.expression) (id : Id) :
    (final (Handler.start schedules).writes id).getD (version id) = version id := by
  induction schedules with
  | nil => rfl
  | cons a as ih =>
    show (final ((a.id, some a.expression) :: (Handler.start as).writes) id).getD _ = _
    rw [final_cons]
    cases hf : final (Handler.start as).writes id with
    | some v =>
      have := ih fun b hb => h b (List.mem_cons_of_mem _ hb)
      rw [hf] at this
      exact this
    | none =>
      split_ifs with ha
      · subst ha
        exact (h a List.mem_cons_self).symm
      · rfl

theorem accepted_handler {e : ScheduleEvent} (h : ∀ x ∈ e.version, accepts x = true) :
    (Thread.of e.handler).Accepted accepts := by
  intro a ha
  cases e with
  | created b =>
    obtain rfl : a = b := by simpa [Thread.of, ScheduleEvent.handler, Handler.instructions] using ha
    exact h _ rfl
  | updated b =>
    obtain rfl : a = b := by simpa [Thread.of, ScheduleEvent.handler, Handler.instructions] using ha
    exact h _ rfl
  | deleted id => simp [Thread.of, ScheduleEvent.handler, Handler.instructions] at ha

theorem Simulates.advance {tasks : Id → Option String} (hs : Simulates accepts tasks s log)
    {k : ℕ} {t t' : Thread} {handlers : Threads} (hk : s.handlers.threads[k]? = some t)
    (ht : t.step accepts s.handlers.scheduler = some (handlers.scheduler, t'))
    (hset : handlers.threads = s.handlers.threads.set k t') :
    Simulates accepts tasks { s with handlers }
      (log ++ (t.target.map (Mark.wrote k)).toList) := by
  have hmem : t ∈ s.handlers.threads := List.mem_of_getElem? hk
  have hlt : k < s.handlers.threads.length := (List.getElem?_eq_some_iff.mp hk).1
  have hbegun : begun (log ++ (t.target.map (Mark.wrote k)).toList) = begun log := by
    rw [begun_append]
    cases t.target <;> simp [begun]
  -- the other threads have the same writes left
  have hwriters : (⟨handlers.scheduler.tasks,
      handlers.threads.map (Thread.writes handlers.scheduler)⟩ : Writers.State Id _) =
        ⟨handlers.scheduler.tasks, (s.handlers.threads.map
          (Thread.writes s.handlers.scheduler)).set k (t'.writes handlers.scheduler)⟩ := by
    congr 1
    rw [hset, List.map_set]
    congr 1
    exact List.map_congr_left fun u hu =>
      writes_of_prefix (hs.custody.threads_filed u hu) (step_futures ht)
  constructor
  · have hstep : s.handlers.step accepts (.advance k) = some handlers := by
      simp only [Threads.step, hk, Option.bind_some, ht, Option.map_some, Option.some.injEq]
      exact congrArg (Threads.mk handlers.scheduler) hset.symm
    exact inCustody_step hstep hs.custody
  · intro u hu
    change u ∈ handlers.threads at hu
    rw [hset] at hu
    rcases List.mem_or_eq_of_mem_set hu with hu | rfl
    · exact hs.accepted u hu
    · exact fun a ha => hs.accepted t hmem a (step_todo ht ha)
  · obtain ⟨ys, hrun, hys⟩ := hs.writers
    rw [hbegun]
    rcases step_writes ht hs.custody.filed (hs.accepted t hmem) with
      ⟨htarget, hsame, htasks⟩ | ⟨id, v, htarget, hcons, htasks⟩
    · refine ⟨ys, ?_, hys⟩
      rw [hrun, htarget]
      simp only [Option.map_none, Option.toList_none, List.append_nil, Option.some.injEq,
        Prod.mk.injEq, and_true]
      unfold Concurrent.writers
      have hself : s.handlers.threads.set k t = s.handlers.threads := by
        rw [← (List.getElem?_eq_some_iff.mp hk).2, List.set_getElem_self]
      rw [hwriters, hsame, htasks, ← List.map_set, hself]
    · refine ⟨ys ++ [.write k], run_logged_snoc.mpr ⟨_, _, [(k, id)], hrun, ?_, ?_⟩, ?_⟩
      · unfold Concurrent.writers
        rw [hwriters, htasks]
        simp [Writers.step, hk, hcons]
      · rw [wrote_append, htarget]
        rfl
      · rw [programs_append, hys]
        simp [programs]
  · rw [hbegun]
    exact hs.serial

theorem simulates_step {tasks : Id → Option String} {x : Concurrent.Label} {es : List Mark}
    (h : s.step accepts x = some (s', es)) (hacc : s'.store.Accepted accepts)
    (hs : Simulates accepts tasks s log) : Simulates accepts tasks s' (log ++ es) := by
  cases x with
  | request r rollback =>
    obtain ⟨st, status, events, hr⟩ : ∃ st status events, r.respond rollback s.store =
        (st, status, events) := ⟨_, _, _, rfl⟩
    simp only [Concurrent.step, hr, Option.some.injEq, Prod.mk.injEq] at h
    obtain ⟨rfl, rfl⟩ := h
    rcases respond_version hr with ⟨rfl, hst⟩ | ⟨e, rfl, hst⟩
    · have hversion : st.version = s.store.version := by
        unfold Store.version
        rw [hst]
      rw [List.map_nil, List.map_nil, List.append_nil]
      exact ⟨hs.custody, hs.accepted, hs.writers, hs.serial.trans hversion.symm⟩
    · refine hs.begin (accepted_handler fun x hx => hacc e.id x ?_) fun id => ?_
      · rw [hst, Function.update_self]
        exact hx
      · rw [hst]
        exact final_handler e _ id
  | startup schedules =>
    simp only [Concurrent.step, Option.ite_none_right_eq_some, Option.some.injEq,
      Prod.mk.injEq] at h
    obtain ⟨hperm, rfl, rfl⟩ := h
    refine hs.begin (fun a ha => accepted_iff.mp hacc a (hperm.mem_iff.mp ?_)) fun id =>
      final_start (fun a ha => version_of_mem (hperm.mem_iff.mp ha)) id
    simpa [Thread.of, Handler.instructions] using ha
  | advance k =>
    obtain ⟨handlers, hstep, h⟩ := Option.map_eq_some_iff.mp h
    obtain ⟨rfl, rfl⟩ := Prod.mk.inj h
    obtain ⟨h', hx, -⟩ | ⟨k', t, t', hx, hk, ht, hset⟩ := Threads.step_cases hstep
    · cases hx
    · obtain rfl : k = k' := by simpa using hx
      rw [hk]
      exact hs.advance hk ht hset

/-- Every store that a step leads to is accepted. -/
def Concurrent.StaysAccepted (accepts : String → Bool) (p : Concurrent × List Mark)
    (x : Concurrent.Label) : Prop :=
  ∀ q, logged (Concurrent.step accepts) p x = some q → q.1.store.Accepted accepts

instance (p : Concurrent × List Mark) (x : Concurrent.Label) :
    Decidable (Concurrent.StaysAccepted accepts p x) :=
  match h : logged (Concurrent.step accepts) p x with
  | none => isTrue fun q hq => by simp [h] at hq
  | some q =>
    decidable_of_iff (q.1.store.Accepted accepts)
      ⟨fun hq r hr => Option.some.inj (h.symm.trans hr) ▸ hq, fun hq => hq q h⟩

theorem simulates_run {sched : DestructionScheduler} {st : Store} {xs : List Concurrent.Label}
    (hsched : sched.WellKept) (hagree : sched.tasks = st.version)
    (hrun : run (logged (Concurrent.step accepts)) (⟨st, .init sched⟩, []) xs = some (s, log))
    (hacc : Along (logged (Concurrent.step accepts)) (Concurrent.StaysAccepted accepts)
      (⟨st, .init sched⟩, []) xs) : Simulates accepts st.version s log := by
  refine run_inv_along (P := fun p => Simulates accepts st.version p.1 p.2) ?_ hacc hrun
    ⟨inCustody_init hsched, by simp [Threads.init], ⟨[], ?_, rfl⟩, rfl⟩
  · rintro p x q hC hstep hp
    obtain ⟨es, h, hq⟩ := logged_eq_some.mp hstep
    rw [hq]
    exact simulates_step h (hC q hstep) hp
  · rw [← hagree]
    rfl

end Simulation

/-! ## Agreement -/

/-- The live tasks are those of the stored schedules, with the stored expressions. -/
def Concurrent.Converged (s : Concurrent) : Prop :=
  ∀ id e, (∃ f, s.handlers.scheduler.Live f ∧
    s.handlers.scheduler.futures[f]? = some ⟨id, e⟩) ↔ s.store.version id = some e

/-- The version carried by the handler that wrote the entry of an id last: the one its request
committed, or the one that `start()` read. An entry that no handler wrote has its first version. -/
def lastCarried (st : Store) (log : List Mark) (id : Id) : Option String :=
  match lastWriter (wrote log) id with
  | none => st.version id
  | some k => ((begun log)[k]?.bind fun h => final h.writes id).getD (st.version id)

section Agreement

variable {accepts : String → Bool} {sched : DestructionScheduler} {st : Store}
  {xs : List Concurrent.Label} {s : Concurrent} {log : List Mark}

/-- **The last handler decides.** Begin in agreement with the table, let requests commit, starts
begin and handlers take their steps in any order, and let all handlers finish. Then the live task
of an id is what the handler carries that wrote its entry last. So the tasks agree with the table
exactly if that is the committed version for each id, and they do if the entries were written in
the order of the commits. -/
theorem tasks_of_last_handler (hsched : sched.WellKept) (hagree : sched.tasks = st.version)
    (hrun : run (logged (Concurrent.step accepts)) (⟨st, .init sched⟩, []) xs = some (s, log))
    (hacc : Along (logged (Concurrent.step accepts)) (Concurrent.StaysAccepted accepts)
      (⟨st, .init sched⟩, []) xs)
    (hq : s.handlers.Quiescent) :
    (∀ id e, (∃ f, s.handlers.scheduler.Live f ∧
      s.handlers.scheduler.futures[f]? = some ⟨id, e⟩) ↔ lastCarried st log id = some e) ∧
    (s.Converged ↔ ∀ id, lastCarried st log id = s.store.version id) ∧
    (InOrder (wrote log) → s.Converged) := by
  have hs := simulates_run hsched hagree hrun hacc
  obtain ⟨ys, hwriters, hprograms⟩ := hs.writers
  have haccount := account hwriters
  rw [hprograms] at haccount
  have hfin : ∀ rest ∈ s.writers.writers, rest = [] := by
    intro rest hrest
    obtain ⟨t, ht, rfl⟩ := List.mem_map.mp hrest
    rw [hq t ht]
    rfl
  have hkept := hs.custody.wellKept hq
  have hlast : ∀ id, s.handlers.scheduler.tasks id = lastCarried st log id := by
    intro id
    refine (haccount.cells_of_finished hfin id).trans ?_
    unfold lastCarried
    cases lastWriter (wrote log) id with
    | none => rfl
    | some k =>
      dsimp only
      rw [List.getElem?_map, Option.bind_map]
      rfl
  have hconv : s.Converged ↔ s.handlers.scheduler.tasks = s.store.version := by
    unfold Concurrent.Converged
    simp only [← hkept.tasks_eq_some]
    constructor
    · intro h
      exact funext fun id => Option.ext fun e => h id e
    · intro h id e
      rw [h]
  refine ⟨fun id e => ?_, ?_, fun horder => ?_⟩
  · rw [← hkept.tasks_eq_some, hlast]
  · rw [hconv]
    simp only [funext_iff, hlast]
  · rw [hconv]
    exact (haccount.serial_of_inOrder hfin horder).trans hs.serial

end Agreement

/-! ## Two updates of one schedule -/

def hourlyScheduler : DestructionScheduler :=
  ⟨true, AList.singleton 1 0, [⟨1, "0 0 * * * *"⟩], []⟩

theorem hourlyScheduler_wellKept : hourlyScheduler.WellKept where
  balanced := List.Perm.refl _
  filed := by
    intro id f h
    obtain ⟨rfl, rfl⟩ : 1 = id ∧ 0 = f := by
      have hmem := AList.mem_lookup_iff.mp h
      simpa [hourlyScheduler, eq_comm] using hmem
    exact ⟨_, rfl⟩

theorem hourlyScheduler_tasks : hourlyScheduler.tasks = hourlyStore.version := by
  funext id
  by_cases h : id = 1
  · subst h
    rfl
  · have hmap : hourlyScheduler.scheduled.lookup id = none := by
      rw [AList.lookup_eq_none, AList.mem_keys]
      simpa [hourlyScheduler] using h
    have htable : hourlyStore.version id = none := by
      unfold Store.version hourlyStore
      rw [Keyed.Table.find_insert]
      exact congrArg (Option.map _) (if_neg h)
    rw [htable]
    simp [DestructionScheduler.tasks, hmap]

/-- Two `PATCH` requests that commit in this order. -/
def twoUpdates : List Concurrent.Label :=
  [.request (.updateSchedule 1 ⟨some "0 30 * * * *", none⟩) false,
    .request (.updateSchedule 1 ⟨some "0 45 * * * *", none⟩) false]

/-- All steps of the handler at position `k`, an update that finds a task in the map. -/
def updateSteps (k : ℕ) : List Concurrent.Label := List.replicate 4 (.advance k)

/-- When the handlers of two updates run in the order of their commits, the tasks agree. -/
theorem tasks_of_last_handler_inOrder :
    ∃ s log, run (logged (Concurrent.step sixFields)) (⟨hourlyStore, .init hourlyScheduler⟩, [])
        (twoUpdates ++ updateSteps 0 ++ updateSteps 1) = some (s, log) ∧ s.Converged := by
  have hrun : run (logged (Concurrent.step sixFields)) (⟨hourlyStore, .init hourlyScheduler⟩, [])
      (twoUpdates ++ updateSteps 0 ++ updateSteps 1) = some _ := rfl
  obtain ⟨-, -, h⟩ := tasks_of_last_handler hourlyScheduler_wellKept hourlyScheduler_tasks hrun
    (by decide) (by decide)
  exact ⟨_, _, hrun, h (by decide)⟩

/-- When they run in the other order, the task of the older update stays. -/
theorem tasks_may_diverge :
    ¬ ∀ (accepts : String → Bool) (sched : DestructionScheduler) (st : Store)
        (xs : List Concurrent.Label) (s : Concurrent) (log : List Mark),
      sched.WellKept → sched.tasks = st.version → sched.running = true →
      run (logged (Concurrent.step accepts)) (⟨st, .init sched⟩, []) xs = some (s, log) →
      Along (logged (Concurrent.step accepts)) (Concurrent.StaysAccepted accepts)
        (⟨st, .init sched⟩, []) xs →
      s.handlers.Quiescent → s.Converged := by
  intro h
  have hrun : run (logged (Concurrent.step sixFields)) (⟨hourlyStore, .init hourlyScheduler⟩, [])
      (twoUpdates ++ updateSteps 1 ++ updateSteps 0) = some _ := rfl
  have hconv := h _ _ _ _ _ _ hourlyScheduler_wellKept hourlyScheduler_tasks rfl hrun (by decide)
    (by decide)
  have hlive := (hconv 1 "0 30 * * * *").mp ⟨2, by decide, rfl⟩
  exact absurd hlive (by decide)

end ChaosLoris
