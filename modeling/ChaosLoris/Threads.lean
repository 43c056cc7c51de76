import ChaosLoris.Tasks
import ChaosLoris.Lib.Runs

/-!
# Handlers that run at the same time

A handler is a thread of atomic steps: schedule, put and cancel for a start, remove and cancel for
a stop. A thread carries the future it has scheduled, displaced or removed until it has put or
cancelled it; an exception of `schedule` ends the thread.

1. A thread that runs alone does what its handler does (`solo_handler`).
2. Every step of a thread is a move of the ledger of futures (`step_move`), whatever the other
   threads do in between.
3. `futures_in_custody`: a live future is in the map under its id or held by exactly one thread,
   and nothing is cancelled twice, or while it is in the map.
-/

namespace ChaosLoris

open Runs Custody

/-- A call of the scheduler that changes it. -/
inductive Handler
  | start (schedules : List Schedule)
  | stop (ids : List Id)
  | scheduleCreated (schedule : Schedule)
  | scheduleDeleted (id : Id)
  | scheduleUpdated (schedule : Schedule)
  deriving DecidableEq, Repr

/-- The handler of a published event. -/
def ScheduleEvent.handler : ScheduleEvent → Handler
  | .created schedule => .scheduleCreated schedule
  | .updated schedule => .scheduleUpdated schedule
  | .deleted id => .scheduleDeleted id

/-- What a thread does between two futures. -/
inductive Instruction
  | start (schedule : Schedule)
  | stop (id : Id)
  | setRunning (running : Bool)
  deriving DecidableEq, Repr

def Handler.instructions : Handler → List Instruction
  | .start schedules => schedules.map .start ++ [.setRunning true]
  | .stop ids => ids.map .stop ++ [.setRunning false]
  | .scheduleCreated schedule => [.start schedule]
  | .scheduleDeleted id => [.stop id]
  | .scheduleUpdated schedule => [.stop schedule.id, .start schedule]

/-- What a thread has to do with the future it holds. -/
inductive Pending
  | put (id : Id) (future : Handle)
  | cancel (future : Handle)
  deriving DecidableEq, Repr

structure Thread where
  pending : Option Pending
  todo : List Instruction
  deriving DecidableEq, Repr

namespace Thread

/-- The thread of a handler that has not begun. -/
def of (h : Handler) : Thread := ⟨none, h.instructions⟩

def finished : Thread := ⟨none, []⟩

/-- One atomic step of a thread. -/
def step (accepts : String → Bool) (s : DestructionScheduler) :
    Thread → Option (DestructionScheduler × Thread)
  | ⟨some (.put id future), todo⟩ =>
    let p := s.putSchedule id future
    some (p.2, ⟨p.1.map .cancel, todo⟩)
  | ⟨some (.cancel future), todo⟩ => some (s.cancel future, ⟨none, todo⟩)
  | ⟨none, .start schedule :: todo⟩ =>
    match s.schedule accepts schedule.id schedule.expression with
    | some (future, s) => some (s, ⟨some (.put schedule.id future), todo⟩)
    | none => some (s, finished)
  | ⟨none, .stop id :: todo⟩ =>
    let p := s.removeSchedule id
    some (p.2, ⟨p.1.map .cancel, todo⟩)
  | ⟨none, .setRunning running :: todo⟩ => some ({ s with running }, ⟨none, todo⟩)
  | ⟨none, []⟩ => none

/-- The future a thread holds. -/
def held (t : Thread) : Option Handle :=
  t.pending.map fun
    | .put _ future => future
    | .cancel future => future

end Thread

/-- The scheduler and its threads. A thread stays in the list when it has finished. -/
structure Threads where
  scheduler : DestructionScheduler
  threads : List Thread

inductive Threads.Label
  | spawn (h : Handler)
  | advance (k : ℕ)
  deriving DecidableEq, Repr

/-- A handler begins, or a thread takes one step. -/
def Threads.step (accepts : String → Bool) (s : Threads) : Threads.Label → Option Threads
  | .spawn h => some { s with threads := s.threads ++ [.of h] }
  | .advance k =>
    s.threads[k]?.bind fun t => (t.step accepts s.scheduler).map fun p =>
      { scheduler := p.1, threads := s.threads.set k p.2 }

/-- The scheduler before any handler. -/
def Threads.init (s : DestructionScheduler) : Threads := ⟨s, []⟩

/-- No handler is in flight. -/
def Threads.Quiescent (s : Threads) : Prop := ∀ t ∈ s.threads, t = Thread.finished

instance (s : Threads) : Decidable s.Quiescent :=
  inferInstanceAs (Decidable (∀ t ∈ s.threads, t = Thread.finished))

variable {accepts : String → Bool} {s s' : DestructionScheduler} {t t' : Thread}

/-! ## One thread alone -/

/-- What a handler does when nothing interferes. -/
def Handler.run (accepts : String → Bool) (s : DestructionScheduler) :
    Handler → DestructionScheduler
  | .start schedules => (s.start accepts schedules).1
  | .stop ids => s.stop ids
  | .scheduleCreated schedule => (s.scheduleCreated accepts schedule).1
  | .scheduleDeleted id => (s.scheduleDeleted id).1
  | .scheduleUpdated schedule => (s.scheduleUpdated accepts schedule).1

/-- The thread `t`, alone with the scheduler `s`, leads to the scheduler `s'` and the thread `t'`. -/
def Solo (accepts : String → Bool) (s : DestructionScheduler) (t : Thread)
    (s' : DestructionScheduler) (t' : Thread) : Prop :=
  ∃ n, run (fun p (_ : Unit) => p.2.step accepts p.1) (s, t) (List.replicate n ()) = some (s', t')

theorem Solo.refl : Solo accepts s t s t := ⟨0, rfl⟩

theorem Solo.head {u : DestructionScheduler × Thread} (h : t.step accepts s = some u)
    (hs : Solo accepts u.1 u.2 s' t') : Solo accepts s t s' t' := by
  obtain ⟨n, hn⟩ := hs
  exact ⟨n + 1, run_cons.mpr ⟨u, h, hn⟩⟩

theorem Solo.trans {s'' : DestructionScheduler} {t'' : Thread} (h : Solo accepts s t s' t')
    (h' : Solo accepts s' t' s'' t'') : Solo accepts s t s'' t'' := by
  obtain ⟨n, hn⟩ := h
  obtain ⟨m, hm⟩ := h'
  refine ⟨n + m, ?_⟩
  rw [List.replicate_add]
  exact run_append.mpr ⟨_, hn, hm⟩

theorem solo_cancelPrevious (previous : Option Handle) (todo : List Instruction) :
    Solo accepts s ⟨previous.map .cancel, todo⟩ (s.cancelPrevious previous) ⟨none, todo⟩ := by
  cases previous with
  | none => exact .refl
  | some future => exact .head rfl .refl

theorem solo_stop (id : Id) (todo : List Instruction) :
    Solo accepts s ⟨none, .stop id :: todo⟩ (s.stopSchedule id) ⟨none, todo⟩ :=
  .head rfl (solo_cancelPrevious _ _)

theorem solo_start (accepts : String → Bool) (s : DestructionScheduler) (schedule : Schedule)
    (todo : List Instruction) :
    Solo accepts s ⟨none, .start schedule :: todo⟩ (s.startSchedule accepts schedule).1
      (if (s.startSchedule accepts schedule).2 then ⟨none, todo⟩ else .finished) := by
  unfold DestructionScheduler.startSchedule
  cases h : s.schedule accepts schedule.id schedule.expression with
  | none => exact .head (u := (s, .finished)) (by simp [Thread.step, h]) .refl
  | some p =>
    refine .head (u := (p.2, ⟨some (.put schedule.id p.1), todo⟩)) (by simp [Thread.step, h]) ?_
    exact .head rfl (solo_cancelPrevious _ _)

theorem solo_starts (accepts : String → Bool) (s : DestructionScheduler)
    (schedules : List Schedule) (todo : List Instruction) :
    Solo accepts s ⟨none, schedules.map .start ++ todo⟩ (s.startAll accepts schedules).1
      (if (s.startAll accepts schedules).2 then ⟨none, todo⟩ else .finished) := by
  induction schedules generalizing s with
  | nil => exact .refl
  | cons a as ih =>
    have ha := solo_start accepts s a (as.map .start ++ todo)
    unfold DestructionScheduler.startAll
    split
    next u hu =>
      rw [hu] at ha
      exact ha.trans (ih u)
    next u hu =>
      rw [hu] at ha
      exact ha

theorem solo_stops (ids : List Id) (todo : List Instruction) :
    Solo accepts s ⟨none, ids.map .stop ++ todo⟩
      (ids.foldl (fun s id => s.stopSchedule id) s) ⟨none, todo⟩ := by
  induction ids generalizing s with
  | nil => exact .refl
  | cons i is ih => exact (solo_stop i _).trans ih

/-- A thread that runs alone does what its handler does. -/
theorem solo_handler (h : Handler) : Solo accepts s (.of h) (h.run accepts s) .finished := by
  cases h with
  | start schedules =>
    have h := solo_starts accepts s schedules [.setRunning true]
    change Solo accepts s _ (s.start accepts schedules).1 .finished
    unfold DestructionScheduler.start
    revert h
    cases s.startAll accepts schedules with
    | mk u ok =>
      cases ok with
      | true =>
        intro h
        exact h.trans (.head (u := ({ u with running := true }, .finished)) rfl .refl)
      | false => exact fun h => h
  | stop ids => exact (solo_stops ids [.setRunning false]).trans (.head rfl .refl)
  | scheduleCreated schedule =>
    have h := solo_start accepts s schedule []
    rwa [show (if (s.startSchedule accepts schedule).2 then (⟨none, []⟩ : Thread) else
      .finished) = .finished from ite_self _] at h
  | scheduleDeleted id => exact solo_stop id []
  | scheduleUpdated schedule =>
    have h := solo_start accepts (s.stopSchedule schedule.id) schedule []
    rw [show (if ((s.stopSchedule schedule.id).startSchedule accepts schedule).2 then
      (⟨none, []⟩ : Thread) else .finished) = .finished from ite_self _] at h
    exact (solo_stop schedule.id [.start schedule]).trans h

/-! ## What one step can do -/

theorem Thread.step_cases (h : t.step accepts s = some (s', t')) :
    (∃ id f todo, t = ⟨some (.put id f), todo⟩ ∧ s' = (s.putSchedule id f).2 ∧
      t' = ⟨(s.putSchedule id f).1.map .cancel, todo⟩) ∨
    (∃ f todo, t = ⟨some (.cancel f), todo⟩ ∧ s' = s.cancel f ∧ t' = ⟨none, todo⟩) ∨
    (∃ a todo f, t = ⟨none, .start a :: todo⟩ ∧
      s.schedule accepts a.id a.expression = some (f, s') ∧ t' = ⟨some (.put a.id f), todo⟩) ∨
    (∃ a todo, t = ⟨none, .start a :: todo⟩ ∧ accepts a.expression = false ∧ s' = s ∧
      t' = .finished) ∨
    (∃ id todo, t = ⟨none, .stop id :: todo⟩ ∧ s' = (s.removeSchedule id).2 ∧
      t' = ⟨(s.removeSchedule id).1.map .cancel, todo⟩) ∨
    ∃ running todo, t = ⟨none, .setRunning running :: todo⟩ ∧ s' = { s with running } ∧
      t' = ⟨none, todo⟩ := by
  obtain ⟨pending, todo⟩ := t
  cases pending with
  | some p =>
    cases p with
    | put id f =>
      simp only [Thread.step, Option.some.injEq, Prod.mk.injEq] at h
      exact Or.inl ⟨id, f, todo, rfl, h.1.symm, h.2.symm⟩
    | cancel f =>
      simp only [Thread.step, Option.some.injEq, Prod.mk.injEq] at h
      exact Or.inr (Or.inl ⟨f, todo, rfl, h.1.symm, h.2.symm⟩)
  | none =>
    cases todo with
    | nil => simp [Thread.step] at h
    | cons i todo =>
      cases i with
      | start a =>
        cases hs : s.schedule accepts a.id a.expression with
        | some p =>
          simp only [Thread.step, hs, Option.some.injEq, Prod.mk.injEq] at h
          obtain ⟨rfl, rfl⟩ := h
          exact Or.inr (Or.inr (Or.inl ⟨a, todo, p.1, rfl, hs, rfl⟩))
        | none =>
          simp only [Thread.step, hs, Option.some.injEq, Prod.mk.injEq] at h
          have hacc : accepts a.expression = false := by
            simpa [DestructionScheduler.schedule] using hs
          exact Or.inr (Or.inr (Or.inr (Or.inl ⟨a, todo, rfl, hacc, h.1.symm, h.2.symm⟩)))
      | stop id =>
        simp only [Thread.step, Option.some.injEq, Prod.mk.injEq] at h
        exact Or.inr (Or.inr (Or.inr (Or.inr (Or.inl ⟨id, todo, rfl, h.1.symm, h.2.symm⟩))))
      | setRunning running =>
        simp only [Thread.step, Option.some.injEq, Prod.mk.injEq] at h
        exact Or.inr (Or.inr (Or.inr (Or.inr (Or.inr ⟨running, todo, rfl, h.1.symm, h.2.symm⟩))))

theorem Threads.step_cases {s s' : Threads} {x : Threads.Label}
    (h : s.step accepts x = some s') :
    (∃ h, x = .spawn h ∧ s' = { s with threads := s.threads ++ [.of h] }) ∨
      ∃ k t t', x = .advance k ∧ s.threads[k]? = some t ∧
        t.step accepts s.scheduler = some (s'.scheduler, t') ∧
        s'.threads = s.threads.set k t' := by
  cases x with
  | spawn h' => exact Or.inl ⟨h', rfl, (Option.some.inj h).symm⟩
  | advance k =>
    obtain ⟨t, hk, h⟩ := Option.bind_eq_some_iff.mp h
    obtain ⟨⟨u, t'⟩, ht, rfl⟩ := Option.map_eq_some_iff.mp h
    exact Or.inr ⟨k, t, t', rfl, hk, ht, rfl⟩

@[simp] theorem held_of (h : Handler) : (Thread.of h).held = none := rfl

@[simp] theorem held_finished : Thread.finished.held = none := rfl

theorem held_map_cancel (o : Option Handle) (todo : List Instruction) :
    Thread.held ⟨o.map .cancel, todo⟩ = o := by cases o <;> rfl

/-! ## Custody of futures -/

/-- A step moves the future of its thread, or one that is new, and no other. -/
theorem step_move (h : t.step accepts s = some (s', t')) (others : List Handle) :
    Move (s.ledger (t.held.toList ++ others)) (s'.ledger (t'.held.toList ++ others)) := by
  obtain ⟨id, f, todo, rfl, rfl, rfl⟩ | ⟨f, todo, rfl, rfl, rfl⟩ | ⟨a, todo, f, rfl, hs, rfl⟩ |
    ⟨a, todo, rfl, -, rfl, rfl⟩ | ⟨id, todo, rfl, rfl, rfl⟩ | ⟨running, todo, rfl, rfl, rfl⟩ :=
    Thread.step_cases h
  · rw [held_map_cancel]
    exact DestructionScheduler.putSchedule_move id
  · exact DestructionScheduler.cancel_move
  · exact DestructionScheduler.schedule_move hs
  · exact .idle rfl rfl (List.Perm.refl _) rfl
  · rw [held_map_cancel]
    exact DestructionScheduler.removeSchedule_move id
  · exact .idle rfl rfl (List.Perm.refl _) rfl

/-- A thread that has yet to put a future has scheduled it for that id. -/
def Thread.Filed (s : DestructionScheduler) (t : Thread) : Prop :=
  ∀ id f, t.pending = some (.put id f) → ∃ e, s.futures[f]? = some ⟨id, e⟩

theorem step_filed (h : t.step accepts s = some (s', t')) (hs : s.Filed) (ht : t.Filed s) :
    s'.Filed ∧ t'.Filed s' := by
  obtain ⟨id, f, todo, rfl, rfl, rfl⟩ | ⟨f, todo, rfl, rfl, rfl⟩ | ⟨a, todo, f, rfl, hf, rfl⟩ |
    ⟨a, todo, rfl, -, rfl, rfl⟩ | ⟨id, todo, rfl, rfl, rfl⟩ | ⟨running, todo, rfl, rfl, rfl⟩ :=
    Thread.step_cases h
  · obtain ⟨e, he⟩ := ht id f rfl
    refine ⟨hs.putSchedule he, fun j g hg => ?_⟩
    simp at hg
  · exact ⟨hs, fun j g hg => by simp at hg⟩
  · refine ⟨hs.schedule hf, fun j g hg => ?_⟩
    obtain ⟨-, rfl, rfl⟩ := DestructionScheduler.schedule_eq_some.mp hf
    obtain ⟨rfl, rfl⟩ : a.id = j ∧ _ = g := by simpa using hg
    exact ⟨a.expression, by simp⟩
  · exact ⟨hs, fun j g hg => by simp [Thread.finished] at hg⟩
  · refine ⟨hs.removeSchedule id, fun j g hg => ?_⟩
    simp at hg
  · exact ⟨hs, fun j g hg => by simp at hg⟩

theorem step_futures (h : t.step accepts s = some (s', t')) : s.futures <+: s'.futures := by
  obtain ⟨id, f, todo, rfl, rfl, rfl⟩ | ⟨f, todo, rfl, rfl, rfl⟩ | ⟨a, todo, f, rfl, hf, rfl⟩ |
    ⟨a, todo, rfl, -, rfl, rfl⟩ | ⟨id, todo, rfl, rfl, rfl⟩ | ⟨running, todo, rfl, rfl, rfl⟩ :=
    Thread.step_cases h
  · exact List.prefix_refl _
  · exact List.prefix_refl _
  · obtain ⟨-, -, rfl⟩ := DestructionScheduler.schedule_eq_some.mp hf
    exact List.prefix_append _ _
  · exact List.prefix_refl _
  · exact List.prefix_refl _
  · exact List.prefix_refl _

theorem Thread.Filed.mono (ht : t.Filed s) (h : s.futures <+: s'.futures) : t.Filed s' := by
  intro id f hf
  obtain ⟨e, he⟩ := ht id f hf
  obtain ⟨l, hl⟩ := h
  exact ⟨e, hl ▸ (List.getElem?_append_left (List.getElem?_eq_some_iff.mp he).1).trans he⟩

/-- Every future is accounted for. -/
structure Threads.InCustody (s : Threads) : Prop where
  balanced : Balanced (s.scheduler.ledger (s.threads.filterMap Thread.held))
  filed : s.scheduler.Filed
  threads_filed : ∀ t ∈ s.threads, t.Filed s.scheduler

theorem inCustody_init (hs : s.WellKept) : (Threads.init s).InCustody where
  balanced := hs.balanced
  filed := hs.filed
  threads_filed := by simp [Threads.init]

theorem inCustody_step {s s' : Threads} {x : Threads.Label} (h : s.step accepts x = some s')
    (hs : s.InCustody) : s'.InCustody := by
  obtain ⟨h', rfl, rfl⟩ | ⟨k, t, t', rfl, hk, ht, hthreads⟩ := Threads.step_cases h
  · refine ⟨?_, hs.filed, ?_⟩
    · simpa [List.filterMap_cons] using hs.balanced
    · intro t ht
      rcases List.mem_append.mp ht with ht | ht
      · exact hs.threads_filed t ht
      · obtain rfl := List.mem_singleton.mp ht
        intro id f hf
        simp [Thread.of] at hf
  · have hmem : t ∈ s.threads := List.mem_of_getElem? hk
    obtain ⟨hfiled, hfiled'⟩ := step_filed ht hs.filed (hs.threads_filed t hmem)
    refine ⟨?_, hfiled, ?_⟩
    · obtain ⟨others, hperm, hset⟩ := holders_perm Thread.held hk
      have hbefore : Move (s.scheduler.ledger (s.threads.filterMap Thread.held))
          (s.scheduler.ledger (t.held.toList ++ others)) := .idle rfl rfl hperm.symm rfl
      have hafter : Move (s'.scheduler.ledger (t'.held.toList ++ others))
          (s'.scheduler.ledger (s'.threads.filterMap Thread.held)) :=
        .idle rfl rfl (hthreads ▸ hset t') rfl
      exact ((hs.balanced.move hbefore).move (step_move ht others)).move hafter
    · intro u hu
      rw [hthreads] at hu
      rcases List.mem_or_eq_of_mem_set hu with hu | rfl
      · exact (hs.threads_filed u hu).mono (step_futures ht)
      · exact hfiled'

theorem inCustody_run {s s' : Threads} {xs : List Threads.Label}
    (hrun : run (Threads.step accepts) s xs = some s') (hs : s.InCustody) : s'.InCustody :=
  run_inv (fun _ _ _ => inCustody_step) hrun hs

/-- With no handler in flight the futures in the map are the live ones. -/
theorem Threads.InCustody.wellKept {s : Threads} (hs : s.InCustody) (hq : s.Quiescent) :
    s.scheduler.WellKept := by
  refine ⟨?_, hs.filed⟩
  have hnone : s.threads.filterMap Thread.held = [] := by
    rw [List.filterMap_eq_nil_iff]
    intro t ht
    rw [hq t ht, held_finished]
  exact hnone ▸ hs.balanced

/-- **No leaked or doubled task.** For any handlers, begun at any time, and any interleaving of
their steps: a live future is in the map under the id of its task, or held by exactly one thread,
which has yet to put it or to cancel it; no future is cancelled twice, and none that is in the map
has been cancelled. When no handler is in flight, the live futures are those in the map, one for
each id. -/
theorem futures_in_custody {xs : List Threads.Label} {s : Threads}
    (hrun : run (Threads.step accepts) (.init .init) xs = some s) :
    (∀ f, s.scheduler.Live f →
      (∃ id e, s.scheduler.scheduled.lookup id = some f ∧
          s.scheduler.futures[f]? = some ⟨id, e⟩) ∧
          (∀ k : ℕ, s.threads[k]?.bind Thread.held ≠ some f) ∨
        (∀ id, s.scheduler.scheduled.lookup id ≠ some f) ∧
          ∃! k : ℕ, s.threads[k]?.bind Thread.held = some f) ∧
    s.scheduler.cancelled.Nodup ∧
    (∀ id f, s.scheduler.scheduled.lookup id = some f → f ∉ s.scheduler.cancelled) ∧
    (s.Quiescent → ∀ f, s.scheduler.Live f ↔ ∃! id, s.scheduler.scheduled.lookup id = some f ∧
      s.scheduler.futures[f]?.map Task.destroyer = some id) := by
  have hs := inCustody_run hrun (inCustody_init DestructionScheduler.wellKept_init)
  refine ⟨fun f hf => ?_, hs.balanced.spent_nodup,
    fun id f h => hs.balanced.slot_not_spent (mem_values.mpr ⟨id, h⟩), fun hq f => ?_⟩
  · by_cases hmap : f ∈ values s.scheduler.scheduled
    · left
      obtain ⟨id, hid⟩ := mem_values.mp hmap
      obtain ⟨e, he⟩ := hs.filed id f hid
      refine ⟨⟨id, e, hid, he⟩, fun k hk => ?_⟩
      obtain ⟨t, ht, htf⟩ := Option.bind_eq_some_iff.mp hk
      exact hs.balanced.slot_not_held hmap
        (List.mem_filterMap.mpr ⟨t, List.mem_of_getElem? ht, htf⟩)
    · right
      have hheld := (hs.balanced.slot_or_held hf.1 hf.2).resolve_left hmap
      exact ⟨fun id hid => hmap (mem_values.mpr ⟨id, hid⟩),
        existsUnique_holder hs.balanced.hands_nodup hheld⟩
  · rw [(hs.wellKept hq).live_iff]
    constructor
    · rintro ⟨id, hid⟩
      obtain ⟨e, he⟩ := hs.filed id f hid
      have hdestroyer : s.scheduler.futures[f]?.map Task.destroyer = some id := by rw [he]; rfl
      exact ⟨id, ⟨hid, hdestroyer⟩, fun j hj => Option.some.inj (hj.2.symm.trans hdestroyer)⟩
    · rintro ⟨id, ⟨hid, -⟩, -⟩
      exact ⟨id, hid⟩

/-- The schedule 1 is created and then updated by two handlers at a time: the first has removed
its future and the second has put another one, before either has cancelled anything. -/
def overlappingUpdates : List Threads.Label :=
  [.spawn (.scheduleCreated ⟨"0 0 * * * *", 1, "hourly"⟩), .advance 0, .advance 0,
    .spawn (.scheduleUpdated ⟨"0 30 * * * *", 1, "hourly"⟩),
    .spawn (.scheduleUpdated ⟨"0 45 * * * *", 1, "hourly"⟩),
    .advance 1, .advance 2, .advance 2, .advance 2]

theorem futures_in_custody_updates :
    ∃ s, run (Threads.step fun _ => true) (.init .init) overlappingUpdates = some s ∧
      s.scheduler.scheduled.lookup 1 = some 1 ∧ s.scheduler.Live 0 ∧
      ∃! k : ℕ, s.threads[k]?.bind Thread.held = some 0 := by
  have hrun : run (Threads.step fun _ => true) (.init .init) overlappingUpdates = some _ := rfl
  refine ⟨_, hrun, rfl, by decide, ?_⟩
  rcases (futures_in_custody hrun).1 0 (by decide) with ⟨⟨id, e, hid, -⟩, -⟩ | ⟨-, h⟩
  · exact absurd (mem_values.mpr ⟨id, hid⟩) (by decide)
  · exact h

end ChaosLoris
