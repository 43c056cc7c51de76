import Mathlib.Logic.Function.Basic
import Mathlib.Data.List.TakeWhile
import ChaosLoris.DestructionScheduler
import ChaosLoris.Requests
import ChaosLoris.Lib.Custody

/-!
# The tasks of a scheduler

`tasks` is what the map of the scheduler stands for: an expression for each id that has a task.
`WellKept` is what makes this view complete: the futures in the map and the cancelled ones are all
futures there are, and each future in the map is of the id it is under.

Each operation moves futures as the library allows (`schedule_move`, `putSchedule_move`,
`removeSchedule_move`, `cancel_move`), so the handlers keep the scheduler well kept, and changes
`tasks` at one id.
-/

namespace ChaosLoris

namespace DestructionScheduler

open Custody

/-- The expression of the task in the map under an id. -/
def tasks (s : DestructionScheduler) (id : Id) : Option String :=
  (s.scheduled.lookup id).bind fun f => s.futures[f]?.map Task.expression

/-- The futures as tokens; `hands` are those that a handler has got and not passed on. -/
def ledger (s : DestructionScheduler) (hands : List Handle) : Ledger Id :=
  ⟨s.futures.length, s.scheduled, hands, s.cancelled⟩

/-- Each future in the map is of the id it is under. -/
def Filed (s : DestructionScheduler) : Prop :=
  ∀ id f, s.scheduled.lookup id = some f → ∃ e, s.futures[f]? = some ⟨id, e⟩

structure WellKept (s : DestructionScheduler) : Prop where
  balanced : Balanced (s.ledger [])
  filed : s.Filed

theorem wellKept_init : init.WellKept where
  balanced := balanced_fresh
  filed := by
    intro id f h
    simp [init] at h

section Moves

variable {accepts : String → Bool} {s s' : DestructionScheduler} {id : Id} {f : Handle}
  {e : String} {hands : List Handle}

/-- What `TaskScheduler.schedule` does when it does not throw. -/
theorem schedule_eq_some : s.schedule accepts id e = some (f, s') ↔
    accepts e = true ∧ f = s.futures.length ∧ s' = { s with futures := s.futures ++ [⟨id, e⟩] } := by
  unfold schedule
  split_ifs with h
  · simp [h, eq_comm]
  · simp [h]

theorem schedule_move (h : s.schedule accepts id e = some (f, s')) :
    Move (s.ledger hands) (s'.ledger (f :: hands)) := by
  obtain ⟨-, rfl, rfl⟩ := schedule_eq_some.mp h
  exact .issue (by simp [ledger]) rfl (List.Perm.refl _) rfl

theorem putSchedule_move (id : Id) : Move (s.ledger (f :: hands))
    ((s.putSchedule id f).2.ledger ((s.putSchedule id f).1.toList ++ hands)) :=
  .put id f hands rfl rfl (List.Perm.refl _) (List.Perm.refl _) rfl

theorem removeSchedule_move (id : Id) : Move (s.ledger hands)
    ((s.removeSchedule id).2.ledger ((s.removeSchedule id).1.toList ++ hands)) :=
  .take id rfl rfl (List.Perm.refl _) rfl

theorem cancel_move : Move (s.ledger (f :: hands)) ((s.cancel f).ledger hands) :=
  .spend f rfl rfl (List.Perm.refl _) rfl

theorem Filed.schedule (hs : s.Filed) (h : s.schedule accepts id e = some (f, s')) : s'.Filed := by
  obtain ⟨-, rfl, rfl⟩ := schedule_eq_some.mp h
  intro j g hg
  obtain ⟨e', he'⟩ := hs j g hg
  exact ⟨e', List.getElem?_append_left (List.getElem?_eq_some_iff.mp he').1 |>.trans he'⟩

theorem Filed.putSchedule (hs : s.Filed) (hf : s.futures[f]? = some ⟨id, e⟩) :
    (s.putSchedule id f).2.Filed := by
  intro j g hg
  by_cases hj : j = id
  · subst hj
    obtain rfl : f = g := by simpa [DestructionScheduler.putSchedule] using hg
    exact ⟨e, hf⟩
  · rw [show (s.putSchedule id f).2.scheduled.lookup j = s.scheduled.lookup j from
      AList.lookup_insert_ne hj] at hg
    exact hs j g hg

theorem Filed.removeSchedule (hs : s.Filed) (id : Id) : (s.removeSchedule id).2.Filed := by
  intro j g hg
  by_cases hj : j = id
  · subst hj
    simp [DestructionScheduler.removeSchedule] at hg
  · rw [show (s.removeSchedule id).2.scheduled.lookup j = s.scheduled.lookup j from
      AList.lookup_erase_ne hj] at hg
    exact hs j g hg

end Moves

/-! ## The map and the live futures -/

section WellKept

variable {s : DestructionScheduler} {id j : Id} {f g : Handle} {e : String}

theorem WellKept.live_iff (hs : s.WellKept) : s.Live f ↔ ∃ id, s.scheduled.lookup id = some f := by
  rw [← mem_values]
  constructor
  · rintro ⟨hlt, hnot⟩
    exact (hs.balanced.slot_or_held hlt hnot).resolve_right List.not_mem_nil
  · intro h
    exact ⟨hs.balanced.lt_of_slot h, hs.balanced.slot_not_spent h⟩

theorem WellKept.live_unique (hs : s.WellKept) (hf : s.Live f) (hg : s.Live g)
    (h : s.futures[f]?.map Task.destroyer = s.futures[g]?.map Task.destroyer) : f = g := by
  obtain ⟨i, hi⟩ := hs.live_iff.mp hf
  obtain ⟨j, hj⟩ := hs.live_iff.mp hg
  obtain ⟨_, hfi⟩ := hs.filed i f hi
  obtain ⟨_, hgj⟩ := hs.filed j g hj
  obtain rfl : i = j := by simpa [hfi, hgj] using h
  exact Option.some.inj (hi.symm.trans hj)

theorem Filed.tasks_eq (hs : s.Filed) (h : s.scheduled.lookup id = some f) :
    ∃ e, s.futures[f]? = some ⟨id, e⟩ ∧ s.tasks id = some e := by
  obtain ⟨e, he⟩ := hs id f h
  exact ⟨e, he, by simp [tasks, h, he]⟩

theorem Filed.isSome_tasks (hs : s.Filed) (id : Id) :
    (s.tasks id).isSome = (s.scheduled.lookup id).isSome := by
  cases h : s.scheduled.lookup id with
  | none => simp [tasks, h]
  | some f =>
    obtain ⟨e, -, he⟩ := hs.tasks_eq h
    simp [he]

theorem WellKept.tasks_eq_some (hs : s.WellKept) :
    s.tasks id = some e ↔ ∃ f, s.Live f ∧ s.futures[f]? = some ⟨id, e⟩ := by
  constructor
  · intro h
    obtain ⟨f, hf, he⟩ := Option.bind_eq_some_iff.mp h
    obtain ⟨e', he'⟩ := hs.filed id f hf
    obtain rfl : e' = e := by simpa [he'] using he
    exact ⟨f, hs.live_iff.mpr ⟨id, hf⟩, he'⟩
  · rintro ⟨f, hlive, he⟩
    obtain ⟨j, hj⟩ := hs.live_iff.mp hlive
    obtain ⟨e', he', htask⟩ := hs.filed.tasks_eq hj
    obtain ⟨rfl, rfl⟩ : j = id ∧ e' = e := by simpa [he'] using he
    exact htask

end WellKept

/-! ## Handlers -/

section Handlers

variable {s : DestructionScheduler}

theorem WellKept.startSchedule (hs : s.WellKept) (accepts : String → Bool) (schedule : Schedule) :
    (s.startSchedule accepts schedule).1.WellKept := by
  unfold DestructionScheduler.startSchedule
  cases h : s.schedule accepts schedule.id schedule.expression with
  | none => exact hs
  | some p =>
    obtain ⟨f, s'⟩ := p
    have hb := (hs.balanced.move (schedule_move h)).move (putSchedule_move schedule.id)
    have hf : s'.futures[f]? = some ⟨schedule.id, schedule.expression⟩ := by
      obtain ⟨-, rfl, rfl⟩ := schedule_eq_some.mp h
      simp
    have hfiled := (hs.filed.schedule h).putSchedule hf
    dsimp only
    revert hb hfiled
    cases (s'.putSchedule schedule.id f).1 with
    | none => exact fun hb hfiled => ⟨hb, hfiled⟩
    | some g => exact fun hb hfiled => ⟨hb.move cancel_move, hfiled⟩

theorem WellKept.stopSchedule (hs : s.WellKept) (id : Id) : (s.stopSchedule id).WellKept := by
  unfold DestructionScheduler.stopSchedule
  have hb := hs.balanced.move (removeSchedule_move id)
  have hfiled := hs.filed.removeSchedule id
  dsimp only
  revert hb hfiled
  cases (s.removeSchedule id).1 with
  | none => exact fun hb hfiled => ⟨hb, hfiled⟩
  | some g => exact fun hb hfiled => ⟨hb.move cancel_move, hfiled⟩

theorem WellKept.startAll (hs : s.WellKept) (accepts : String → Bool) (schedules : List Schedule) :
    (s.startAll accepts schedules).1.WellKept := by
  induction schedules generalizing s with
  | nil => exact hs
  | cons a as ih =>
    have ha := hs.startSchedule accepts a
    unfold DestructionScheduler.startAll
    split
    next t h =>
      rw [h] at ha
      exact ih ha
    next t h =>
      rw [h] at ha
      exact ha

theorem WellKept.start (hs : s.WellKept) (accepts : String → Bool) (schedules : List Schedule) :
    (s.start accepts schedules).1.WellKept := by
  have h := hs.startAll accepts schedules
  unfold DestructionScheduler.start
  split
  next t ht =>
    rw [ht] at h
    exact ⟨h.balanced, h.filed⟩
  next t ht =>
    rw [ht] at h
    exact h

theorem WellKept.stop (hs : s.WellKept) (ids : List Id) : (s.stop ids).WellKept := by
  have hfold : (ids.foldl (fun s id => s.stopSchedule id) s).WellKept := by
    induction ids generalizing s with
    | nil => exact hs
    | cons i is ih => exact ih (hs.stopSchedule i)
  exact ⟨hfold.balanced, hfold.filed⟩

theorem WellKept.listen (hs : s.WellKept) (accepts : String → Bool) (e : ScheduleEvent) :
    (s.listen accepts e).1.WellKept := by
  cases e with
  | created schedule => exact hs.startSchedule accepts schedule
  | updated schedule => exact (hs.stopSchedule schedule.id).startSchedule accepts schedule
  | deleted id => exact hs.stopSchedule id

end Handlers

/-! ## What the handlers do to the tasks -/

section Tasks

variable {accepts : String → Bool} {s : DestructionScheduler} {id : Id} {schedule : Schedule}

theorem tasks_startSchedule (hs : s.Filed) (h : accepts schedule.expression = true) :
    (s.startSchedule accepts schedule).1.tasks =
      Function.update s.tasks schedule.id (some schedule.expression) := by
  rw [startSchedule_of_accepts h]
  funext j
  unfold tasks
  by_cases hj : j = schedule.id
  · rw [hj, Function.update_self]
    simp
  · rw [Function.update_of_ne hj]
    simp only [AList.lookup_insert_ne hj]
    cases hl : s.scheduled.lookup j with
    | none => rfl
    | some f =>
      obtain ⟨e, he⟩ := hs j f hl
      have hlt := (List.getElem?_eq_some_iff.mp he).1
      simp [List.getElem?_append_left hlt]

theorem tasks_stopSchedule : (s.stopSchedule id).tasks = Function.update s.tasks id none := by
  rw [stopSchedule_eq]
  funext j
  unfold tasks
  by_cases hj : j = id
  · rw [hj, Function.update_self]
    simp
  · rw [Function.update_of_ne hj]
    simp only [AList.lookup_erase_ne hj]

/-- The schedules of a list that `start()` gets to. -/
def reached (accepts : String → Bool) (schedules : List Schedule) : List Schedule :=
  schedules.takeWhile fun a => accepts a.expression

/-- The tasks after those of a list of schedules have been set. -/
def assign (tasks : Id → Option String) (schedules : List Schedule) : Id → Option String :=
  schedules.foldl (fun t a => Function.update t a.id (some a.expression)) tasks

theorem assign_of_notMem {tasks : Id → Option String} {schedules : List Schedule} {id : Id}
    (h : id ∉ schedules.map Schedule.id) : assign tasks schedules id = tasks id := by
  unfold assign
  induction schedules generalizing tasks with
  | nil => rfl
  | cons a as ih =>
    rw [List.map_cons, List.mem_cons, not_or] at h
    rw [List.foldl_cons, ih h.2, Function.update_of_ne h.1]

theorem assign_of_mem {tasks : Id → Option String} {schedules : List Schedule}
    (hnodup : (schedules.map Schedule.id).Nodup) {a : Schedule} (h : a ∈ schedules) :
    assign tasks schedules a.id = some a.expression := by
  unfold assign
  induction schedules generalizing tasks with
  | nil => simp at h
  | cons b as ih =>
    rw [List.map_cons, List.nodup_cons] at hnodup
    rw [List.foldl_cons]
    rcases List.mem_cons.mp h with rfl | h
    · exact (assign_of_notMem hnodup.1).trans (Function.update_self ..)
    · exact ih hnodup.2 h

/-- `start()` gets to the schedules before the first one that is not accepted. -/
theorem WellKept.startAll_spec (hs : s.WellKept) (accepts : String → Bool) (schedules : List Schedule) :
    (s.startAll accepts schedules).1.tasks = assign s.tasks (reached accepts schedules) ∧
      (s.startAll accepts schedules).1.running = s.running ∧
      (s.startAll accepts schedules).2 = schedules.all fun a => accepts a.expression := by
  induction schedules generalizing s with
  | nil => exact ⟨rfl, rfl, rfl⟩
  | cons a as ih =>
    unfold DestructionScheduler.startAll reached
    cases ha : accepts a.expression with
    | false => simp [startSchedule_of_rejects ha, ha, assign]
    | true =>
      have htasks := tasks_startSchedule hs.filed ha
      have hkept := hs.startSchedule accepts a
      rw [startSchedule_of_accepts ha] at htasks hkept ⊢
      obtain ⟨h1, h2, h3⟩ := ih hkept
      refine ⟨?_, h2, ?_⟩
      · rw [List.takeWhile_cons, if_pos ha]
        exact h1.trans (congrArg (assign · _) htasks)
      · rw [List.all_cons, ha, Bool.true_and]
        exact h3

theorem WellKept.start_spec (hs : s.WellKept) (accepts : String → Bool) (schedules : List Schedule) :
    (s.start accepts schedules).1.tasks = assign s.tasks (reached accepts schedules) ∧
      (s.start accepts schedules).1.running =
        (s.running || schedules.all fun a => accepts a.expression) := by
  obtain ⟨h1, h2, h3⟩ := hs.startAll_spec accepts schedules
  unfold DestructionScheduler.start
  split
  next t ht =>
    rw [ht] at h1 h3
    exact ⟨h1, by simp [← h3]⟩
  next t ht =>
    rw [ht] at h1 h2 h3
    exact ⟨h1, by simp [← h3, ← h2]⟩

theorem reached_of_all {schedules : List Schedule}
    (h : ∀ a ∈ schedules, accepts a.expression = true) : reached accepts schedules = schedules :=
  List.takeWhile_eq_self_iff.mpr h

theorem tasks_stop (s : DestructionScheduler) (ids : List Id) (id : Id) :
    (s.stop ids).tasks id = if id ∈ ids then none else s.tasks id := by
  have hfold : ∀ t : DestructionScheduler,
      (ids.foldl (fun s id => s.stopSchedule id) t).tasks id =
        if id ∈ ids then none else t.tasks id := by
    induction ids with
    | nil =>
      intro t
      simp
    | cons i is ih =>
      intro t
      rw [List.foldl_cons, ih, tasks_stopSchedule]
      by_cases hi : id = i
      · simp [hi]
      · simp [hi]
  exact hfold s

/-- The tasks after an event. Only a creation leaves a task alone if its expression is rejected. -/
def taskAfter (accepts : String → Bool) (tasks : Id → Option String) :
    ScheduleEvent → Id → Option String
  | .created a =>
    if accepts a.expression then Function.update tasks a.id (some a.expression) else tasks
  | .updated a =>
    Function.update tasks a.id (if accepts a.expression then some a.expression else none)
  | .deleted id => Function.update tasks id none

theorem WellKept.tasks_listen (hs : s.WellKept) (accepts : String → Bool) (e : ScheduleEvent) :
    (s.listen accepts e).1.tasks = taskAfter accepts s.tasks e := by
  cases e with
  | created a =>
    show (s.startSchedule accepts a).1.tasks = if _ then _ else _
    split_ifs with ha
    · exact tasks_startSchedule hs.filed ha
    · rw [startSchedule_of_rejects (Bool.not_eq_true _ ▸ ha)]
  | updated a =>
    show ((s.stopSchedule a.id).startSchedule accepts a).1.tasks =
      Function.update _ _ (if _ then _ else _)
    split_ifs with ha
    · rw [tasks_startSchedule (hs.stopSchedule a.id).filed ha, tasks_stopSchedule,
        Function.update_idem]
    · rw [startSchedule_of_rejects (Bool.not_eq_true _ ▸ ha), tasks_stopSchedule]
  | deleted id => exact tasks_stopSchedule

theorem running_startSchedule (s : DestructionScheduler) (accepts : String → Bool)
    (schedule : Schedule) : (s.startSchedule accepts schedule).1.running = s.running := by
  cases ha : accepts schedule.expression with
  | true => rw [startSchedule_of_accepts ha]
  | false => rw [startSchedule_of_rejects ha]

theorem running_stopSchedule (s : DestructionScheduler) (id : Id) :
    (s.stopSchedule id).running = s.running := by
  rw [stopSchedule_eq]

theorem running_listen (s : DestructionScheduler) (accepts : String → Bool) (e : ScheduleEvent) :
    (s.listen accepts e).1.running = s.running := by
  cases e with
  | created a => exact running_startSchedule s accepts a
  | updated a =>
    exact (running_startSchedule _ accepts a).trans (running_stopSchedule s a.id)
  | deleted id => exact running_stopSchedule s id

theorem taskAfter_of_accepts {tasks : Id → Option String} {e : ScheduleEvent}
    (hacc : ∀ x ∈ e.version, accepts x = true) :
    taskAfter accepts tasks e = Function.update tasks e.id e.version := by
  cases e with
  | created a => exact if_pos (hacc _ rfl)
  | updated a => exact congrArg (Function.update tasks a.id) (if_pos (hacc _ rfl))
  | deleted id => rfl

/-- A listener brings the task of its schedule to the version of the event. -/
theorem WellKept.listen_spec (hs : s.WellKept) {e : ScheduleEvent}
    (hacc : ∀ x ∈ e.version, accepts x = true) :
    (s.listen accepts e).1.tasks = Function.update s.tasks e.id e.version ∧
      (s.listen accepts e).1.running = s.running := by
  rw [hs.tasks_listen, taskAfter_of_accepts hacc]
  exact ⟨rfl, running_listen s accepts e⟩

end Tasks

end DestructionScheduler

end ChaosLoris
