import ChaosLoris.Lib.Constraints
import ChaosLoris.EventReaper
import ChaosLoris.Recording

/-!
# What holds of every store

`Store.Valid` is what the schema declares, together with what it leaves to the program: the
probabilities, and the rows of `event_terminated_instances`. A statement keeps it as long as the
values it writes are in bounds (`exec_valid`). Those of the controllers are, because they have been
checked (`Statement.Admitted.sound`), and those of a destroyer are, because of how it collects the
indices (`DestroyerRun.sound_of_save`). So each of them, whatever it does, only makes the store
evolve (`Evolves`).

`store_valid` puts the three actors together.
-/

namespace ChaosLoris

open FlatMap Runs Keyed

structure Store.Valid (st : Store) : Prop where
  applicationIds : Unique st.application ApplicationRow.applicationId
  names : Unique st.schedule ScheduleRow.name
  pairs : Unique st.chaos fun r => (r.applicationId, r.scheduleId)
  applications : References st.chaos st.application ChaosRow.applicationId
  schedules : References st.chaos st.schedule ChaosRow.scheduleId
  probabilities : Every st.chaos fun r => 0 ≤ r.probability ∧ r.probability ≤ 1
  chaoses : References st.event st.chaos EventRow.chaosId
  /-- Each terminated instance is of a stored event and below its count, and is there once. -/
  terminatedInstances : Owned st.event st.eventTerminatedInstances fun r i =>
    i < r.totalInstanceCount

theorem valid_empty : Store.empty.Valid where
  applicationIds := unique_empty _
  names := unique_empty _
  pairs := unique_empty _
  applications := references_empty _ _
  schedules := references_empty _ _
  probabilities := every_empty _
  chaoses := references_empty _ _
  terminatedInstances := owned_empty _

/-- The ids begin with 1. -/
structure Store.Numbered (st : Store) : Prop where
  schedule : Keyed.Numbered st.schedule
  application : Keyed.Numbered st.application
  chaos : Keyed.Numbered st.chaos
  event : Keyed.Numbered st.event

theorem numbered_empty_store : Store.empty.Numbered where
  schedule := numbered_empty
  application := numbered_empty
  chaos := numbered_empty
  event := numbered_empty

/-! ## Statements -/

/-- The terminated instances of an event are different indices below its count. -/
def SoundIndices (total : ℕ) (terminatedInstances : List ℕ) : Prop :=
  terminatedInstances.Nodup ∧ ∀ i ∈ terminatedInstances, i < total

/-- The values of a statement are in the bounds that the schema does not know of. -/
def Statement.Sound : Statement → Prop
  | .insertChaos row => 0 ≤ row.probability ∧ row.probability ≤ 1
  | .updateChaos _ row => 0 ≤ row.probability ∧ row.probability ≤ 1
  | .insertEvent row terminatedInstances => SoundIndices row.totalInstanceCount terminatedInstances
  | _ => True

section Statements

variable {st st' : Store} {s : Statement} {id : Id}

theorem validProbability_iff {p : ℚ} : validProbability p = true ↔ 0 ≤ p ∧ p ≤ 1 := by
  simp [validProbability]

/-- What the controllers have checked is enough. -/
theorem Statement.Admitted.sound (h : s.Admitted st) (hst : st.Valid) : s.Sound := by
  cases s with
  | insertChaos row => exact validProbability_iff.mp h
  | updateChaos id row =>
    obtain ⟨old, hold, hp | hp⟩ := h
    · exact validProbability_iff.mp hp
    · have hbounds : 0 ≤ old.probability ∧ old.probability ≤ 1 := hst.probabilities id old hold
      rwa [← hp] at hbounds
  | insertEvent row terminatedInstances => exact h.elim
  | _ => trivial

theorem name_ne_of_nameTaken {name : String} (h : st.nameTaken id name = false) {j : Id}
    {r : ScheduleRow} (hr : st.schedule.find j = some r) (hj : j ≠ id) : r.name ≠ name := by
  have := Table.any_eq_false.mp h j r hr
  simpa [hj] using this

theorem pair_ne_of_pairTaken {row : ChaosRow} (h : st.pairTaken id row = false) {j : Id}
    {r : ChaosRow} (hr : st.chaos.find j = some r) (hj : j ≠ id) :
    (r.applicationId, r.scheduleId) ≠ (row.applicationId, row.scheduleId) := by
  have := Table.any_eq_false.mp h j r hr
  simpa [hj] using this

theorem ne_next {ρ : Type*} {t : Table ρ} {j : ℤ} {r : ρ} (h : t.find j = some r) : j ≠ t.next :=
  Int.ne_of_lt (Table.lt_of_find h)

/-- **A statement keeps the store valid.** -/
theorem exec_valid (h : st.Valid) (hs : s.Sound) (hexec : s.exec st = some st') : st'.Valid := by
  cases exec_eq_some.mp hexec with
  | insertSchedule row _ hname =>
    exact { h with
      names := h.names.insert fun j r hr => name_ne_of_nameTaken hname hr (ne_next hr)
      schedules := h.schedules.insert_target row }
  | updateSchedule id row _ hname =>
    exact { h with
      names := h.names.set fun j r hr hj => name_ne_of_nameTaken hname hr hj
      schedules := h.schedules.set_target id row }
  | deleteSchedule id hfree =>
    exact { h with
      names := h.names.delete id
      schedules := h.schedules.delete_target hfree }
  | insertApplication row hnew =>
    exact { h with
      applicationIds := h.applicationIds.insert hnew
      applications := h.applications.insert_target row }
  | deleteApplication id hfree =>
    exact { h with
      applicationIds := h.applicationIds.delete id
      applications := h.applications.delete_target hfree }
  | insertChaos row happlication hschedule hpair =>
    exact { h with
      pairs := h.pairs.insert fun j r hr => pair_ne_of_pairTaken hpair hr (ne_next hr)
      applications := h.applications.insert happlication
      schedules := h.schedules.insert hschedule
      probabilities := h.probabilities.insert hs
      chaoses := h.chaoses.insert_target row }
  | updateChaos id row happlication hschedule hpair =>
    exact { h with
      pairs := h.pairs.set fun j r hr hj => pair_ne_of_pairTaken hpair hr hj
      applications := h.applications.set happlication
      schedules := h.schedules.set hschedule
      probabilities := h.probabilities.set hs
      chaoses := h.chaoses.set_target id row }
  | deleteChaos id hfree =>
    exact { h with
      pairs := h.pairs.delete id
      applications := h.applications.delete id
      schedules := h.schedules.delete id
      probabilities := h.probabilities.delete id
      chaoses := h.chaoses.delete_target hfree }
  | insertEvent row terminatedInstances hchaos _ =>
    exact { h with
      chaoses := h.chaoses.insert hchaos
      terminatedInstances := h.terminatedInstances.insert hs.1 hs.2 }
  | deleteEvent id =>
    exact { h with
      chaoses := h.chaoses.delete id
      terminatedInstances := h.terminatedInstances.delete id }

theorem exec_numbered (h : st.Numbered) (hexec : s.exec st = some st') : st'.Numbered := by
  cases exec_eq_some.mp hexec with
  | insertSchedule row _ _ => exact { h with schedule := h.schedule.insert row }
  | updateSchedule id row _ _ => exact { h with schedule := h.schedule.set id row }
  | deleteSchedule id _ => exact { h with schedule := h.schedule.delete id }
  | insertApplication row _ => exact { h with application := h.application.insert row }
  | deleteApplication id _ => exact { h with application := h.application.delete id }
  | insertChaos row _ _ _ => exact { h with chaos := h.chaos.insert row }
  | updateChaos id row _ _ _ => exact { h with chaos := h.chaos.set id row }
  | deleteChaos id _ => exact { h with chaos := h.chaos.delete id }
  | insertEvent row _ _ _ => exact { h with event := h.event.insert row }
  | deleteEvent id => exact { h with event := h.event.delete id }

end Statements

/-! ## Evolution of the store -/

/-- Statements with sound values lead from one store to another. -/
def Evolves (st st' : Store) : Prop :=
  ∃ ss : List Statement, (∀ s ∈ ss, s.Sound) ∧ execAll ss st = some st'

section Evolves

variable {st st' st'' : Store}

theorem Evolves.refl : Evolves st st := ⟨[], by simp, rfl⟩

theorem Evolves.single {s : Statement} (hs : s.Sound) (h : s.exec st = some st') :
    Evolves st st' :=
  ⟨[s], by simpa using hs, execAll_singleton.trans h⟩

theorem execAll_append (ss rest : List Statement) (st : Store) :
    execAll (ss ++ rest) st = (execAll ss st).bind (execAll rest) := by
  induction ss generalizing st with
  | nil => rfl
  | cons s ss ih =>
    show (s.exec st).bind _ = ((s.exec st).bind _).bind _
    rw [Option.bind_assoc]
    congr 1
    funext u
    exact ih u

theorem Evolves.trans (h : Evolves st st') (h' : Evolves st' st'') : Evolves st st'' := by
  obtain ⟨ss, hss, hexec⟩ := h
  obtain ⟨rest, hrest, hexec'⟩ := h'
  refine ⟨ss ++ rest, fun s hs => ?_, ?_⟩
  · rcases List.mem_append.mp hs with hs | hs
    · exact hss s hs
    · exact hrest s hs
  · rw [execAll_append, hexec]
    exact hexec'

theorem Evolves.keeps {P : Store → Prop}
    (hexec : ∀ s st st', s.Sound → Statement.exec st s = some st' → P st → P st')
    (h : Evolves st st') (hst : P st) : P st' := by
  obtain ⟨ss, hss, hall⟩ := h
  induction ss generalizing st with
  | nil =>
    obtain rfl : st = st' := Option.some.inj hall
    exact hst
  | cons s ss ih =>
    obtain ⟨u, hu, hall⟩ := Option.bind_eq_some_iff.mp hall
    exact ih (hexec s st u (hss s List.mem_cons_self) hu hst)
      (fun x hx => hss x (List.mem_cons_of_mem _ hx)) hall

theorem Evolves.valid (h : Evolves st st') (hst : st.Valid) : st'.Valid :=
  h.keeps (fun _ _ _ hs hexec hu => exec_valid hu hs hexec) hst

theorem Evolves.numbered (h : Evolves st st') (hst : st.Numbered) : st'.Numbered :=
  h.keeps (fun _ _ _ _ hexec hu => exec_numbered hu hexec) hst

theorem respond_evolves (h : st.Valid) (r : Request) (rollback : Bool) :
    Evolves st (r.respond rollback st).1 := by
  obtain ⟨st', status, events, hr⟩ : ∃ st' status events, r.respond rollback st =
      (st', status, events) := ⟨_, _, _, rfl⟩
  rw [hr]
  obtain ⟨rfl, -⟩ | ⟨s, hs, hexec, -⟩ | ⟨rfl, -⟩ := respond_cases hr
  · exact .refl
  · exact .single (hs.sound h) hexec
  · exact .refl

end Evolves

/-! ## Destroyers -/

section Destroyers

variable {behave : Chaos → Behaviour} {chaoses : List Chaos} {st st' : Store} {e : Event}
  {log : List (ℕ × Effect)} {k : ℕ} {ok : Bool}

/-- The event a publisher hands to `save` lists different indices below its count. -/
theorem Tracks.sound_of_save {c : Chaos} {b : Behaviour} {u : Phase} {l : List Effect}
    (h : Tracks c b u l) (he : .save e ok ∈ l) :
    SoundIndices e.totalInstanceCount e.terminatedInstances := by
  have hsave : Effect.save e ok ∈ l.filter Effect.isSave := List.mem_filter.mpr ⟨he, rfl⟩
  by_cases hrun : u.verdict = .running
  · rw [h.filter_isSave_of_running hrun] at hsave
    exact absurd hsave List.not_mem_nil
  · obtain ⟨-, -, rfl⟩ | ⟨n, e', ok', -, -, -, hfilter, -, -, htotal, hperm⟩ := h.summary hrun
    · simp at he
    · rw [hfilter, List.mem_singleton] at hsave
      obtain ⟨rfl, -⟩ := Effect.save.inj hsave
      rw [htotal]
      refine ⟨hperm.nodup_iff.mpr (List.nodup_range.filter _), fun i hi => ?_⟩
      exact List.mem_range.mp (List.mem_of_mem_filter (hperm.mem_iff.mp hi))

theorem DestroyerRun.sound_of_save {xs : List (Signal ChaosSignal)} {d : Destroyer}
    (h : DestroyerRun behave chaoses xs d log) (he : (k, Effect.save e ok) ∈ log) :
    SoundIndices e.totalInstanceCount e.terminatedInstances := by
  have hmem := mem_effectsOf.mpr he
  obtain ⟨c, u, hu, -⟩ := h.exists_publisher (Or.inr (List.ne_nil_of_mem hmem))
  exact (h.tracks hu).sound_of_save hmem

theorem saveEvent_evolves (hsave : saveEvent st e = some st')
    (he : SoundIndices e.totalInstanceCount e.terminatedInstances) : Evolves st st' :=
  .single (s := .insertEvent ⟨e.chaos.id, e.executedAt, e.totalInstanceCount⟩
    e.terminatedInstances) he hsave

/-- In a valid store the save of an event fails only for want of its chaos. -/
theorem saveEvent_eq_none_iff (h : st.Valid)
    (he : SoundIndices e.totalInstanceCount e.terminatedInstances) :
    saveEvent st e = none ↔ st.chaos.find e.chaos.id = none := by
  have hnodup := (h.terminatedInstances.insert (r := ⟨e.chaos.id, e.executedAt,
    e.totalInstanceCount⟩) he.1 he.2).nodup
  simp only [saveEvent, Statement.exec, ite_eq_right_iff, reduceCtorEq, imp_false, not_and]
  rw [← Option.not_isSome_iff_eq_none]
  exact ⟨fun hnot hsome => hnot hsome hnodup, fun hnone hsome => absurd hsome hnone⟩

theorem persistAll_evolves {es : List (ℕ × Effect)}
    (hes : ∀ k e, (k, Effect.save e true) ∈ es →
      SoundIndices e.totalInstanceCount e.terminatedInstances)
    (hpersist : persistAll es st = some st') : Evolves st st' := by
  induction es generalizing st with
  | nil =>
    obtain rfl : st = st' := Option.some.inj hpersist
    exact .refl
  | cons p es ih =>
    obtain ⟨st₁, hp, hrest⟩ := Option.bind_eq_some_iff.mp hpersist
    refine Evolves.trans ?_ (ih (fun k e he => hes k e (List.mem_cons_of_mem _ he)) hrest)
    obtain ⟨k, f⟩ := p
    cases f with
    | save e ok =>
      cases ok with
      | true => exact saveEvent_evolves hp (hes k e List.mem_cons_self)
      | false =>
        obtain ⟨-, hsame⟩ := Option.ite_none_right_eq_some.mp hp
        obtain rfl : st = st₁ := Option.some.inj hsame
        exact .refl
    | _ =>
      obtain rfl : st = st₁ := Option.some.inj hp
      exact .refl

/-- A run of the destroyer, with requests in between, only makes the store evolve. -/
theorem DestructionRun.evolves {xs : List Destruction.Label} {s : Destruction}
    (h : DestructionRun behave st chaoses xs s log) (hst : st.Valid) : Evolves st s.store := by
  induction xs using List.reverseRecOn generalizing s log with
  | nil =>
    obtain ⟨rfl, -⟩ : Destruction.start st chaoses = s ∧ [] = log := by
      simpa [DestructionRun] using h
    exact .refl
  | append_singleton xs x ih =>
    obtain ⟨u, l, es, hpre, hx, rfl⟩ := run_logged_snoc.mp h
    have hu := ih hpre
    obtain ⟨r, rollback, -, rfl, -⟩ | ⟨y, rfl, -, hpersist, -⟩ | ⟨_, _, -, -, rfl, -⟩ :=
      Destruction.step_cases hx
    · exact hu.trans (respond_evolves (hu.valid hst) r rollback)
    · refine hu.trans (persistAll_evolves (fun k e he => ?_) hpersist)
      exact h.destroyer_run.sound_of_save (List.mem_append_right l he)
    · exact hu

end Destroyers

/-! ## All three actors -/

/-- The chaos entity of a row. -/
def Store.chaosEntity (st : Store) (id : Id) (row : ChaosRow) : Option Chaos := do
  let application ← st.application.find row.applicationId
  let schedule ← st.schedule.find row.scheduleId
  some { application := ⟨application.applicationId, row.applicationId⟩, id,
         probability := row.probability, schedule := schedule.entity row.scheduleId }

/-- `findByScheduleId`, in some order. -/
def Store.findByScheduleId (st : Store) (scheduleId : Id) : List Chaos :=
  st.chaos.toList.filterMap fun p =>
    if p.2.scheduleId = scheduleId then st.chaosEntity p.1 p.2 else none

/-- Something that happens to the store: a request, a run of the destroyer of a schedule, or a run
of the reaper. -/
inductive Occurrence
  | request (r : Request) (rollback : Bool)
  | destroy (scheduleId : Id) (behave : Chaos → Behaviour) (chaoses : List Chaos)
      (xs : List Destruction.Label)
  | reap (limit : Instant) (events : List Id) (deletes : Id → Bool)

/-- Queries may return their rows in any order. -/
def Store.step (st : Store) : Occurrence → Option Store
  | .request r rollback => some (r.respond rollback st).1
  | .destroy scheduleId behave chaoses xs =>
    if chaoses.Perm (st.findByScheduleId scheduleId) then
      (run (logged (Destruction.step behave)) (.start st chaoses, []) xs).map fun p => p.1.store
    else none
  | .reap limit events deletes =>
    if events.Perm (st.findByExecutedAtBefore limit) then
      some (EventReaper.doReap deletes events st).1
    else none

section Store

variable {st st' : Store}

theorem reapAll_evolves (deletes : Id → Bool) (events : List Id) (st : Store) :
    Evolves st (EventReaper.reapAll deletes events st).1 := by
  induction events generalizing st with
  | nil => exact .refl
  | cons event events ih =>
    unfold EventReaper.reapAll
    split_ifs
    · exact (Evolves.single (s := .deleteEvent event) trivial rfl).trans (ih _)
    · exact .refl

theorem doReap_fst (deletes : Id → Bool) (events : List Id) (st : Store) :
    (EventReaper.doReap deletes events st).1 = (EventReaper.reapAll deletes events st).1 := by
  unfold EventReaper.doReap
  split <;> simp [*]

theorem step_valid {o : Occurrence} (h : st.Valid) (hstep : st.step o = some st') :
    st'.Valid := by
  cases o with
  | request r rollback =>
    obtain rfl : (r.respond rollback st).1 = st' := Option.some.inj hstep
    exact (respond_evolves h r rollback).valid h
  | destroy scheduleId behave chaoses xs =>
    simp only [Store.step, Option.ite_none_right_eq_some, Option.map_eq_some_iff] at hstep
    obtain ⟨-, ⟨s, log⟩, hrun, rfl⟩ := hstep
    exact (DestructionRun.evolves hrun h).valid h
  | reap limit events deletes =>
    simp only [Store.step, Option.ite_none_right_eq_some, Option.some.injEq] at hstep
    obtain ⟨-, rfl⟩ := hstep
    rw [doReap_fst]
    exact (reapAll_evolves deletes events st).valid h

/-- **The store invariant.** Every store that requests, runs of destroyers and runs of the reaper
lead to, in any order, from empty tables, is valid. -/
theorem store_valid {os : List Occurrence} (hrun : run Store.step .empty os = some st) :
    st.Valid :=
  run_inv (fun _ _ _ hstep h => step_valid h hstep) hrun valid_empty

/-- A chaos is created, its schedule fires once, and the event is reaped. -/
def fullCycle : List Occurrence :=
  [.request (.createApplication (some 1)) false,
    .request (.createSchedule ⟨some "0 0 * * * *", some "hourly"⟩) false,
    .request (.createChaos ⟨some "/applications/1", some 1, some "/schedules/1"⟩) false,
    .destroy 1 (fun _ => spareFirst)
      [⟨⟨1, 1⟩, 1, 1, ⟨"0 0 * * * *", 1, "hourly"⟩⟩] (hourlySignals (.deleteApplication 1) true),
    .reap 1 [1] fun _ => true]

theorem store_valid_fullCycle : ∃ st, run Store.step .empty fullCycle = some st ∧ st.Valid := by
  have hrun : run Store.step .empty fullCycle = some _ := rfl
  exact ⟨_, hrun, store_valid hrun⟩

end Store

end ChaosLoris
