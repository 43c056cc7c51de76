import Mathlib.Data.Int.ConditionallyCompleteOrder
import Mathlib.Data.Set.Function
import ChaosLoris.Identity

/-!
# The events as an audit trail

Whatever runs at the same time, the ids of events that have been handed out and the calls of `save`
that have succeeded are in one-to-one correspondence, and an event that is stored says what the run
that saved it has done: to which chaos, at what time, of how many instances, and exactly which of
them it has terminated (`audit_trail`). No event is made up, none is recorded twice, and none is
changed afterwards.
-/

namespace ChaosLoris

open FlatMap Keyed Runs

/-- The execution `q.1` has saved an event for its chaos at the position `q.2`. -/
def System.Saved (s : System) (q : ℕ × ℕ) (event : Event) : Prop :=
  ∃ e, s.executions[q.1]? = some e ∧ (q.2, Effect.save event true) ∈ e.log

/-- Each id of an event that has been handed out is that of one call of `save`. -/
structure System.Audited (s : System) (origin : Id → ℕ × ℕ) : Prop where
  injOn : Set.InjOn origin (Set.Ico 1 s.store.event.next)
  saved : ∀ i ∈ Set.Ico 1 s.store.event.next, ∃ event, s.Saved (origin i) event ∧
    ∀ row, s.store.event.find i = some row →
      row = ⟨event.chaos.id, event.executedAt, event.totalInstanceCount⟩ ∧
        ∀ n, (i, n) ∈ s.store.eventTerminatedInstances ↔ n ∈ event.terminatedInstances
  complete : ∀ q event, s.Saved q event → ∃ i ∈ Set.Ico 1 s.store.event.next, origin i = q

/-! ## Who hands out the ids of events -/

section Next

variable {st st' snapshot : Store} {s : Statement} {r : Request}

theorem exec_event_next (hs : ∀ row l, s ≠ .insertEvent row l) (hexec : s.exec st = some st') :
    st'.event.next = st.event.next := by
  cases exec_eq_some.mp hexec with
  | insertEvent row l _ _ => exact absurd rfl (hs row l)
  | _ => rfl

theorem Request.Issues.ne_insertEvent (h : r.Issues snapshot s) (row : EventRow) (l : List ℕ) :
    s ≠ .insertEvent row l := by
  rintro rfl
  cases h

theorem respondFrom_event_next (r : Request) (rollback : Bool) (snapshot st : Store) :
    (r.respondFrom rollback snapshot st).1.event.next = st.event.next := by
  obtain hsame | ⟨s, hs, hexec, -⟩ := respondFrom_issues r rollback snapshot st
  · rw [hsame]
  · exact exec_event_next hs.ne_insertEvent hexec

end Next

/-! ## Saves of a destroyer -/

section Saves

variable {behave : Chaos → Behaviour} {d d' : Destroyer} {y : Signal ChaosSignal}
  {es : List (ℕ × Effect)} {st st' : Store} {event : Event}

theorem saves_of_step (hd : Destroyer.step behave d y = some (d', es)) :
    (∀ p ∈ es, p.2.isSave = false) ∨
      ∃ k c event ok, y = .inner k (.save ok) ∧ d.inners[k]? = some (c, .saving event) ∧
        es = [(k, .save event ok)] := by
  obtain ⟨-, ⟨a, rest, -, -, -, -, rfl⟩ | ⟨k, z, a, w, w', fs, rfl, hk, -, hz, -, rfl⟩⟩ :=
    FlatMap.step_cases (step_flatMap hd)
  · refine .inl fun p hp => ?_
    obtain ⟨f, hf, rfl⟩ := List.mem_map.mp hp
    obtain rfl := List.mem_singleton.mp hf
    rfl
  · obtain ⟨-, -, -, -, rfl⟩ | ⟨n, -, -, -, -, rfl⟩ | ⟨n, r, z', r', gs, -, -, hz', -, rfl⟩ |
      ⟨event, ok, rfl, rfl, -, rfl⟩ := terminateStep_cases hz
    · exact .inl fun p hp => absurd hp List.not_mem_nil
    · exact .inl fun p hp => absurd hp List.not_mem_nil
    · refine .inl fun p hp => ?_
      obtain ⟨f, hf, rfl⟩ := List.mem_map.mp hp
      obtain ⟨q, hq, rfl⟩ := List.mem_map.mp hf
      exact isSave_of_range_step hz' q hq
    · exact .inr ⟨k, a, event, ok, rfl, hk, rfl⟩

theorem persistAll_of_no_save (hes : ∀ p ∈ es, p.2.isSave = false)
    (h : persistAll es st = some st') : st' = st := by
  induction es with
  | nil => exact (Option.some.inj h).symm
  | cons p es ih =>
    obtain ⟨u, hp, h⟩ := Option.bind_eq_some_iff.mp h
    have hu : u = st := by
      have hnot := hes p List.mem_cons_self
      obtain ⟨k, f⟩ := p
      cases f with
      | save event ok => cases hnot
      | _ => exact (Option.some.inj hp).symm
    rw [hu] at h
    exact ih (fun q hq => hes q (List.mem_cons_of_mem _ hq)) h

theorem DestroyerRun.not_saved {chaoses : List Chaos} {xs : List (Signal ChaosSignal)}
    {log : List (ℕ × Effect)} {k : ℕ} {c : Chaos} (h : DestroyerRun behave chaoses xs d log)
    (hk : d.inners[k]? = some (c, .saving event)) (e : Event) (ok : Bool) :
    (k, Effect.save e ok) ∉ log := by
  intro he
  have hmem : Effect.save e ok ∈ (effectsOf k log).filter Effect.isSave :=
    List.mem_filter.mpr ⟨mem_effectsOf.mpr he, rfl⟩
  rw [(h.tracks hk).filter_isSave_of_running rfl] at hmem
  exact absurd hmem List.not_mem_nil

end Saves

/-! ## Steps -/

section Step

variable {accepts : String → Bool} {s t : System} {x : System.Label} {origin : Id → ℕ × ℕ}
  {q : ℕ × ℕ} {event : Event}

theorem System.Audited.saved_later (h : s.Audited origin) (hlater : s.store.Later t.store) {i : Id}
    (hi : i ∈ Set.Ico 1 s.store.event.next) : ∃ event, s.Saved (origin i) event ∧
      ∀ row, t.store.event.find i = some row →
        row = ⟨event.chaos.id, event.executedAt, event.totalInstanceCount⟩ ∧
          ∀ n, (i, n) ∈ t.store.eventTerminatedInstances ↔ n ∈ event.terminatedInstances := by
  obtain ⟨event, hevent, hrow⟩ := h.saved i hi
  refine ⟨event, hevent, fun row hr => ?_⟩
  obtain ⟨_, hr', rfl⟩ := hlater.event.kept i row hi.2 hr
  obtain ⟨heq, hmem⟩ := hrow _ hr'
  refine ⟨heq, fun n => ?_⟩
  rw [hlater.terminatedInstances i n hi.2 (Option.isSome_of_eq_some hr)]
  exact hmem n

/-- Where no id is handed out and nothing is saved, the trail stays. -/
theorem System.Audited.keep (h : s.Audited origin) (hlater : s.store.Later t.store)
    (hnext : t.store.event.next = s.store.event.next)
    (hsaved : ∀ q event, t.Saved q event ↔ s.Saved q event) : t.Audited origin where
  injOn := hnext ▸ h.injOn
  saved := by
    rw [hnext]
    intro i hi
    obtain ⟨event, hevent, hrow⟩ := h.saved_later hlater hi
    exact ⟨event, (hsaved _ _).mpr hevent, hrow⟩
  complete q event hq := by
    rw [hnext]
    exact h.complete q event ((hsaved q event).mp hq)

theorem saveEvent_spec {st st' : Store} (hst : st.Valid) (hsave : saveEvent st event = some st') :
    st'.event.next = st.event.next + 1 ∧
      st'.event.find st.event.next =
        some ⟨event.chaos.id, event.executedAt, event.totalInstanceCount⟩ ∧
      ∀ n, (st.event.next, n) ∈ st'.eventTerminatedInstances ↔ n ∈ event.terminatedInstances := by
  cases exec_eq_some.mp hsave with
  | insertEvent row l _ _ =>
    refine ⟨rfl, (Table.find_insert ..).trans (if_pos rfl), fun n => ?_⟩
    rw [List.mem_append]
    refine (or_iff_left fun hold => ?_).trans (by simp [terminatedRows])
    obtain ⟨r, hr, -⟩ := hst.terminatedInstances.permitted _ hold
    exact ne_next hr rfl

/-- Where an event is saved, its id is that of the save. -/
theorem System.Audited.save (h : s.Audited origin) (hst : s.store.Valid)
    (hnumbered : s.store.Numbered) (hsave : saveEvent s.store event = some t.store)
    (hnew : ∀ e, ¬ s.Saved q e)
    (hsaved : ∀ q' e, t.Saved q' e ↔ s.Saved q' e ∨ q' = q ∧ e = event) :
    t.Audited (Function.update origin s.store.event.next q) := by
  have hlater : s.store.Later t.store := exec_later (s := .insertEvent _ _) trivial hsave
  obtain ⟨hnext, hfind, hmem⟩ := saveEvent_spec hst hsave
  have hpos : 1 ≤ s.store.event.next := hnumbered.event.next_pos
  -- an id is an old one or the new one
  have hcases : ∀ i ∈ Set.Ico 1 t.store.event.next,
      i ∈ Set.Ico 1 s.store.event.next ∧ Function.update origin s.store.event.next q i = origin i ∨
        i = s.store.event.next ∧ Function.update origin s.store.event.next q i = q := by
    rintro i ⟨h1, h2⟩
    rw [hnext] at h2
    rcases (Int.lt_add_one_iff.mp h2).lt_or_eq with hlt | rfl
    · exact .inl ⟨⟨h1, hlt⟩, Function.update_of_ne hlt.ne _ _⟩
    · exact .inr ⟨rfl, Function.update_self ..⟩
  have hfresh : ∀ i ∈ Set.Ico 1 s.store.event.next, origin i ≠ q := by
    rintro i hi rfl
    obtain ⟨e, he, -⟩ := h.saved i hi
    exact hnew e he
  refine ⟨fun i hi j hj hij => ?_, fun i hi => ?_, fun q' e hq' => ?_⟩
  · obtain ⟨hi, hoi⟩ | ⟨rfl, hoi⟩ := hcases i hi
    · obtain ⟨hj, hoj⟩ | ⟨rfl, hoj⟩ := hcases j hj
      · exact h.injOn hi hj (hoi.symm.trans (hij.trans hoj))
      · exact absurd (hoi.symm.trans (hij.trans hoj)) (hfresh i hi)
    · obtain ⟨hj, hoj⟩ | ⟨rfl, -⟩ := hcases j hj
      · exact absurd (hoj.symm.trans (hij.symm.trans hoi)) (hfresh j hj)
      · rfl
  · obtain ⟨hi, hoi⟩ | ⟨rfl, hoi⟩ := hcases i hi
    · obtain ⟨e, he, hrow⟩ := h.saved_later hlater hi
      rw [hoi]
      exact ⟨e, (hsaved _ _).mpr (.inl he), hrow⟩
    · rw [hoi]
      refine ⟨event, (hsaved _ _).mpr (.inr ⟨rfl, rfl⟩), fun row hrow => ?_⟩
      exact ⟨Option.some.inj (hrow.symm.trans hfind), hmem⟩
  · obtain hq' | ⟨rfl, -⟩ := (hsaved q' e).mp hq'
    · obtain ⟨i, hi, hoi⟩ := h.complete q' e hq'
      refine ⟨i, ⟨hi.1, hi.2.trans (by omega)⟩, ?_⟩
      rw [Function.update_of_ne hi.2.ne, hoi]
    · exact ⟨s.store.event.next, ⟨hpos, by omega⟩, Function.update_self ..⟩

theorem saved_signal {k : ℕ} {e : Execution} {d : Destroyer} {es : List (ℕ × Effect)}
    (hk : s.executions[k]? = some e)
    (ht : t.executions = s.executions.set k { e with destroyer := d, log := e.log ++ es }) :
    t.Saved q event ↔ s.Saved q event ∨ q.1 = k ∧ (q.2, Effect.save event true) ∈ es := by
  obtain ⟨j, p⟩ := q
  unfold System.Saved
  rw [ht]
  by_cases hj : j = k
  · subst hj
    have hlt := (List.getElem?_eq_some_iff.mp hk).1
    simp [hk, List.getElem?_set_self hlt]
  · simp [List.getElem?_set_ne (Ne.symm hj), hj]

theorem saved_query {e : Execution} (he : e.log = [])
    (ht : t.executions = s.executions ++ [e]) : t.Saved q event ↔ s.Saved q event := by
  unfold System.Saved
  rw [ht]
  by_cases hlt : q.1 < s.executions.length
  · rw [List.getElem?_append_left hlt]
  · have hnone : s.executions[q.1]? = none := List.getElem?_eq_none (not_lt.mp hlt)
    rw [List.getElem?_append_right (not_lt.mp hlt), List.getElem?_singleton, hnone]
    refine iff_of_false ?_ (by simp)
    rintro ⟨e', he', hmem⟩
    split_ifs at he'
    obtain rfl := Option.some.inj he'
    rw [he] at hmem
    exact absurd hmem List.not_mem_nil

theorem System.Audited.signal (ha : s.Audited origin) (hs : s.Sound)
    (hnumbered : s.store.Numbered) {k : ℕ} {e : Execution} {y : Signal ChaosSignal} {d : Destroyer}
    {es : List (ℕ × Effect)} (hk : s.executions[k]? = some e)
    (hd : Destroyer.step e.behave e.destroyer y = some (d, es))
    (hpersist : persistAll es s.store = some t.store)
    (ht : t.executions = s.executions.set k { e with destroyer := d, log := e.log ++ es }) :
    ∃ origin', t.Audited origin' := by
  have hlater := persistAll_later hpersist
  have hsaved : ∀ q event, t.Saved q event ↔
      s.Saved q event ∨ q.1 = k ∧ (q.2, Effect.save event true) ∈ es :=
    fun q event => saved_signal hk ht
  obtain ⟨xs, hrun⟩ := hs.executions e (List.mem_of_getElem? hk)
  obtain hnone | ⟨p, c, event, ok, -, hp, rfl⟩ := saves_of_step hd
  · have hstore := persistAll_of_no_save hnone hpersist
    refine ⟨origin, ha.keep hlater (by rw [hstore]) fun q event =>
      (hsaved q event).trans (or_iff_left ?_)⟩
    rintro ⟨-, hmem⟩
    exact absurd (hnone _ hmem) (by simp [Effect.isSave])
  · obtain ⟨u, hu, hpersist⟩ := Option.bind_eq_some_iff.mp hpersist
    rw [Option.some.inj hpersist] at hu
    cases ok with
    | false =>
      obtain ⟨-, hsame⟩ := Option.ite_none_right_eq_some.mp hu
      have hstore := Option.some.inj hsame
      refine ⟨origin, ha.keep hlater (by rw [hstore]) fun q event =>
        (hsaved q event).trans (or_iff_left ?_)⟩
      rintro ⟨-, hmem⟩
      simp at hmem
    | true =>
      refine ⟨_, ha.save (q := (k, p)) hs.store hnumbered hu ?_ fun q' e' => ?_⟩
      · rintro e' ⟨e₁, he₁, hmem⟩
        obtain rfl := Option.some.inj (hk.symm.trans he₁)
        exact hrun.not_saved hp e' true hmem
      · rw [hsaved q' e']
        simp [Prod.ext_iff, and_assoc]

theorem System.Audited.step (hs : s.Sound) (hreads : s.ReadsEarlier)
    (hnumbered : s.store.Numbered) (h : s.step accepts x = some t) (ha : s.Audited origin) :
    ∃ origin', t.Audited origin' := by
  have hlater := step_later hreads h
  obtain ⟨r, -, rfl⟩ | ⟨k, rollback, r, snapshot, -, -, hstore, -, hexecutions⟩ |
    ⟨y, -, handlers, rfl⟩ | ⟨id, behave, chaoses, -, -, rfl⟩ |
    ⟨k, y, e, d, es, st, -, hk, hd, hst, rfl⟩ | ⟨event, st, -, hst, rfl⟩ | ⟨-, rfl⟩ :=
    System.step_cases h
  · exact ⟨origin, ha.keep hlater rfl fun _ _ => Iff.rfl⟩
  · refine ⟨origin, ha.keep hlater ?_ fun q event => ?_⟩
    · rw [hstore]
      exact respondFrom_event_next r rollback snapshot s.store
    · unfold System.Saved
      rw [hexecutions]
  · exact ⟨origin, ha.keep hlater rfl fun _ _ => Iff.rfl⟩
  · exact ⟨origin, ha.keep hlater rfl fun q event => saved_query rfl rfl⟩
  · exact ha.signal hs hnumbered hk hd hst rfl
  · obtain rfl := Option.some.inj hst
    exact ⟨origin, ha.keep hlater rfl fun _ _ => Iff.rfl⟩
  · exact ⟨origin, ha.keep hlater rfl fun _ _ => Iff.rfl⟩

end Step

/-! ## Runs -/

section Run

variable {accepts : String → Bool} {s : System} {q : ℕ × ℕ} {event : Event}

theorem audited_init (origin : Id → ℕ × ℕ) : System.init.Audited origin where
  injOn := by
    rintro i ⟨h1, h2⟩
    exact absurd h2 (not_lt.mpr h1)
  saved i hi := absurd hi.2 (not_lt.mpr hi.1)
  complete := by
    rintro q event ⟨e, he, -⟩
    simp [System.init] at he

theorem audited_run {xs : List System.Label}
    (hrun : run (System.step accepts) .init xs = some s) : ∃ origin, s.Audited origin := by
  refine (run_inv (P := fun u => (u.Sound ∧ u.ReadsEarlier ∧ u.store.Numbered) ∧
    ∃ origin, u.Audited origin) ?_ hrun
    ⟨⟨sound_init, readsEarlier_init, numbered_empty_store⟩, fun _ => (0, 0), audited_init _⟩).2
  rintro u x v h ⟨⟨hu, hreads, hnumbered⟩, origin, ha⟩
  exact ⟨⟨sound_step hu h, readsEarlier_step hreads h, (step_evolves hu h).numbered hnumbered⟩,
    ha.step hu hreads hnumbered h⟩

/-- What has been saved is what has been done. -/
theorem System.Sound.saved (hs : s.Sound) (h : s.Saved q event) :
    ∃ e c, s.executions[q.1]? = some e ∧ e.chaoses[q.2]? = some c ∧ event.chaos = c ∧
      event.executedAt = (e.behave c).now ∧
      (e.behave c).instanceCount = some event.totalInstanceCount ∧
      (∀ n, n ∈ event.terminatedInstances ↔
        n < event.totalInstanceCount ∧ Destroyed (e.behave c) n) ∧
      ∀ a n, (effectsOf q.2 e.log).count (.terminateInstance a n) =
        if a = c.application ∧ n < event.totalInstanceCount ∧ (e.behave c).fate n = .thumbsDown
        then 1 else 0 := by
  obtain ⟨e, he, hmem⟩ := h
  obtain ⟨xs, hrun⟩ := hs.executions e (List.mem_of_getElem? he)
  have hsave : Effect.save event true ∈ effectsOf q.2 e.log := mem_effectsOf.mpr hmem
  obtain ⟨c, u, hu, hc⟩ := hrun.exists_publisher (.inr (List.ne_nil_of_mem hsave))
  have htracks := hrun.tracks hu
  have hfilter : Effect.save event true ∈ (effectsOf q.2 e.log).filter Effect.isSave :=
    List.mem_filter.mpr ⟨hsave, rfl⟩
  have hend : u.verdict ≠ .running := by
    intro hrunning
    rw [htracks.filter_isSave_of_running hrunning] at hfilter
    exact absurd hfilter List.not_mem_nil
  obtain ⟨-, -, hlog⟩ | ⟨n, e', ok, hn, -, hperm, honly, hchaos, hat, rfl, hterminated⟩ :=
    htracks.summary hend
  · rw [hlog] at hsave
    simp at hsave
  · rw [honly, List.mem_singleton] at hfilter
    obtain ⟨rfl, -⟩ := Effect.save.inj hfilter
    refine ⟨e, c, he, hc, hchaos, hat, hn, fun n => ?_, fun a n => ?_⟩
    · rw [hterminated.mem_iff, List.mem_filter, List.mem_range, decide_eq_true_iff]
    · rw [hperm.count_eq, List.count_append, List.count_cons, count_terminateInstance_range]
      simp

end Run

/-- **The events are an audit trail.** In every state that the system reaches, the ids of events
that have been handed out are in one-to-one correspondence with the saves that have succeeded, and
each event that is stored is what its save was given. So it names the chaos, the time and the number
of instances of the run, and it lists an instance exactly if the run has called `terminateInstance`
for it, which it does at most once, and the call has completed. `AUTO_INCREMENT` is taken to count
without gaps, so the ids handed out are those below the next one. -/
theorem audit_trail {accepts : String → Bool} {xs : List System.Label} {s : System}
    (hrun : run (System.step accepts) .init xs = some s) :
    ∃ origin : Id → ℕ × ℕ,
      Set.BijOn origin (Set.Ico 1 s.store.event.next) {q | ∃ event, s.Saved q event} ∧
      ∀ i row, s.store.event.find i = some row →
        ∃ e c, s.executions[(origin i).1]? = some e ∧ e.chaoses[(origin i).2]? = some c ∧
          row.chaosId = c.id ∧ row.executedAt = (e.behave c).now ∧
          (e.behave c).instanceCount = some row.totalInstanceCount ∧
          (∀ n, (i, n) ∈ s.store.eventTerminatedInstances ↔
            n < row.totalInstanceCount ∧ Destroyed (e.behave c) n) ∧
          ∀ a n, (effectsOf (origin i).2 e.log).count (.terminateInstance a n) =
            if a = c.application ∧ n < row.totalInstanceCount ∧ (e.behave c).fate n = .thumbsDown
            then 1 else 0 := by
  have hs := system_sound hrun
  have hnumbered := (system_evolves hrun).numbered numbered_empty_store
  obtain ⟨origin, ha⟩ := audited_run hrun
  refine ⟨origin, ⟨fun i hi => ?_, ha.injOn, ?_⟩, fun i row hrow => ?_⟩
  · obtain ⟨event, hevent, -⟩ := ha.saved i hi
    exact ⟨event, hevent⟩
  · rintro q ⟨event, hevent⟩
    exact ha.complete q event hevent
  · have hi : i ∈ Set.Ico 1 s.store.event.next :=
      ⟨hnumbered.event.pos i row hrow, Table.lt_of_find hrow⟩
    obtain ⟨event, hevent, hcontent⟩ := ha.saved i hi
    obtain ⟨rfl, hmem⟩ := hcontent row hrow
    obtain ⟨e, c, he, hc, hchaos, hat, hn, hterminated, hcalls⟩ := hs.saved hevent
    exact ⟨e, c, he, hc, congrArg Chaos.id hchaos, hat, hn,
      fun n => (hmem n).trans (hterminated n), hcalls⟩

/-- The event of `eventLabels` is that of the first chaos of the first run. -/
theorem audit_trail_event :
    ∃ s, run (System.step fun _ => true) .init eventLabels = some s ∧
      s.store.event.find 1 = some ⟨1, 0, 2⟩ ∧
      ∃ origin : Id → ℕ × ℕ,
        Set.BijOn origin (Set.Ico 1 s.store.event.next) {q | ∃ event, s.Saved q event} := by
  obtain ⟨s, hrun, hrow⟩ : ∃ s, run (System.step fun _ => true) .init eventLabels = some s ∧
      s.store.event.find 1 = some ⟨1, 0, 2⟩ := ⟨_, rfl, rfl⟩
  obtain ⟨origin, hbij, -⟩ := audit_trail hrun
  exact ⟨s, hrun, hrow, origin, hbij⟩

end ChaosLoris
