import ChaosLoris.Destruction
import ChaosLoris.Requests

/-!
# A run of the destroyer and the database

A run of the destroyer with requests that commit in between. An event is saved or refused by the
store as it is at that moment, so a `DELETE` of a chaos makes the save of its event fail.

A call of `terminateInstance` that has completed is recorded when the event of its chaos is saved.
Until then it is only known to the run (`waiting`), and an error of any publisher of the run loses
it. The error cancels what is outstanding, but a call that has reached the platform may still
complete (`late`). `destructions_recorded` says that a run records what it has destroyed, exactly
if its error, if it has one, comes when nothing is waiting and no call completes after it;
`destruction_unrecorded` is a run that loses a call.
-/

namespace ChaosLoris

open FlatMap Runs

/-- The call of the index has been made and not been answered. -/
def Phase.isInFlight (i : ℕ) : Phase → Bool
  | .terminating _ range => (i, Call.inFlight) ∈ range.inners
  | _ => false

/-- `eventRepository.save(event)`. -/
def saveEvent (st : Store) (e : Event) : Option Store :=
  (Statement.insertEvent ⟨e.chaos.id, e.executedAt, e.totalInstanceCount⟩
    e.terminatedInstances).exec st

/-- The store after a call. There is none if the outcome of a save is not that of the database. -/
def persist (st : Store) : Effect → Option Store
  | .save e true => saveEvent st e
  | .save e false => if saveEvent st e = none then some st else none
  | _ => some st

def persistAll : List (ℕ × Effect) → Store → Option Store
  | [], st => some st
  | p :: ps, st => (persist st p.2).bind (persistAll ps)

structure Destruction where
  store : Store
  destroyer : Destroyer
  /-- The calls, by position and index, that completed after they had been cancelled. -/
  late : List (ℕ × ℕ)

inductive Destruction.Label
  | request (r : Request) (rollback : Bool)
  | signal (x : Signal ChaosSignal)
  | late (k i : ℕ)

/-- The call of the index `i` for the chaos at position `k` was outstanding when an error ended
the run, and the platform carries it out all the same. -/
def Destruction.CanBeLate (behave : Chaos → Behaviour) (s : Destruction) (k i : ℕ) : Prop :=
  s.destroyer.failed = true ∧ (k, i) ∉ s.late ∧ ∃ p ∈ s.destroyer.inners[k]?,
    (behave p.1).terminates i = true ∧ p.2.isInFlight i = true

instance (behave : Chaos → Behaviour) (s : Destruction) (k i : ℕ) :
    Decidable (s.CanBeLate behave k i) := inferInstanceAs (Decidable (_ ∧ _ ∧ ∃ p ∈ _, _))

/-- `run()` on `chaoses`, with the store `st`. -/
def Destruction.start (st : Store) (chaoses : List Chaos) : Destruction :=
  { store := st, destroyer := Destroyer.start chaoses, late := [] }

/-- A request is answered, the run takes a signal, or a cancelled call completes. -/
def Destruction.step (behave : Chaos → Behaviour) (s : Destruction) :
    Destruction.Label → Option (Destruction × List (ℕ × Effect))
  | .request r rollback => some ({ s with store := (r.respond rollback s.store).1 }, [])
  | .signal x =>
    (Destroyer.step behave s.destroyer x).bind fun p =>
      (persistAll p.2 s.store).map fun st => ({ s with store := st, destroyer := p.1 }, p.2)
  | .late k i =>
    if s.CanBeLate behave k i then some ({ s with late := s.late ++ [(k, i)] }, []) else none

/-- The signals of a run with requests in between. -/
def signals (xs : List Destruction.Label) : List (Signal ChaosSignal) :=
  xs.filterMap fun
    | .signal x => some x
    | _ => none

/-- The indices of the calls that complete without an error. The publisher of an index is at the
position of that index. -/
def completed (b : Behaviour) (ys : List ChaosSignal) : List ℕ :=
  ys.filterMap fun
    | .range (.inner i _) => if b.terminates i then some i else none
    | _ => none

/-- The call saves an event that lists the index. -/
def Effect.records (i : ℕ) : Effect → Bool
  | .save e true => i ∈ e.terminatedInstances
  | _ => false

/-- Every call that completed is listed in exactly one saved event of its chaos. -/
def Recorded (behave : Chaos → Behaviour) (chaoses : List Chaos)
    (xs : List (Signal ChaosSignal)) (late : List (ℕ × ℕ)) (log : List (ℕ × Effect)) : Prop :=
  ∀ k c, chaoses[k]? = some c →
    ∀ i, (i ∈ completed (behave c) (signalsOf k xs) ∨ (k, i) ∈ late) →
      (effectsOf k log).countP (Effect.records i) = 1

/-- The indices that have been terminated and are not recorded yet. -/
def Phase.waiting : Phase → List ℕ
  | .terminating _ range => range.emitted
  | .saving event => event.terminatedInstances
  | _ => []

/-- If the label is an error of a publisher, nothing is waiting to be recorded, and no call
completes after an error. -/
def NothingLost (behave : Chaos → Behaviour) (p : Destruction × List (ℕ × Effect)) :
    Destruction.Label → Prop
  | .request _ _ => True
  | .signal x =>
    (errorAt behave p.1.destroyer x).isSome → ∀ q ∈ p.1.destroyer.inners, q.2.waiting = []
  | .late _ _ => False

instance (behave : Chaos → Behaviour) (p : Destruction × List (ℕ × Effect)) :
    ∀ x, Decidable (NothingLost behave p x)
  | .request _ _ => inferInstanceAs (Decidable True)
  | .signal x => inferInstanceAs (Decidable ((errorAt behave p.1.destroyer x).isSome → _))
  | .late _ _ => inferInstanceAs (Decidable False)

/-! ## One chaos -/

section Publisher

variable {c : Chaos} {b : Behaviour} {u : Phase} {l : List Effect} {ys : List ChaosSignal}

/-- What a publisher knows of the calls that have completed. -/
def Knows (b : Behaviour) (ys : List ChaosSignal) (l : List Effect) : Phase → Prop
  | .counting => completed b ys = []
  | .terminating _ range => completed b ys = range.emitted
  | .saving event => completed b ys = event.terminatedInstances
  | .saved event => completed b ys = event.terminatedInstances
  | .failed => completed b ys = [] ∨
      ∃ event, Effect.save event false ∈ l ∧ completed b ys = event.terminatedInstances

theorem completed_append (b : Behaviour) (ys zs : List ChaosSignal) :
    completed b (ys ++ zs) = completed b ys ++ completed b zs := List.filterMap_append

theorem knows_collectList {n : ℕ} {r : Range} (h : completed b ys = r.emitted) :
    Knows b ys l (collectList c b n r) := by
  unfold collectList
  split_ifs
  · exact h
  · exact h

theorem emitted_step {n : ℕ} {r r' : Range} {m fs : List (ℕ × Effect)} {y : Signal Unit}
    (hr : RangeRun c b n r m)
    (hy : FlatMap.step (terminateIndex c b) concurrency r y = some (r', fs)) :
    r'.emitted = r.emitted ++ completed b [.range y] := by
  obtain ⟨-, ⟨i, rest, rfl, -, -, rfl, -⟩ | ⟨k, z, i, v, v', gs, rfl, hk, hv, hz, rfl, -⟩⟩ :=
    FlatMap.step_cases hy
  · show r.emitted ++ _ = r.emitted ++ _
    congr 1
    simp only [terminateIndex, completed]
    cases b.fate r.inners.length <;> rfl
  · obtain ⟨rfl, -, -⟩ := hr.inner hk
    show r.emitted ++ _ = r.emitted ++ _
    congr 1
    cases v <;> simp [terminateIndex] at hv
    simp only [terminateIndex, Option.some.injEq, Prod.mk.injEq] at hz
    obtain ⟨rfl, -⟩ := hz
    cases ht : b.terminates i <;> simp [terminateIndex, completed, ht, Verdict.out]

theorem knows_run (hrun : run (logged (terminateStep c b)) (terminateStart c) ys = some (u, l)) :
    Knows b ys l u := by
  induction ys using List.reverseRecOn generalizing u l with
  | nil =>
    obtain ⟨rfl, rfl⟩ : Phase.counting = u ∧ _ = l := by simpa [terminateStart] using hrun
    rfl
  | append_singleton ys y ih =>
    obtain ⟨v, m, es, hpre, hy, rfl⟩ := run_logged_snoc.mp hrun
    have hv := ih hpre
    have htracks := tracks_run hpre
    obtain ⟨rfl, rfl, -, rfl, -⟩ | ⟨n, rfl, rfl, -, rfl, -⟩ |
      ⟨n, r, z, r', fs, rfl, rfl, hz, rfl, -⟩ | ⟨event, ok, rfl, rfl, rfl, rfl⟩ :=
      terminateStep_cases hy
    · left
      rw [completed_append]
      exact congrArg (· ++ []) hv
    · refine knows_collectList ?_
      rw [completed_append]
      exact congrArg (· ++ []) hv
    · cases htracks with
      | terminating hn hr hs =>
        refine knows_collectList ?_
        rw [completed_append, emitted_step hr hz]
        exact congrArg (· ++ _) hv
    · have hsame : completed b (ys ++ [.save ok]) = event.terminatedInstances := by
        rw [completed_append]
        exact (List.append_nil _).trans hv
      cases ok with
      | true => exact hsame
      | false => exact Or.inr ⟨event, by simp, hsame⟩

end Publisher

/-! ## The run -/

section Run

variable {behave : Chaos → Behaviour} {chaoses : List Chaos} {st : Store} {s t : Destruction}
  {log : List (ℕ × Effect)} {xs : List Destruction.Label} {x : Destruction.Label}
  {es : List (ℕ × Effect)}

/-- The destroyer gets from `run()` on `chaoses`, begun with the store `st`, to the state `s`. -/
def DestructionRun (behave : Chaos → Behaviour) (st : Store) (chaoses : List Chaos)
    (xs : List Destruction.Label) (s : Destruction) (log : List (ℕ × Effect)) : Prop :=
  run (logged (Destruction.step behave)) (.start st chaoses, []) xs = some (s, log)

theorem Destruction.step_cases (h : s.step behave x = some (t, es)) :
    (∃ r rollback, x = .request r rollback ∧
      t = { s with store := (r.respond rollback s.store).1 } ∧ es = []) ∨
    (∃ y, x = .signal y ∧ Destroyer.step behave s.destroyer y = some (t.destroyer, es) ∧
      persistAll es s.store = some t.store ∧ t.late = s.late) ∨
    ∃ k i, x = .late k i ∧ s.CanBeLate behave k i ∧ t = { s with late := s.late ++ [(k, i)] } ∧
      es = [] := by
  cases x with
  | request r rollback =>
    obtain ⟨rfl, rfl⟩ := Prod.mk.inj (Option.some.inj h)
    exact Or.inl ⟨r, rollback, rfl, rfl, rfl⟩
  | signal y =>
    obtain ⟨⟨d, fs⟩, hd, h⟩ := Option.bind_eq_some_iff.mp h
    obtain ⟨st, hst, h⟩ := Option.map_eq_some_iff.mp h
    obtain ⟨rfl, rfl⟩ := Prod.mk.inj h
    exact Or.inr (Or.inl ⟨y, rfl, hd, hst, rfl⟩)
  | late k i =>
    simp only [Destruction.step, Option.ite_none_right_eq_some, Option.some.injEq,
      Prod.mk.injEq] at h
    obtain ⟨hlate, rfl, rfl⟩ := h
    exact Or.inr (Or.inr ⟨k, i, rfl, hlate, rfl, rfl⟩)

theorem signals_append (xs ys : List Destruction.Label) :
    signals (xs ++ ys) = signals xs ++ signals ys := List.filterMap_append

theorem DestructionRun.destroyer_run (h : DestructionRun behave st chaoses xs s log) :
    DestroyerRun behave chaoses (signals xs) s.destroyer log := by
  induction xs using List.reverseRecOn generalizing s log with
  | nil =>
    obtain ⟨rfl, rfl⟩ : _ = s ∧ [] = log := by simpa [DestructionRun] using h
    rfl
  | append_singleton xs x ih =>
    obtain ⟨u, l, es, hpre, hx, rfl⟩ := run_logged_snoc.mp h
    rw [signals_append]
    obtain ⟨r, rollback, rfl, rfl, rfl⟩ | ⟨y, rfl, hd, -, -⟩ | ⟨k, i, rfl, -, rfl, rfl⟩ :=
      Destruction.step_cases hx
    · show DestroyerRun behave chaoses (signals xs ++ []) u.destroyer (l ++ [])
      rw [List.append_nil, List.append_nil]
      exact ih hpre
    · exact run_logged_snoc.mpr ⟨_, _, es, ih hpre, hd, rfl⟩
    · show DestroyerRun behave chaoses (signals xs ++ []) u.destroyer (l ++ [])
      rw [List.append_nil, List.append_nil]
      exact ih hpre

theorem DestructionRun.knows (h : DestructionRun behave st chaoses xs s log) {k : ℕ} {c : Chaos}
    {u : Phase} (hk : s.destroyer.inners[k]? = some (c, u)) :
    Knows (behave c) (signalsOf k (signals xs)) (effectsOf k log) u :=
  knows_run (h.destroyer_run.publisher_run hk)

theorem DestructionRun.subscribed (h : DestructionRun behave st chaoses xs s log) {k i : ℕ}
    {c : Chaos} (hk : chaoses[k]? = some c)
    (hi : i ∈ completed (behave c) (signalsOf k (signals xs))) :
    ∃ u, s.destroyer.inners[k]? = some (c, u) := by
  obtain ⟨c', u, hu, hc⟩ := h.destroyer_run.exists_publisher (Or.inl fun hnil => by
    rw [hnil] at hi
    exact List.not_mem_nil hi)
  obtain rfl : c' = c := Option.some.inj (hc.symm.trans hk)
  exact ⟨u, hu⟩

/-- Of the calls of a chaos only the saves record anything. -/
theorem countP_records (i : ℕ) (l : List Effect) :
    l.countP (Effect.records i) = (l.filter Effect.isSave).countP (Effect.records i) := by
  rw [List.countP_filter]
  refine List.countP_congr fun f _ => ?_
  cases f <;> simp [Effect.records, Effect.isSave]

theorem saved_of_records {c : Chaos} {b : Behaviour} {u : Phase} {l : List Effect} {i : ℕ}
    (h : Tracks c b u l) (hi : l.countP (Effect.records i) ≠ 0) : ∃ e, u = .saved e := by
  rw [countP_records] at hi
  by_cases hrun : u.verdict = .running
  · rw [h.filter_isSave_of_running hrun] at hi
    exact absurd rfl hi
  · obtain ⟨-, -, rfl⟩ | ⟨n, e, ok, -, rfl, -, hfilter, -⟩ := h.summary hrun
    · exact absurd rfl hi
    · rw [hfilter] at hi
      cases ok with
      | true => exact ⟨e, rfl⟩
      | false => exact absurd rfl hi

theorem records_of_saved {c : Chaos} {b : Behaviour} {e : Event} {l : List Effect} {i : ℕ}
    (h : Tracks c b (.saved e) l) (hi : i ∈ e.terminatedInstances) :
    l.countP (Effect.records i) = 1 := by
  obtain ⟨-, hu, -⟩ | ⟨n, e', ok, -, hu, -, hfilter, -⟩ := h.summary (by simp [Phase.verdict])
  · cases hu
  · cases ok with
    | false => cases hu
    | true =>
      obtain rfl : e = e' := by simpa using hu
      rw [countP_records, hfilter]
      simp [Effect.records, hi]

theorem refused_save {d d' : Destroyer} {y : Signal ChaosSignal} {k : ℕ} {e : Event}
    (hd : Destroyer.step behave d y = some (d', es)) (he : (k, Effect.save e false) ∈ es) :
    ∃ c, d.inners[k]? = some (c, .saving e) ∧ y = .inner k (.save false) := by
  obtain ⟨-, ⟨a, rest, -, -, -, -, rfl⟩ | ⟨j, z, a, w, w', fs, rfl, hj, -, hz, -, rfl⟩⟩ :=
    FlatMap.step_cases (step_flatMap hd)
  · simp [terminate, terminateStart] at he
  · obtain ⟨f, hf, he⟩ := List.mem_map.mp he
    obtain ⟨rfl, rfl⟩ := Prod.mk.inj he
    obtain ⟨-, -, -, -, rfl⟩ | ⟨n, -, -, -, -, rfl⟩ | ⟨n, r, z', r', gs, -, -, hz', -, rfl⟩ |
      ⟨event, ok, rfl, rfl, -, rfl⟩ := terminateStep_cases hz
    · exact absurd hf List.not_mem_nil
    · exact absurd hf List.not_mem_nil
    · obtain ⟨p, hp, hpe⟩ := List.mem_map.mp hf
      have hnot := isSave_of_range_step hz' p hp
      rw [hpe] at hnot
      cases hnot
    · obtain ⟨rfl, rfl⟩ : e = event ∧ false = ok := by simpa using hf
      exact ⟨a, hj, rfl⟩

/-- Along a run that loses nothing, nothing is waiting after an error, no call completes after it,
and an event that could not be saved is empty. -/
theorem nothing_waiting (h : DestructionRun behave st chaoses xs s log)
    (hsafe : Along (logged (Destruction.step behave)) (NothingLost behave)
      (.start st chaoses, []) xs) :
    (s.destroyer.failed = true → ∀ q ∈ s.destroyer.inners, q.2.waiting = []) ∧ s.late = [] ∧
      ∀ k e, (k, Effect.save e false) ∈ log → e.terminatedInstances = [] := by
  refine run_inv_along (P := fun p : Destruction × List (ℕ × Effect) =>
    (p.1.destroyer.failed = true → ∀ q ∈ p.1.destroyer.inners, q.2.waiting = []) ∧
      p.1.late = [] ∧ ∀ k e, (k, Effect.save e false) ∈ p.2 → e.terminatedInstances = []) ?_
    hsafe h ⟨by simp [Destruction.start, Destroyer.start, State.init], rfl, by simp⟩
  rintro ⟨u, l⟩ x ⟨v, m⟩ hC hstep ⟨hwait, hlate, hlog⟩
  obtain ⟨es, hx, rfl⟩ := logged_eq_some.mp hstep
  obtain ⟨r, rollback, rfl, rfl, rfl⟩ | ⟨y, rfl, hd, -, hsame⟩ | ⟨k, i, rfl, -⟩ :=
    Destruction.step_cases hx
  · exact ⟨hwait, hlate, by simpa using hlog⟩
  · have hlost : (errorAt behave u.destroyer y).isSome →
        ∀ q ∈ u.destroyer.inners, q.2.waiting = [] := hC
    refine ⟨?_, hsame.trans hlate, ?_⟩
    · intro hf q hq
      obtain ⟨j, c, w, hj, -, hinners⟩ := failed_step hd hf
      rw [hinners] at hq
      rcases List.mem_or_eq_of_mem_set hq with hq | rfl
      · exact hlost (by rw [hj]; rfl) q hq
      · rfl
    · intro k e he
      rcases List.mem_append.mp he with he | he
      · exact hlog k e he
      · obtain ⟨w, hj, rfl⟩ := refused_save hd he
        exact hlost rfl (w, .saving e) (List.mem_of_getElem? hj)
  · exact hC.elim

theorem recorded_of_safe (h : DestructionRun behave st chaoses xs s log)
    (hend : s.destroyer.Ended (terminate behave))
    (hsafe : Along (logged (Destruction.step behave)) (NothingLost behave)
      (.start st chaoses, []) xs) :
    Recorded behave chaoses (signals xs) s.late log := by
  obtain ⟨hwait, hlate, hlog⟩ := nothing_waiting h hsafe
  rintro k c hk i (hi | hi)
  · obtain ⟨u, hu⟩ := h.subscribed hk hi
    have hknows := h.knows hu
    have hidle : u.verdict = .running → u.waiting = [] := by
      intro hrun
      rcases hend with hf | ⟨-, hact⟩
      · exact hwait hf _ (List.mem_of_getElem? hu)
      · exact absurd hrun (active_eq_zero.mp hact _ (List.mem_of_getElem? hu))
    cases u with
    | counting => exact absurd (hknows ▸ hi) List.not_mem_nil
    | terminating n r =>
      rw [show completed _ _ = r.emitted from hknows, show r.emitted = [] from hidle rfl] at hi
      exact absurd hi List.not_mem_nil
    | saving e =>
      rw [show completed _ _ = e.terminatedInstances from hknows,
        show e.terminatedInstances = [] from hidle rfl] at hi
      exact absurd hi List.not_mem_nil
    | saved e =>
      rw [show completed _ _ = e.terminatedInstances from hknows] at hi
      exact records_of_saved (h.destroyer_run.tracks hu) hi
    | failed =>
      rcases hknows with hnil | ⟨e, he, hsame⟩
      · rw [hnil] at hi
        exact absurd hi List.not_mem_nil
      · rw [hsame, hlog k e (mem_effectsOf.mp he)] at hi
        exact absurd hi List.not_mem_nil
  · rw [hlate] at hi
    exact absurd hi List.not_mem_nil

/-- Once a run of the destroyer has ended, its publishers stay as they are, and the calls that
completed late stay on the list. -/
theorem of_ended {p q : Destruction × List (ℕ × Effect)}
    (hrun : run (logged (Destruction.step behave)) p xs = some q)
    (hend : p.1.destroyer.Ended (terminate behave)) :
    q.1.destroyer = p.1.destroyer ∧ p.1.late ⊆ q.1.late := by
  refine run_inv (P := fun r => r.1.destroyer = p.1.destroyer ∧ p.1.late ⊆ r.1.late) ?_ hrun
    ⟨rfl, List.Subset.refl _⟩
  rintro ⟨r, l⟩ x ⟨r', l'⟩ hstep ⟨hr, hlate⟩
  obtain ⟨es, hx, -⟩ := logged_eq_some.mp hstep
  obtain ⟨_, _, -, rfl, -⟩ | ⟨y, -, hd, -⟩ | ⟨k, i, -, -, rfl, -⟩ := Destruction.step_cases hx
  · exact ⟨hr, hlate⟩
  · rw [hr, stuck_of_ended hend] at hd
    cases hd
  · exact ⟨hr, List.subset_append_of_subset_left _ hlate⟩

theorem Knows.of_waiting {b : Behaviour} {ys : List ChaosSignal} {l : List Effect} {u : Phase}
    {i : ℕ} (h : Knows b ys l u) (hi : i ∈ u.waiting) : i ∈ completed b ys := by
  cases u with
  | terminating n r => exact (show completed b ys = r.emitted from h) ▸ hi
  | saving e => exact (show completed b ys = e.terminatedInstances from h) ▸ hi
  | counting => exact absurd hi List.not_mem_nil
  | saved e => exact absurd hi List.not_mem_nil
  | failed => exact absurd hi List.not_mem_nil

/-- A run that has recorded everything has no error while something is waiting. -/
theorem no_error_of_recorded (h : DestructionRun behave st chaoses xs s log)
    (hrec : Recorded behave chaoses (signals xs) s.late log) {ys zs : List Destruction.Label}
    {y : Signal ChaosSignal} (hxs : xs = ys ++ .signal y :: zs) {u : Destruction}
    {l : List (ℕ × Effect)} (hpre : DestructionRun behave st chaoses ys u l)
    (herr : (errorAt behave u.destroyer y).isSome) :
    ∀ q ∈ u.destroyer.inners, q.2.waiting = [] := by
  subst hxs
  obtain ⟨j, hj⟩ := Option.isSome_iff_exists.mp herr
  obtain ⟨p, ⟨v, m⟩, hp, hx, hpost⟩ := run_middle.mp h
  obtain rfl : (u, l) = p := Option.some.inj (hpre.symm.trans hp)
  obtain ⟨es, hx, -⟩ := logged_eq_some.mp hx
  obtain ⟨_, _, hreq, -⟩ | ⟨y', hy, hd, -⟩ | ⟨_, _, hlate, -⟩ := Destruction.step_cases hx
  · cases hreq
  · obtain rfl : y = y' := by simpa using hy
    have hf := failed_of_errorAt hd hj
    obtain ⟨hfinal, -⟩ := of_ended hpost (Or.inl hf)
    obtain ⟨j', c, w, -, -, hinners⟩ := failed_step hd hf
    rintro ⟨c', w'⟩ hq
    rw [List.eq_nil_iff_forall_not_mem]
    intro i hi
    obtain ⟨k, hk⟩ := List.mem_iff_getElem?.mp hq
    have hchaos := hpre.destroyer_run.account.getElem? hk
    have hdone : i ∈ completed (behave c') (signalsOf k (signals (ys ++ .signal y :: zs))) := by
      rw [signals_append, signalsOf_append, completed_append]
      exact List.mem_append_left _ ((hpre.knows hk).of_waiting hi)
    have hone := hrec k c' hchaos i (Or.inl hdone)
    -- the publisher is where the error has found it, or it has failed
    obtain ⟨w'', hk', hw⟩ : ∃ w'', s.destroyer.inners[k]? = some (c', w'') ∧
        (w'' = w' ∨ w'' = .failed) := by
      obtain ⟨w'', hw''⟩ := h.subscribed hchaos hdone
      refine ⟨w'', hw'', ?_⟩
      rw [hfinal, hinners] at hw''
      by_cases hkj : j' = k
      · subst hkj
        rw [List.getElem?_set_self (List.getElem?_eq_some_iff.mp hk).1] at hw''
        exact Or.inr (Prod.mk.inj (Option.some.inj hw'')).2.symm
      · rw [List.getElem?_set_ne hkj, hk] at hw''
        exact Or.inl (Prod.mk.inj (Option.some.inj hw'')).2.symm
    obtain ⟨e, rfl⟩ := saved_of_records (h.destroyer_run.tracks hk') (by rw [hone]; simp)
    rcases hw with rfl | hw
    · exact absurd hi List.not_mem_nil
    · cases hw
  · cases hlate

/-- A call that completes late is not recorded. -/
theorem not_recorded_of_late (h : DestructionRun behave st chaoses xs s log)
    {ys zs : List Destruction.Label} {k i : ℕ} (hxs : xs = ys ++ .late k i :: zs) :
    ¬ Recorded behave chaoses (signals xs) s.late log := by
  subst hxs
  intro hrec
  obtain ⟨⟨u, l⟩, ⟨v, m⟩, hpre, hx, hpost⟩ := run_middle.mp h
  obtain ⟨es, hx, -⟩ := logged_eq_some.mp hx
  obtain ⟨_, _, hreq, -⟩ | ⟨_, hsignal, -⟩ | ⟨k', i', hlabel, hcan, hv, -⟩ :=
    Destruction.step_cases hx
  · cases hreq
  · cases hsignal
  · obtain ⟨rfl, rfl⟩ : k = k' ∧ i = i' := by simpa using hlabel
    obtain ⟨hf, -, ⟨c, w⟩, hk, -, hflight⟩ := hcan
    obtain rfl : v = _ := hv
    obtain ⟨hfinal, hsub⟩ := of_ended hpost (Or.inl hf)
    have hk' : s.destroyer.inners[k]? = some (c, w) := (congrArg (·.inners[k]?) hfinal).trans hk
    have hone := hrec k c (h.destroyer_run.account.getElem? hk') i (Or.inr (hsub (by simp)))
    obtain ⟨e, rfl⟩ := saved_of_records (h.destroyer_run.tracks hk') (by rw [hone]; simp)
    cases hflight

theorem safe_of_recorded (h : DestructionRun behave st chaoses xs s log)
    (hrec : Recorded behave chaoses (signals xs) s.late log) :
    Along (logged (Destruction.step behave)) (NothingLost behave)
      (.start st chaoses, []) xs := by
  rw [along_iff h]
  rintro ys x zs ⟨u, l⟩ hxs hpre
  cases x with
  | request r rollback => trivial
  | signal y => exact no_error_of_recorded h hrec hxs hpre
  | late k i => exact not_recorded_of_late h hxs hrec

/-- **What is destroyed is recorded, unless an error comes first.** In a run that has ended, every
call that completed is listed in exactly one saved event of its chaos if and only if the error of
the run, if it had one, came when nothing was waiting to be recorded, and no call completed after
it. -/
theorem destructions_recorded (h : DestructionRun behave st chaoses xs s log)
    (hstuck : ∀ y, Destroyer.step behave s.destroyer y = none) :
    Recorded behave chaoses (signals xs) s.late log ↔
      Along (logged (Destruction.step behave)) (NothingLost behave)
        (.start st chaoses, []) xs :=
  ⟨safe_of_recorded h, recorded_of_safe h (h.destroyer_run.ended hstuck)⟩

end Run

/-- The store with the schedule, the application and the row of `hourlyChaos 1`. -/
def chaosStore : Store :=
  { Store.empty with
    schedule := Keyed.Table.empty.insert ⟨"hourly", "0 0 * * * *"⟩
    application := Keyed.Table.empty.insert ⟨1⟩
    chaos := Keyed.Table.empty.insert ⟨1, 1 / 2, 1⟩ }

/-- The event of `hourlyChaos 1` when the second of its two instances is terminated. -/
def hourlyEvent : Event := Event.new (hourlyChaos 1) 0 [1] 2

/-- A run on `hourlyChaos 1` with a request in between, up to its save. -/
def hourlySignals (request : Request) (ok : Bool) : List Destruction.Label :=
  [.signal .pull, .signal (.inner 0 .instanceCount), .signal (.inner 0 (.range .pull)),
    .signal (.inner 0 (.range .pull)), .request request false,
    .signal (.inner 0 (.range (.inner 1 ()))), .signal (.inner 0 (.save ok))]

/-- The calls of that run. -/
def hourlyCalls (ok : Bool) : List (ℕ × Effect) :=
  [(0, .getInstanceCount (hourlyChaos 1).application), (0, .getFate (hourlyChaos 1) 0),
    (0, .getFate (hourlyChaos 1) 1), (0, .terminateInstance (hourlyChaos 1).application 1),
    (0, .save hourlyEvent ok)]

theorem destructions_recorded_hourly :
    Recorded (fun _ => spareFirst) [hourlyChaos 1]
      (signals (hourlySignals (.deleteApplication 1) true)) [] (hourlyCalls true) := by
  have hrun : DestructionRun (fun _ => spareFirst) chaosStore [hourlyChaos 1]
      (hourlySignals (.deleteApplication 1) true)
      ⟨{ chaosStore with
          event := Keyed.Table.empty.insert ⟨1, 0, 2⟩
          eventTerminatedInstances := [(1, 1)] },
        ⟨[], [(hourlyChaos 1, .saved hourlyEvent)], [hourlyEvent], false⟩, []⟩
      (hourlyCalls true) := rfl
  exact (destructions_recorded hrun (stuck_of_ended (by decide))).mpr (by decide)

/-- A run that loses a call: the chaos is deleted before its event is saved. -/
theorem destruction_unrecorded :
    ¬ ∀ (behave : Chaos → Behaviour) (st : Store) (chaoses : List Chaos)
        (xs : List Destruction.Label) (s : Destruction) (log : List (ℕ × Effect)),
      DestructionRun behave st chaoses xs s log →
      (∀ y, Destroyer.step behave s.destroyer y = none) →
      Recorded behave chaoses (signals xs) s.late log := by
  intro h
  have hrun : DestructionRun (fun _ => spareFirst) chaosStore [hourlyChaos 1]
      (hourlySignals (.deleteChaos 1) false)
      ⟨{ chaosStore with chaos := chaosStore.chaos.delete 1 },
        ⟨[], [(hourlyChaos 1, .failed)], [], true⟩, []⟩
      (hourlyCalls false) := rfl
  have hrec := h _ _ _ _ _ _ hrun (stuck_of_ended (by decide)) 0 (hourlyChaos 1) rfl 1
    (Or.inl (by decide))
  exact absurd hrec (by decide)

end ChaosLoris
