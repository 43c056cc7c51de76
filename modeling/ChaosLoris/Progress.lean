import ChaosLoris.CloudFoundryPlatform

/-!
# Runs of the destroyer come to an end

Nothing in a run waits for anything but the answers of the platform and of the store, so a run takes
a bounded number of signals, and it can always be brought to its end (`destroyer_runs_end`). What is
never answered holds up only what waits for it, as long as it does not fill a `flatMap`: other
chaoses save their events (`hung_chaoses_are_isolated`), and the other instances of a chaos are
terminated, but its event is not saved (`hung_terminations_are_isolated`). However many chaoses and
instances there are, the platform has only so many requests to answer (`load_is_bounded`).
-/

namespace ChaosLoris

open FlatMap Runs

variable {behave : Chaos → Behaviour} {chaoses : List Chaos} {d d' : Destroyer}
  {log : List (ℕ × Effect)} {xs : List (Signal ChaosSignal)} {k : ℕ} {c : Chaos} {u : Phase}

/-- The signals for a chaos, at most: its subscription, its count, two for each index and its save.
-/
def signalBound (b : Behaviour) : ℕ := 2 * b.instanceCount.getD 0 + 3

/-- The signals that can still come in a run, at most. -/
def destroyerWeight (behave : Chaos → Behaviour) (d : Destroyer) : ℕ :=
  weight (fun c => signalBound (behave c)) (fun c u => phaseWeight (behave c) u) d

theorem destroyerWeight_start (behave : Chaos → Behaviour) (chaoses : List Chaos) :
    destroyerWeight behave (Destroyer.start chaoses) =
      (chaoses.map fun c => signalBound (behave c)).sum := Nat.add_zero _

theorem destroyerWeight_lt {x : Signal ChaosSignal} {es : List (ℕ × Effect)}
    (h : Destroyer.step behave d x = some (d', es)) :
    destroyerWeight behave d' < destroyerWeight behave d := by
  refine weight_lt (fun k c => ?_) (fun c u y u' fs hu => ?_) (step_flatMap h)
  · exact Nat.lt_succ_self (2 * (behave c).instanceCount.getD 0 + 2)
  · exact phaseWeight_lt hu

theorem DestroyerRun.append {ys : List (Signal ChaosSignal)} {log' : List (ℕ × Effect)}
    (h : DestroyerRun behave chaoses xs d log)
    (hys : run (logged (Destroyer.step behave)) (d, log) ys = some (d', log')) :
    DestroyerRun behave chaoses (xs ++ ys) d' log' := run_append.mpr ⟨_, h, hys⟩

/-! ## Publishers that have ended -/

theorem DestroyerRun.saved (h : DestroyerRun behave chaoses xs d log) (hf : d.failed = false)
    (hk : d.inners[k]? = some (c, u)) (hend : u.verdict ≠ .running) :
    ∃ e, u = .saved e ∧ e.chaos = c ∧ (effectsOf k log).filter Effect.isSave = [.save e true] := by
  have hu : u ≠ .failed := by
    rintro rfl
    exact h.account.not_failed hf (List.mem_of_getElem? hk) rfl
  obtain ⟨-, hfailed, -⟩ | ⟨n, e, ok, -, hsaved, -, hfilter, hchaos, -⟩ :=
    (h.tracks hk).summary hend
  · exact absurd hfailed hu
  · cases ok with
    | true => exact ⟨e, hsaved, hchaos, hfilter⟩
    | false => exact absurd hsaved hu

theorem DestroyerRun.exists_inner (h : DestroyerRun behave chaoses xs d log)
    (hsource : d.source = []) (hk : chaoses[k]? = some c) : ∃ u, d.inners[k]? = some (c, u) := by
  have hmap := h.account.source_eq
  rw [hsource, List.append_nil] at hmap
  rw [← hmap, List.getElem?_map, Option.map_eq_some_iff] at hk
  obtain ⟨⟨c', u⟩, hp, rfl⟩ := hk
  exact ⟨u, hp⟩

/-! ## The end of a run -/

/-- The same run, with a store that refuses no event. -/
def kindStep (behave : Chaos → Behaviour) (d : Destroyer) (x : Signal ChaosSignal) :
    Option (Destroyer × List (ℕ × Effect)) :=
  match x with
  | .inner _ (.save false) => none
  | x => Destroyer.step behave d x

theorem kindStep_eq_some {x : Signal ChaosSignal} {q : Destroyer × List (ℕ × Effect)}
    (h : kindStep behave d x = some q) :
    Destroyer.step behave d x = some q ∧ ∀ j, x ≠ .inner j (.save false) := by
  unfold kindStep at h
  split at h
  · cases h
  · next hx => exact ⟨h, fun j hj => hx j hj⟩

/-- Where a save can fail it can also succeed. -/
theorem stuck_of_kindStep (hstuck : ∀ x, kindStep behave d x = none) (x : Signal ChaosSignal) :
    Destroyer.step behave d x = none := by
  cases x with
  | pull => exact hstuck .pull
  | inner j y =>
    cases y with
    | instanceCount => exact hstuck (.inner j .instanceCount)
    | range z => exact hstuck (.inner j (.range z))
    | save ok =>
      cases ok with
      | true => exact hstuck (.inner j (.save true))
      | false =>
        rw [Option.eq_none_iff_forall_ne_some]
        rintro ⟨d', es⟩ h
        obtain ⟨hf, ⟨a, rest, hx, -⟩ | ⟨i, y, a, u, u', fs, hx, hi, -, hu, -, -⟩⟩ :=
          FlatMap.step_cases (step_flatMap h)
        · cases hx
        · obtain ⟨rfl, rfl⟩ := Signal.inner.inj hx
          have htrue := hstuck (.inner j (.save true))
          cases u <;> simp [terminate, terminateStep] at hu
          simp [kindStep, Destroyer.step, isSave, FlatMap.step, State.deliver, hi, hf, terminate,
            Phase.verdict, Verdict.isRunning, terminateStep] at htrue

theorem kindStep_failed {x : Signal ChaosSignal} {es : List (ℕ × Effect)}
    (h : kindStep behave d x = some (d', es))
    (haccount : Account (terminate behave) concurrency chaoses d)
    (hcounts : ∀ c ∈ chaoses, (behave c).instanceCount ≠ none) : d'.failed = false := by
  obtain ⟨hstep, hx⟩ := kindStep_eq_some h
  rw [← Bool.not_eq_true]
  intro hf
  obtain ⟨j, c, u, herror, hj, -⟩ := failed_step hstep hf
  cases x with
  | pull => cases herror
  | inner i y =>
    cases y with
    | range z => cases herror
    | save ok =>
      cases ok with
      | true => cases herror
      | false => exact hx i rfl
    | instanceCount =>
      obtain ⟨⟨c', u'⟩, hi, hnone⟩ := Option.bind_eq_some_iff.mp herror
      obtain ⟨hnone, -⟩ := Option.ite_none_right_eq_some.mp hnone
      exact hcounts c' (List.mem_of_getElem? (haccount.getElem? hi)) hnone

theorem kindStep_run {p q : Destroyer × List (ℕ × Effect)} {ys : List (Signal ChaosSignal)}
    (hrun : run (logged (kindStep behave)) p ys = some q)
    (haccount : Account (terminate behave) concurrency chaoses p.1)
    (hcounts : ∀ c ∈ chaoses, (behave c).instanceCount ≠ none) (hf : p.1.failed = false) :
    q.1.failed = false := by
  refine (run_inv (P := fun p => Account (terminate behave) concurrency chaoses p.1 ∧
    p.1.failed = false) ?_ hrun ⟨haccount, hf⟩).2
  rintro p x q h ⟨haccount, -⟩
  obtain ⟨es, h, -⟩ := logged_eq_some.mp h
  exact ⟨account_step (step_flatMap (kindStep_eq_some h).1) haccount,
    kindStep_failed h haccount hcounts⟩

/-- At the end of a run without an error each chaos has saved one event. -/
theorem DestroyerRun.all_saved (h : DestroyerRun behave chaoses xs d log) (hf : d.failed = false)
    (hended : d.Ended (terminate behave)) (hk : chaoses[k]? = some c) :
    ∃ e, e.chaos = c ∧ (effectsOf k log).filter Effect.isSave = [.save e true] := by
  obtain hfailed | ⟨hsource, hactive⟩ := hended
  · rw [hf] at hfailed
    cases hfailed
  · obtain ⟨u, hu⟩ := h.exists_inner hsource hk
    obtain ⟨e, -, he⟩ := h.saved hf hu (active_eq_zero.mp hactive _ (List.mem_of_getElem? hu))
    exact ⟨e, he⟩

/-- **Every run of the destroyer ends.** It takes at most `2 * n + 3` signals for each chaos with
`n` instances. From any point it can be brought to an end, and if all its counts can be had and
there has been no error so far, to an end at which each chaos has saved one event. -/
theorem destroyer_runs_end (h : DestroyerRun behave chaoses xs d log) :
    xs.length ≤ (chaoses.map fun c => 2 * (behave c).instanceCount.getD 0 + 3).sum ∧
    ∃ ys d' log', DestroyerRun behave chaoses (xs ++ ys) d' log' ∧ d'.Ended (terminate behave) ∧
      (d.failed = false → (∀ c ∈ chaoses, (behave c).instanceCount ≠ none) →
        ∀ k c, chaoses[k]? = some c →
          ∃ e, e.chaos = c ∧ (effectsOf k log').filter Effect.isSave = [.save e true]) := by
  have hlower : ∀ p x q, logged (Destroyer.step behave) p x = some q →
      destroyerWeight behave q.1 < destroyerWeight behave p.1 := by
    intro p x q hq
    obtain ⟨es, hq, -⟩ := logged_eq_some.mp hq
    exact destroyerWeight_lt hq
  have hkind : ∀ p x q, logged (kindStep behave) p x = some q →
      logged (Destroyer.step behave) p x = some q := by
    intro p x q hq
    obtain ⟨es, hq, hlog⟩ := logged_eq_some.mp hq
    exact logged_eq_some.mpr ⟨es, (kindStep_eq_some hq).1, hlog⟩
  constructor
  · have hlength := length_le_of_run hlower h
    rw [destroyerWeight_start] at hlength
    exact (Nat.le_add_right _ _).trans hlength
  · obtain ⟨ys, ⟨d', log'⟩, hrun, hstuck⟩ :=
      exists_stuck (fun p x q hq => hlower p x q (hkind p x q hq)) (d, log)
    have hfull := h.append (run_mono hkind hrun)
    have hended := hfull.ended (stuck_of_kindStep fun x => Option.map_eq_none_iff.mp (hstuck x))
    refine ⟨ys, d', log', hfull, hended, fun hf hcounts k c hk => ?_⟩
    exact hfull.all_saved (kindStep_run hrun h.account hcounts hf) hended hk

/-- A run with two chaoses that has only begun. -/
theorem destroyer_runs_end_begun :
    ∃ ys d log, DestroyerRun (firstCounts (some 0)) [hourlyChaos 1, hourlyChaos 2]
        ([.pull, .pull] ++ ys) d log ∧ d.Ended (terminate (firstCounts (some 0))) := by
  have hrun : DestroyerRun (firstCounts (some 0)) [hourlyChaos 1, hourlyChaos 2] [.pull, .pull]
    _ _ := rfl
  obtain ⟨-, ys, d, log, hfull, hended, -⟩ := destroyer_runs_end hrun
  exact ⟨ys, d, log, hfull, hended⟩

/-! ## What is never answered -/

/-- The signal is an answer for one of the chaoses at the positions `H`. -/
def Hangs (H : Finset ℕ) : Signal ChaosSignal → Prop
  | .inner k .instanceCount => k ∈ H
  | .inner k (.range _) => k ∈ H
  | _ => False

/-- A save is never left outstanding. -/
theorem Destroyer.not_saving (hf : d.failed = false)
    (hstuck : ∀ k, Destroyer.step behave d (.inner k (.save true)) = none) :
    d.isSaving = false := by
  rw [← Bool.not_eq_true]
  intro hsaving
  obtain ⟨⟨c, u⟩, hp, hu⟩ := List.any_eq_true.mp hsaving
  obtain ⟨k, hk⟩ := List.mem_iff_getElem?.mp hp
  have hnone := hstuck k
  cases u <;> simp [Phase.isSaving] at hu
  simp [Destroyer.step, isSave, FlatMap.step, State.deliver, hk, hf, terminate, Phase.verdict,
    Verdict.isRunning, terminateStep] at hnone

/-- **Chaoses that hang leave the others alone.** Let the platform never answer for the chaoses at
the positions `H`, fewer than the run has publishers at a time. When nothing else is left to do in a
run without an error, each of the other chaoses has saved one event. -/
theorem hung_chaoses_are_isolated (h : DestroyerRun behave chaoses xs d log)
    (hf : d.failed = false) {H : Finset ℕ} (hH : H.card < concurrency)
    (hstuck : ∀ x, ¬ Hangs H x → Destroyer.step behave d x = none) (hk : chaoses[k]? = some c)
    (hkH : k ∉ H) :
    ∃ e, e.chaos = c ∧ (effectsOf k log).filter Effect.isSave = [.save e true] := by
  have hsaving := Destroyer.not_saving hf fun j => hstuck (.inner j (.save true)) id
  have hsame : ∀ x, Destroyer.step behave d x = FlatMap.step (terminate behave) concurrency d x :=
    fun x => if_pos (Or.inl hsaving)
  -- who is still running is waiting for the platform
  have hended : ∀ j p, d.inners[j]? = some p → p.2.verdict = .running → j ∈ H := by
    rintro j ⟨c, u⟩ hj hu
    by_contra hjH
    refine (h.tracks hj).ended_of_stuck (fun y => ?_) hu
    have hnone := hstuck (.inner j y) (by cases y <;> simp [Hangs, hjH])
    rw [hsame] at hnone
    simpa [FlatMap.step, State.deliver, hj, hf, terminate, hu, Verdict.isRunning] using hnone
  have hsource : d.source = [] :=
    source_eq_nil_of_hung hH hf hended ((hsame .pull).symm.trans (hstuck .pull id))
  obtain ⟨u, hu⟩ := h.exists_inner hsource hk
  obtain ⟨e, -, he⟩ := h.saved hf hu fun hrunning => hkH (hended k _ hu hrunning)
  exact ⟨e, he⟩

theorem run_that_hangs :
    DestroyerRun (firstCounts none) [hourlyChaos 1, hourlyChaos 2]
      ([.pull, .pull] ++ secondSignals)
      ⟨[], [(hourlyChaos 1, .counting), (hourlyChaos 2, .saved secondEvent)], [secondEvent], false⟩
      (countCalls ++ secondCalls) := rfl

theorem hung_chaoses_are_isolated_second :
    ∃ e, e.chaos = hourlyChaos 2 ∧
      (effectsOf 1 (countCalls ++ secondCalls)).filter Effect.isSave = [.save e true] := by
  refine hung_chaoses_are_isolated (H := {0}) run_that_hangs rfl (by decide) ?_ rfl (by decide)
  rintro (_ | ⟨_ | _ | k, y⟩) hx
  · rfl
  · cases y with
    | save ok => rfl
    | _ => exact absurd (Finset.mem_singleton_self 0) hx
  · cases y <;> rfl
  · exact ite_self _

/-- A range of which only the calls for the indices `G` are outstanding. -/
theorem RangeRun.hung {b : Behaviour} {n : ℕ} {r : Range} {l : List (ℕ × Effect)}
    (h : RangeRun c b n r l) {G : Finset ℕ} (hG : G.card < concurrency)
    (hstuck : ∀ x : Signal Unit, (∀ i ∈ G, x ≠ .inner i ()) →
      FlatMap.step (terminateIndex c b) concurrency r x = none) :
    r.inners.length = n ∧ ∀ i < n, i ∉ G → r.inners[i]? = some (i, callEnd b i) := by
  have hended : ∀ i p, r.inners[i]? = some p →
      (terminateIndex c b).verdict p.2 = .running → i ∈ G := by
    rintro i ⟨j, u⟩ hi hu
    by_contra hiG
    have hnone := hstuck (.inner i ()) fun j hj hx => hiG ((Signal.inner.inj hx).1 ▸ hj)
    cases u <;> simp [terminateIndex] at hu
    simp [FlatMap.step, State.deliver, hi, h.not_failed, terminateIndex,
      Verdict.isRunning] at hnone
  have hsource : r.source = [] :=
    source_eq_nil_of_hung hG h.not_failed hended (hstuck .pull fun i _ hx => by cases hx)
  have hlength : r.inners.length = n := by
    have hmap := congrArg List.length h.account.source_eq
    rwa [hsource, List.append_nil, List.length_map, List.length_range] at hmap
  refine ⟨hlength, fun i hi hiG => ?_⟩
  obtain ⟨⟨j, u⟩, hget⟩ : ∃ p, r.inners[i]? = some p :=
    ⟨_, List.getElem?_eq_getElem (hlength ▸ hi : i < r.inners.length)⟩
  obtain ⟨rfl, -, rfl | rfl⟩ := h.inner hget
  · exact hget
  · exact absurd (hended j _ hget rfl) hiG

/-- **Terminations that hang leave the others alone.** Let the platform never answer the
terminations of a chaos for the indices `G`, fewer than its range has at a time. When nothing else
is left to do for the chaos, every index has been asked for and every termination has been sent, and
those not in `G` have been answered; but no event has been saved. -/
theorem hung_terminations_are_isolated (h : DestroyerRun behave chaoses xs d log)
    (hf : d.failed = false) (hsaving : d.isSaving = false) {n : ℕ} {r : Range}
    (hk : d.inners[k]? = some (c, .terminating n r)) {G : Finset ℕ} (hG : G.card < concurrency)
    (hstuck : ∀ x : Signal Unit, (∀ i ∈ G, x ≠ .inner i ()) →
      Destroyer.step behave d (.inner k (.range x)) = none) :
    (effectsOf k log).Perm (.getInstanceCount c.application ::
        (List.range n).flatMap (callEffects c (behave c))) ∧
      (∀ i < n, i ∉ G → r.inners[i]? = some (i, callEnd (behave c) i)) ∧
      ∀ e ok, (k, Effect.save e ok) ∉ log := by
  have htracks := h.tracks hk
  have hnosave : ∀ e ok, (k, Effect.save e ok) ∉ log := by
    intro e ok hmem
    have hnil := List.filter_eq_nil_iff.mp (htracks.filter_isSave_of_running rfl)
    exact hnil _ (mem_effectsOf.mpr hmem) rfl
  have hrange : ∀ x : Signal Unit, (∀ i ∈ G, x ≠ .inner i ()) →
      FlatMap.step (terminateIndex c (behave c)) concurrency r x = none := by
    intro x hx
    have hnone := hstuck x hx
    rw [Destroyer.step, if_pos (Or.inl hsaving)] at hnone
    simpa [FlatMap.step, State.deliver, hk, hf, terminate, Phase.verdict, Verdict.isRunning,
      terminateStep] using hnone
  generalize effectsOf k log = l at htracks
  cases htracks with
  | terminating hn hr hs =>
    obtain ⟨hlength, hcalls⟩ := hr.hung hG hrange
    refine ⟨?_, hcalls, hnosave⟩
    rw [← hlength]
    exact hr.effects_perm.cons _

/-- Both instances get thumbs down. -/
def spareNone : Behaviour := { spareFirst with fate := fun _ => .thumbsDown }

/-- The termination of the first instance is never answered. -/
theorem hung_terminations_are_isolated_first :
    ∃ d log, DestroyerRun (fun _ => spareNone) [hourlyChaos 1]
        [.pull, .inner 0 .instanceCount, .inner 0 (.range .pull), .inner 0 (.range .pull),
          .inner 0 (.range (.inner 1 ()))] d log ∧
      (effectsOf 0 log).Perm (.getInstanceCount (hourlyChaos 1).application ::
        (List.range 2).flatMap (callEffects (hourlyChaos 1) spareNone)) := by
  have hrun : DestroyerRun (fun _ => spareNone) [hourlyChaos 1]
      [.pull, .inner 0 .instanceCount, .inner 0 (.range .pull), .inner 0 (.range .pull),
        .inner 0 (.range (.inner 1 ()))]
      ⟨[], [(hourlyChaos 1, .terminating 2
        ⟨[], [(0, .inFlight), (1, .terminated 1)], [1], false⟩)], [], false⟩ _ := rfl
  refine ⟨_, _, hrun, (hung_terminations_are_isolated (G := {0}) hrun rfl rfl rfl (by decide) ?_).1⟩
  rintro (_ | ⟨_ | _ | i, y⟩) hx
  · rfl
  · exact absurd rfl (hx 0 (Finset.mem_singleton_self 0))
  · rfl
  · rfl

/-! ## The load on the platform -/

/-- The calls of a range that have not been answered. -/
def rangeOutstanding (r : Range) : ℕ := r.inners.countP fun p => p.2 = .inFlight

/-- The requests that a publisher waits for. -/
def Phase.outstanding : Phase → ℕ
  | .counting => 1
  | .terminating _ r => rangeOutstanding r
  | _ => 0

def Destroyer.outstanding (d : Destroyer) : ℕ := (d.inners.map fun p => p.2.outstanding).sum

/-- The signal is an answer of the platform. -/
def ChaosSignal.isAnswer : ChaosSignal → Bool
  | .instanceCount => true
  | .range (.inner _ _) => true
  | _ => false

def isAnswer : Signal ChaosSignal → Bool
  | .inner _ y => y.isAnswer
  | .pull => false

section Load

variable {b : Behaviour}

theorem active_eq_rangeOutstanding (c : Chaos) (b : Behaviour) (r : Range) :
    r.active (terminateIndex c b) = rangeOutstanding r := by
  refine List.countP_congr fun p _ => ?_
  rw [Verdict.isRunning_iff, decide_eq_true_iff]
  cases p.2 <;> simp [terminateIndex]

/-- A range sends a request with each call, and gets one answer for it. -/
theorem range_load {r r' : Range} {y : Signal Unit} {fs : List (ℕ × Effect)}
    (h : FlatMap.step (terminateIndex c b) concurrency r y = some (r', fs)) :
    (platformRequests (fs.map Prod.snd)).length + rangeOutstanding r =
      rangeOutstanding r' + (ChaosSignal.range y).isAnswer.toNat := by
  obtain ⟨-, ⟨i, rest, rfl, -, -, rfl, rfl⟩ | ⟨j, y, i, u, u', gs, rfl, hj, hrun, hu, rfl, rfl⟩⟩ :=
    FlatMap.step_cases h
  · unfold rangeOutstanding
    rw [settle_inners, List.countP_append, List.map_map]
    cases hfate : b.fate r.inners.length <;>
      simp [terminateIndex, hfate, platformRequests, List.filterMap_cons, Effect.request,
        ChaosSignal.isAnswer, Nat.add_comm]
  · obtain rfl : u = .inFlight := by
      cases u <;> simp [terminateIndex] at hrun ⊢
    obtain ⟨rfl, rfl⟩ :
        (if b.terminates i then Call.terminated i else .refused) = u' ∧ [] = gs := by
      simpa [terminateIndex] using hu
    obtain ⟨l₁, l₂, hl, -, hset⟩ := split_at hj
    unfold rangeOutstanding
    rw [settle_inners, hset, hl]
    cases b.terminates i <;>
      simp [platformRequests, ChaosSignal.isAnswer, List.countP_append, Nat.add_assoc]

theorem outstanding_collectList (c : Chaos) (b : Behaviour) (n : ℕ) (r : Range) :
    (collectList c b n r).outstanding = rangeOutstanding r := by
  unfold collectList
  split_ifs with hr
  · rw [← active_eq_rangeOutstanding c b, hr.2.2]
    rfl
  · rfl

theorem publisher_load {u u' : Phase} {y : ChaosSignal} {es : List Effect}
    (h : terminateStep c b u y = some (u', es)) :
    (platformRequests es).length + u.outstanding = u'.outstanding + y.isAnswer.toNat := by
  obtain ⟨rfl, rfl, -, rfl, rfl⟩ | ⟨n, rfl, rfl, -, rfl, rfl⟩ |
    ⟨n, r, z, r', fs, rfl, rfl, hr, rfl, rfl⟩ | ⟨event, ok, rfl, rfl, rfl, rfl⟩ :=
    terminateStep_cases h
  · rfl
  · rw [outstanding_collectList]
    rfl
  · rw [outstanding_collectList]
    exact range_load hr
  · cases ok <;> rfl

/-- **What has been sent is answered or outstanding.** -/
theorem destroyer_load {x : Signal ChaosSignal} {es : List (ℕ × Effect)}
    (h : Destroyer.step behave d x = some (d', es)) :
    (platformRequests (es.map Prod.snd)).length + d.outstanding =
      d'.outstanding + (isAnswer x).toNat := by
  obtain ⟨-, ⟨c, rest, rfl, -, -, rfl, rfl⟩ | ⟨j, y, c, u, u', fs, rfl, hj, -, hu, rfl, rfl⟩⟩ :=
    FlatMap.step_cases (step_flatMap h)
  · unfold Destroyer.outstanding
    rw [settle_inners, List.map_append, List.sum_append, Nat.add_comm]
    rfl
  · obtain ⟨l₁, l₂, hl, -, hset⟩ := split_at hj
    have hload := publisher_load hu
    unfold Destroyer.outstanding
    rw [settle_inners, hset, hl, List.map_map]
    simp only [List.map_append, List.map_cons, List.sum_append, List.sum_cons]
    have hsame : fs.map (Prod.snd ∘ fun e => (j, e)) = fs := List.map_id _
    rw [hsame]
    simp only [isAnswer]
    omega

theorem DestroyerRun.load (h : DestroyerRun behave chaoses xs d log) :
    (platformRequests (log.map Prod.snd)).length = xs.countP isAnswer + d.outstanding := by
  induction xs using List.reverseRecOn generalizing d log with
  | nil =>
    obtain ⟨rfl, rfl⟩ : Destroyer.start chaoses = d ∧ [] = log := by
      simpa [DestroyerRun] using h
    rfl
  | append_singleton xs x ih =>
    obtain ⟨d, log, es, hpre, hx, rfl⟩ := run_logged_snoc.mp h
    have hload := destroyer_load hx
    rw [List.map_append, platformRequests_append, List.length_append, ih hpre, List.countP_append,
      List.countP_singleton]
    cases hanswer : isAnswer x <;> simp [hanswer] at hload ⊢ <;> omega

theorem sum_le_countP_mul {γ : Type*} {l : List γ} {f : γ → ℕ} {p : γ → Bool} {m : ℕ}
    (h : ∀ x ∈ l, f x ≤ if p x then m else 0) : (l.map f).sum ≤ l.countP p * m := by
  induction l with
  | nil => simp
  | cons x l ih =>
    have hx := h x List.mem_cons_self
    have hl := ih fun y hy => h y (List.mem_cons_of_mem _ hy)
    rw [List.map_cons, List.sum_cons, List.countP_cons, Nat.add_mul]
    split_ifs at hx ⊢ <;> omega

end Load

/-- **The load on the platform is bounded.** At any time in a run of the destroyer, with any number
of chaoses and instances, all but 65536 of the requests that it has sent have been answered. -/
theorem load_is_bounded (h : DestroyerRun behave chaoses xs d log) :
    (platformRequests (log.map Prod.snd)).length ≤ xs.countP isAnswer + 65536 := by
  have hone : ∀ p ∈ d.inners, p.2.outstanding ≤
      if ((terminate behave).verdict p.2).isRunning then concurrency else 0 := by
    rintro ⟨c, u⟩ hp
    obtain ⟨k, hk⟩ := List.mem_iff_getElem?.mp hp
    have htracks := h.tracks hk
    generalize effectsOf k log = l at htracks
    cases htracks with
    | counting => exact (by decide : 1 ≤ concurrency)
    | terminating hn hr hs =>
      exact (active_eq_rangeOutstanding c (behave c) _).symm.trans_le hr.account.active_le
    | _ => exact Nat.zero_le _
  calc (platformRequests (log.map Prod.snd)).length
      = xs.countP isAnswer + d.outstanding := h.load
    _ ≤ xs.countP isAnswer + d.active (terminate behave) * concurrency :=
        Nat.add_le_add_left (sum_le_countP_mul hone) _
    _ ≤ xs.countP isAnswer + concurrency * concurrency :=
        Nat.add_le_add_left (Nat.mul_le_mul_right _ h.account.active_le) _

theorem load_is_bounded_secondCalls :
    (platformRequests ((countCalls ++ secondCalls).map Prod.snd)).length ≤
      ([Signal.pull, .pull] ++ secondSignals).countP isAnswer + 65536 :=
  load_is_bounded run_that_hangs

end ChaosLoris
