import ChaosLoris.Terminate

/-!
# A run of the destroyer, seen from one of its chaoses

The publishers of the chaoses share one `flatMap`, so each of them runs on its own
(`publisher_run`) until the first error of any of them cancels the others. An error is a count
that cannot be had or an event that cannot be saved (`failed_cases`, `failed_step`); errors of
`terminateInstance` do not count, as they never leave the range.

`chaoses_isolated`: as long as no other chaos has an error before it has come to its end, what
happens to a chaos does not depend on the others. A run in which a sibling fails first cuts it
short (`siblings_not_isolated`).
-/

namespace ChaosLoris

open FlatMap Runs

variable {behave : Chaos → Behaviour} {chaoses : List Chaos} {s t : Destroyer}
  {log : List (ℕ × Effect)} {xs : List (Signal ChaosSignal)} {k : ℕ} {c : Chaos} {u : Phase}

/-- The destroyer gets from `run()` on `chaoses` to the state `s`, with the calls `log`. -/
def DestroyerRun (behave : Chaos → Behaviour) (chaoses : List Chaos)
    (xs : List (Signal ChaosSignal)) (s : Destroyer) (log : List (ℕ × Effect)) : Prop :=
  run (logged (Destroyer.step behave)) (Destroyer.start chaoses, []) xs = some (s, log)

theorem step_flatMap {x : Signal ChaosSignal} {q : Destroyer × List (ℕ × Effect)}
    (h : Destroyer.step behave s x = some q) :
    FlatMap.step (terminate behave) concurrency s x = some q := by
  unfold Destroyer.step at h
  rw [Option.ite_none_right_eq_some] at h
  exact h.2

theorem DestroyerRun.flatMap_run (h : DestroyerRun behave chaoses xs s log) :
    run (logged (FlatMap.step (terminate behave) concurrency)) (State.init chaoses, []) xs =
      some (s, log) := by
  refine run_mono (fun p x q hq => ?_) h
  obtain ⟨es, hes, hlog⟩ := logged_eq_some.mp hq
  exact logged_eq_some.mpr ⟨es, step_flatMap hes, hlog⟩

theorem DestroyerRun.account (h : DestroyerRun behave chaoses xs s log) :
    Account (terminate behave) concurrency chaoses s := FlatMap.account h.flatMap_run

/-- What a run does to one chaos is a run of its publisher alone. -/
theorem DestroyerRun.publisher_run (h : DestroyerRun behave chaoses xs s log)
    (hk : s.inners[k]? = some (c, u)) :
    run (logged (terminateStep c (behave c))) (terminateStart c) (signalsOf k xs) =
      some (u, effectsOf k log) := run_inner h.flatMap_run hk

theorem DestroyerRun.tracks (h : DestroyerRun behave chaoses xs s log)
    (hk : s.inners[k]? = some (c, u)) : Tracks c (behave c) u (effectsOf k log) :=
  tracks_run (h.publisher_run hk)

theorem DestroyerRun.exists_publisher (h : DestroyerRun behave chaoses xs s log)
    (hk : signalsOf k xs ≠ [] ∨ effectsOf k log ≠ []) :
    ∃ c u, s.inners[k]? = some (c, u) ∧ chaoses[k]? = some c := by
  have hlt : k < s.inners.length := by
    by_contra hlt
    obtain ⟨hsignals, heffects⟩ := quiet_beyond h.flatMap_run (not_lt.mp hlt)
    exact hk.elim (· hsignals) (· heffects)
  have hget := List.getElem?_eq_getElem hlt
  exact ⟨_, _, hget, h.account.getElem? hget⟩

theorem DestroyerRun.ended (h : DestroyerRun behave chaoses xs s log)
    (hstuck : ∀ x, Destroyer.step behave s x = none) : s.Ended (terminate behave) := by
  cases hsaving : s.isSaving with
  | false =>
    have hsame : ∀ x, Destroyer.step behave s x =
        FlatMap.step (terminate behave) concurrency s x :=
      fun x => if_pos (Or.inl hsaving)
    refine ended_of_stuck (by decide) ?_ fun x => (hsame x).symm.trans (hstuck x)
    rintro ⟨c, u⟩ hp hu
    obtain ⟨k, hk⟩ := List.mem_iff_getElem?.mp hp
    by_contra hnone
    push Not at hnone
    exact (h.tracks hk).ended_of_stuck hnone hu
  | true =>
    -- the save is still outstanding, unless an error has ended the run
    obtain ⟨⟨c, u⟩, hp, hu⟩ := List.any_eq_true.mp hsaving
    obtain ⟨k, hk⟩ := List.mem_iff_getElem?.mp hp
    by_contra hend
    have hf : s.failed = false := by
      rw [← Bool.not_eq_true]
      exact fun hf => hend (Or.inl hf)
    have := hstuck (.inner k (.save true))
    cases u <;> simp [Phase.isSaving] at hu
    simp [Destroyer.step, isSave, FlatMap.step, State.deliver, hk, hf, terminate, Phase.verdict,
      Verdict.isRunning, terminateStep] at this

theorem stuck_of_ended (hs : s.Ended (terminate behave)) (x : Signal ChaosSignal) :
    Destroyer.step behave s x = none := by
  unfold Destroyer.step
  rw [FlatMap.stuck_of_ended hs, ite_self]

/-! ## Errors -/

/-- The publisher at position `k` has completed or failed. -/
def HasEnded (s : Destroyer) (k : ℕ) : Prop :=
  ∃ p ∈ s.inners[k]?, p.2.verdict ≠ .running

instance : Decidable (HasEnded s k) :=
  inferInstanceAs (Decidable (∃ p ∈ s.inners[k]?, p.2.verdict ≠ .running))

/-- The publisher for which a signal is an error: its instances cannot be counted, or its event
cannot be saved. -/
def errorAt (behave : Chaos → Behaviour) (s : Destroyer) : Signal ChaosSignal → Option ℕ
  | .inner j .instanceCount =>
    s.inners[j]?.bind fun p => if (behave p.1).instanceCount = none then some j else none
  | .inner j (.save false) => some j
  | _ => none

theorem collectList_ne_failed (c : Chaos) (b : Behaviour) (n : ℕ) (r : Range) :
    collectList c b n r ≠ .failed := by
  unfold collectList
  split_ifs <;> simp

/-- A publisher fails for want of a count, or of a save. -/
theorem failed_cases {b : Behaviour} {y : ChaosSignal} {es : List Effect}
    (h : terminateStep c b u y = some (.failed, es)) :
    (y = .instanceCount ∧ b.instanceCount = none) ∨ y = .save false := by
  obtain ⟨-, hy, hn, -, -⟩ | ⟨n, -, -, -, hq, -⟩ | ⟨n, r, z, r', fs, -, -, -, hq, -⟩ |
    ⟨event, ok, -, rfl, hq, -⟩ := terminateStep_cases h
  · exact Or.inl ⟨hy, hn⟩
  · exact absurd hq.symm (collectList_ne_failed _ _ _ _)
  · exact absurd hq.symm (collectList_ne_failed _ _ _ _)
  · cases ok with
    | true => simp at hq
    | false => exact Or.inr rfl

/-- The first error ends the run, and it is that of a publisher. -/
theorem failed_step {x : Signal ChaosSignal} {es : List (ℕ × Effect)}
    (h : Destroyer.step behave s x = some (t, es)) (hf : t.failed = true) :
    ∃ j c u, errorAt behave s x = some j ∧ s.inners[j]? = some (c, u) ∧
      t.inners = s.inners.set j (c, .failed) := by
  obtain ⟨-, ⟨a, rest, -, -, -, rfl, -⟩ | ⟨j, y, a, u, u', fs, rfl, hj, -, hu, rfl, -⟩⟩ :=
    FlatMap.step_cases (step_flatMap h)
  · simp [terminate, terminateStart, Phase.verdict, Verdict.isFailed] at hf
  · have hfail : u' = .failed := by
      cases u' <;> simp [terminate, Phase.verdict, Verdict.isFailed] at hf ⊢
    subst hfail
    refine ⟨j, a, u, ?_, hj, rfl⟩
    obtain ⟨rfl, hn⟩ | rfl := failed_cases hu
    · simp [errorAt, hj, hn]
    · rfl

theorem failed_of_errorAt {x : Signal ChaosSignal} {es : List (ℕ × Effect)} {j : ℕ}
    (h : Destroyer.step behave s x = some (t, es)) (hx : errorAt behave s x = some j) :
    t.failed = true := by
  obtain ⟨-, ⟨a, rest, rfl, -, -, -, -⟩ | ⟨i, y, a, u, u', fs, rfl, hi, -, hu, rfl, -⟩⟩ :=
    FlatMap.step_cases (step_flatMap h)
  · simp [errorAt] at hx
  · have hfail : u' = .failed := by
      obtain ⟨-, rfl, hn, rfl, -⟩ | ⟨n, -, rfl, hn, -, -⟩ | ⟨n, r, z, r', fs', -, rfl, -, -, -⟩ |
        ⟨event, ok, -, rfl, rfl, -⟩ := terminateStep_cases hu
      · rfl
      · simp [errorAt, hi, hn] at hx
      · simp [errorAt] at hx
      · cases ok with
        | true => simp [errorAt] at hx
        | false => rfl
    subst hfail
    rfl

theorem HasEnded.step {x : Signal ChaosSignal} {es : List (ℕ × Effect)} (hk : HasEnded s k)
    (h : Destroyer.step behave s x = some (t, es)) : HasEnded t k := by
  obtain ⟨p, hp, hend⟩ := hk
  refine ⟨p, ?_, hend⟩
  obtain ⟨-, ⟨a, rest, -, -, -, rfl, -⟩ | ⟨j, y, a, u, u', fs, rfl, hj, hrun, -, rfl, -⟩⟩ :=
    FlatMap.step_cases (step_flatMap h)
  · rw [settle_inners, List.getElem?_append_left (List.getElem?_eq_some_iff.mp hp).1]
    exact hp
  · have hjk : j ≠ k := by
      rintro rfl
      obtain rfl : (a, u) = p := Option.some.inj (hj.symm.trans hp)
      exact hend hrun
    rw [settle_inners, List.getElem?_set_ne hjk]
    exact hp

/-! ## Isolation -/

/-- No other publisher has an error before that at position `k` has ended. -/
def Unhindered (behave : Chaos → Behaviour) (k : ℕ) (p : Destroyer × List (ℕ × Effect))
    (x : Signal ChaosSignal) : Prop :=
  ∀ j ∈ errorAt behave p.1 x, j ≠ k → HasEnded p.1 k

instance (p : Destroyer × List (ℕ × Effect)) (x : Signal ChaosSignal) :
    Decidable (Unhindered behave k p x) :=
  inferInstanceAs (Decidable (∀ j ∈ errorAt behave p.1 x, j ≠ k → HasEnded p.1 k))

/-- In an unhindered run a failure leaves the chaos at position `k` ended. -/
theorem hasEnded_of_failed (h : DestroyerRun behave chaoses xs s log)
    (hfree : Along (logged (Destroyer.step behave)) (Unhindered behave k)
      (Destroyer.start chaoses, []) xs) (hf : s.failed = true) : HasEnded s k := by
  refine run_inv_along (P := fun p => p.1.failed = true → HasEnded p.1 k) ?_ hfree h
    (by simp [Destroyer.start, State.init]) hf
  rintro p x q hC hstep - hq
  obtain ⟨es, hstep, -⟩ := logged_eq_some.mp hstep
  obtain ⟨j, c, u, hj, hju, hinners⟩ := failed_step hstep hq
  by_cases hjk : j = k
  · subst hjk
    refine ⟨(c, .failed), ?_, by simp [Phase.verdict]⟩
    rw [hinners, List.getElem?_set_self (List.getElem?_eq_some_iff.mp hju).1]
    rfl
  · exact (hC j hj hjk).step hstep

theorem hasEnded_of_stuck (h : DestroyerRun behave chaoses xs s log)
    (hfree : Along (logged (Destroyer.step behave)) (Unhindered behave k)
      (Destroyer.start chaoses, []) xs)
    (hk : chaoses[k]? = some c) (hstuck : ∀ x, Destroyer.step behave s x = none) :
    ∃ u, s.inners[k]? = some (c, u) ∧ u.verdict ≠ .running := by
  have hended : HasEnded s k := by
    rcases h.ended hstuck with hf | ⟨hsrc, hact⟩
    · exact hasEnded_of_failed h hfree hf
    · have hlen : k < s.inners.length := by
        have := h.account.source_eq
        rw [hsrc, List.append_nil] at this
        rw [← this, List.getElem?_map, Option.map_eq_some_iff] at hk
        obtain ⟨p, hp, -⟩ := hk
        exact (List.getElem?_eq_some_iff.mp hp).1
      exact ⟨s.inners[k], List.getElem?_eq_getElem hlen,
        active_eq_zero.mp hact _ (List.getElem_mem hlen)⟩
  obtain ⟨⟨c', u⟩, hp, hend⟩ := hended
  obtain rfl : c' = c := Option.some.inj ((h.account.getElem? hp).symm.trans hk)
  exact ⟨u, hp, hend⟩

/-- **Isolation.** Take two runs to their end in which platform, fates and clock treat the chaos
at position `k` alike, and its save, if it comes to one, has the same outcome. Unless another chaos
has an error before this one has ended, both make the same calls for it, and if its instances can
be counted and its save succeeds, both save an event of the same content. -/
theorem chaoses_isolated {behave' : Chaos → Behaviour} {xs' : List (Signal ChaosSignal)}
    {s' : Destroyer} {log' : List (ℕ × Effect)}
    (hk : chaoses[k]? = some c) (hbehave : behave c = behave' c)
    (h : DestroyerRun behave chaoses xs s log) (h' : DestroyerRun behave' chaoses xs' s' log')
    (hstuck : ∀ x, Destroyer.step behave s x = none)
    (hstuck' : ∀ x, Destroyer.step behave' s' x = none)
    (hsave : ∀ e ok e' ok', (k, Effect.save e ok) ∈ log → (k, Effect.save e' ok') ∈ log' →
      ok = ok')
    (hfree : Along (logged (Destroyer.step behave)) (Unhindered behave k)
      (Destroyer.start chaoses, []) xs)
    (hfree' : Along (logged (Destroyer.step behave')) (Unhindered behave' k)
      (Destroyer.start chaoses, []) xs') :
    (∀ a i, (effectsOf k log).count (.terminateInstance a i) =
      (effectsOf k log').count (.terminateInstance a i)) ∧
    ((behave c).instanceCount ≠ none → (∀ e, (k, Effect.save e false) ∉ log) →
      ∃ e e', (effectsOf k log).filter Effect.isSave = [.save e true] ∧
        (effectsOf k log').filter Effect.isSave = [.save e' true] ∧
        e.chaos = c ∧ e'.chaos = c ∧ e.executedAt = e'.executedAt ∧
        e.terminatedInstances.Perm e'.terminatedInstances ∧
        e.totalInstanceCount = e'.totalInstanceCount) := by
  obtain ⟨u, hu, hend⟩ := hasEnded_of_stuck h hfree hk hstuck
  obtain ⟨u', hu', hend'⟩ := hasEnded_of_stuck h' hfree' hk hstuck'
  have hmem : ∀ {l : List (ℕ × Effect)} {e : Event} {ok : Bool},
      (effectsOf k l).filter Effect.isSave = [.save e ok] → (k, Effect.save e ok) ∈ l := by
    intro l e ok hl
    exact mem_effectsOf.mp
      (List.mem_of_mem_filter (hl ▸ List.mem_singleton_self (Effect.save e ok)))
  rcases (h.tracks hu).summary hend with
    ⟨hn, -, hlog⟩ | ⟨n, e, ok, hn, -, hperm, hfilter, hchaos, hnow, htotal, hterm⟩
  · rcases (h'.tracks hu').summary hend' with ⟨-, -, hlog'⟩ | ⟨n', -, -, hn', -⟩
    · exact ⟨fun a i => by rw [hlog, hlog'], fun hne => absurd hn hne⟩
    · rw [← hbehave, hn] at hn'
      cases hn'
  · rcases (h'.tracks hu').summary hend' with
      ⟨hn', -, -⟩ | ⟨n', e', ok', hn', -, hperm', hfilter', hchaos', hnow', htotal', hterm'⟩
    · rw [← hbehave, hn] at hn'
      cases hn'
    · rw [← hbehave] at hn' hperm' hnow' hterm'
      obtain rfl : n = n' := Option.some.inj (hn.symm.trans hn')
      refine ⟨fun a i => ?_, fun _ hok => ?_⟩
      · rw [hperm.count_eq, hperm'.count_eq, List.count_append, List.count_append]
        simp
      · obtain rfl : ok = true := by
          cases ok with
          | true => rfl
          | false => exact absurd (hmem hfilter) (hok e)
        obtain rfl : true = ok' := hsave e true e' ok' (hmem hfilter) (hmem hfilter')
        exact ⟨e, e', hfilter, hfilter', hchaos, hchaos', hnow.trans hnow'.symm,
          hterm.trans hterm'.symm, htotal.trans htotal'.symm⟩

/-- The first chaos has the instance count `n`, every other one is `spareFirst`. -/
def firstCounts (n : Option ℕ) (c : Chaos) : Behaviour :=
  if c.id = 1 then { spareFirst with instanceCount := n } else spareFirst

/-- The signals of the second chaos, from its count to its save. -/
def secondSignals : List (Signal ChaosSignal) :=
  [.inner 1 .instanceCount, .inner 1 (.range .pull), .inner 1 (.range .pull),
    .inner 1 (.range (.inner 1 ())), .inner 1 (.save true)]

/-- The event of the first chaos without instances. -/
def firstEvent : Event := Event.new (hourlyChaos 1) 0 [] 0

def secondEvent : Event := Event.new (hourlyChaos 2) 0 [1] 2

def secondCalls : List (ℕ × Effect) :=
  [(1, .getFate (hourlyChaos 2) 0), (1, .getFate (hourlyChaos 2) 1),
    (1, .terminateInstance (hourlyChaos 2).application 1), (1, .save secondEvent true)]

def countCalls : List (ℕ × Effect) :=
  [(0, .getInstanceCount (hourlyChaos 1).application),
    (1, .getInstanceCount (hourlyChaos 2).application)]

theorem run_without_error :
    DestroyerRun (firstCounts (some 0)) [hourlyChaos 1, hourlyChaos 2]
      ([.pull, .pull, .inner 0 .instanceCount, .inner 0 (.save true)] ++ secondSignals)
      ⟨[], [(hourlyChaos 1, .saved firstEvent), (hourlyChaos 2, .saved secondEvent)],
        [firstEvent, secondEvent], false⟩
      (countCalls ++ [(0, .save firstEvent true)] ++ secondCalls) := rfl

/-- The first chaos has an error after the second one has ended. -/
theorem run_with_late_error :
    DestroyerRun (firstCounts none) [hourlyChaos 1, hourlyChaos 2]
      ([.pull, .pull] ++ secondSignals ++ [.inner 0 .instanceCount])
      ⟨[], [(hourlyChaos 1, .failed), (hourlyChaos 2, .saved secondEvent)], [secondEvent], true⟩
      (countCalls ++ secondCalls) := rfl

/-- The first chaos has an error before the second one has got anywhere. -/
theorem run_with_early_error :
    DestroyerRun (firstCounts none) [hourlyChaos 1, hourlyChaos 2]
      [.pull, .pull, .inner 0 .instanceCount]
      ⟨[], [(hourlyChaos 1, .failed), (hourlyChaos 2, .counting)], [], true⟩ countCalls := rfl

theorem chaoses_isolated_late :
    (effectsOf 1 (countCalls ++ [(0, Effect.save firstEvent true)] ++ secondCalls)).count
        (.terminateInstance (hourlyChaos 2).application 1) =
      (effectsOf 1 (countCalls ++ secondCalls)).count
        (.terminateInstance (hourlyChaos 2).application 1) := by
  have hbehave : firstCounts (some 0) (hourlyChaos 2) = firstCounts none (hourlyChaos 2) := rfl
  have hsave : ∀ e ok e' ok',
      (1, Effect.save e ok) ∈ countCalls ++ [(0, Effect.save firstEvent true)] ++ secondCalls →
        (1, Effect.save e' ok') ∈ countCalls ++ secondCalls → ok = ok' := by
    intro e ok e' ok' h h'
    obtain ⟨-, rfl⟩ : e = secondEvent ∧ ok = true := by simpa [countCalls, secondCalls] using h
    obtain ⟨-, rfl⟩ : e' = secondEvent ∧ ok' = true := by simpa [countCalls, secondCalls] using h'
    rfl
  exact (chaoses_isolated rfl hbehave run_without_error run_with_late_error
    (stuck_of_ended (by decide)) (stuck_of_ended (by decide)) hsave (by decide) (by decide)).1 _ _

/-- An error of one chaos cuts the others short: the second chaos loses its call. -/
theorem siblings_not_isolated :
    ¬ ∀ (chaoses : List Chaos) (k : ℕ) (c : Chaos) (behave behave' : Chaos → Behaviour)
        (xs xs' : List (Signal ChaosSignal)) (s s' : Destroyer) (log log' : List (ℕ × Effect)),
      chaoses[k]? = some c → behave c = behave' c →
      DestroyerRun behave chaoses xs s log → DestroyerRun behave' chaoses xs' s' log' →
      (∀ x, Destroyer.step behave s x = none) → (∀ x, Destroyer.step behave' s' x = none) →
      (∀ e ok e' ok', (k, Effect.save e ok) ∈ log → (k, Effect.save e' ok') ∈ log' → ok = ok') →
      (∀ a i, (effectsOf k log).count (.terminateInstance a i) =
        (effectsOf k log').count (.terminateInstance a i)) ∧
      ((behave c).instanceCount ≠ none → (∀ e, (k, Effect.save e false) ∉ log) →
        ∃ e e', (effectsOf k log).filter Effect.isSave = [.save e true] ∧
          (effectsOf k log').filter Effect.isSave = [.save e' true] ∧
          e.chaos = c ∧ e'.chaos = c ∧ e.executedAt = e'.executedAt ∧
          e.terminatedInstances.Perm e'.terminatedInstances ∧
          e.totalInstanceCount = e'.totalInstanceCount) := by
  intro h
  have hbehave : firstCounts none (hourlyChaos 2) = firstCounts (some 0) (hourlyChaos 2) := rfl
  have hcount := (h _ 1 (hourlyChaos 2) _ _ _ _ _ _ _ _ rfl hbehave run_with_early_error
    run_without_error (stuck_of_ended (by decide)) (stuck_of_ended (by decide))
    (by simp [countCalls])).1 (hourlyChaos 2).application 1
  exact absurd hcount (by decide)

end ChaosLoris
