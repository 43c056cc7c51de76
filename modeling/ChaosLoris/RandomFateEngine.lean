import Mathlib.Data.Set.Basic
import Mathlib.Tactic.NormNum
import ChaosLoris.CloudFoundryPlatform

/-!
# `RandomFateEngine`

A fate is a draw from `[0, 1)` compared with the probability of the chaos. A chaos that has the
destroyer for itself uses one draw for each of its indices, in the order of the indices
(`DestroyerRun.requests_of_alone`), so which instances it terminates is decided by the draws alone,
and more of them are terminated the higher its probability is (`destruction_monotone`).
-/

namespace ChaosLoris

open FlatMap Runs

/-- `getFate`, with the draw that `nextDouble` returns. -/
def RandomFateEngine.getFate (draw : ℚ) (chaos : Chaos) : Fate :=
  if draw < chaos.probability then .thumbsDown else .thumbsUp

/-- A chaos with `n` instances whose fates are decided by the draws `u`. -/
def RandomFateEngine.behaviour (n : ℕ) (u : ℕ → ℚ) (terminates : ℕ → Bool) (now : Instant)
    (c : Chaos) : Behaviour where
  instanceCount := some n
  terminates := terminates
  fate := fun k => RandomFateEngine.getFate (u k) c
  now := now

/-- The indices that `terminateInstance` is called for. -/
def targeted (log : List (ℕ × Effect)) : Set ℕ :=
  {i | ∃ k a, (k, Effect.terminateInstance a i) ∈ log}

section Alone

variable {behave : Chaos → Behaviour} {c : Chaos} {xs : List (Signal ChaosSignal)} {d : Destroyer}
  {log : List (ℕ × Effect)} {n : ℕ} {u : ℕ → ℚ} {terminates : ℕ → Bool} {now : Instant}

theorem mem_targeted {i : ℕ} :
    i ∈ targeted log ↔ ∃ g, .terminateInstance g i ∈ platformRequests (log.map Prod.snd) := by
  unfold platformRequests
  simp only [List.mem_filterMap, List.mem_map]
  constructor
  · rintro ⟨k, a, h⟩
    exact ⟨a.applicationId, _, ⟨_, h, rfl⟩, rfl⟩
  · rintro ⟨g, _, ⟨⟨k, e⟩, h, rfl⟩, he⟩
    cases e with
    | terminateInstance a j =>
      obtain ⟨rfl, rfl⟩ := PlatformRequest.terminateInstance.inj (Option.some.inj he)
      exact ⟨k, a, h⟩
    | getInstanceCount a => cases he
    | getFate c j => cases he
    | save e ok => cases he

/-- A run on one chaos comes to an end with the publisher of the chaos. -/
theorem DestroyerRun.alone (h : DestroyerRun behave [c] xs d log)
    (hstuck : ∀ x, Destroyer.step behave d x = none) :
    ∃ p, d.inners = [(c, p)] ∧ p.verdict ≠ .running := by
  have hsource := h.account.source_eq
  cases hinners : d.inners with
  | nil =>
    rw [hinners] at hsource
    rcases h.ended hstuck with hf | ⟨hnil, -⟩
    · obtain ⟨p, hp, -⟩ := h.account.failed_iff.mp hf
      rw [hinners] at hp
      cases hp
    · rw [hnil] at hsource
      cases hsource
  | cons q rest =>
    rw [hinners] at hsource
    obtain ⟨rfl, hrest⟩ := List.cons.inj hsource
    obtain rfl : rest = [] := List.map_eq_nil_iff.mp (List.append_eq_nil_iff.mp hrest).1
    refine ⟨q.2, rfl, fun hrunning => ?_⟩
    rcases h.ended hstuck with hf | ⟨-, hact⟩
    · obtain ⟨p, hp, hfailed⟩ := h.account.failed_iff.mp hf
      rw [hinners, List.mem_singleton] at hp
      subst hp
      have hverdict : Phase.verdict p.2 = .failed := hfailed
      rw [hrunning] at hverdict
      cases hverdict
    · exact active_eq_zero.mp hact q (hinners ▸ List.mem_singleton_self q) hrunning

theorem DestroyerRun.requests_of_alone (h : DestroyerRun behave [c] xs d log)
    (hstuck : ∀ x, Destroyer.step behave d x = none) :
    (platformRequests (log.map Prod.snd)).Perm
      (chaosRequests c (behave c) ((behave c).instanceCount.getD 0)) := by
  obtain ⟨p, hinners, hend⟩ := h.alone hstuck
  have hget : d.inners[0]? = some (c, p) := by rw [hinners]; rfl
  obtain ⟨m, -, hperm, hall⟩ := (h.tracks hget).requests
  rw [hall hend] at hperm
  have hlog := (log_perm h.flatMap_run).filterMap Effect.request
  rw [hinners] at hlog
  refine hlog.trans ?_
  show (platformRequests (effectsOf 0 log ++ [])).Perm _
  rwa [List.append_nil]

theorem targeted_of_alone
    (h : DestroyerRun (RandomFateEngine.behaviour n u terminates now) [c] xs d log)
    (hstuck : ∀ x, Destroyer.step (RandomFateEngine.behaviour n u terminates now) d x = none) :
    targeted log = {i | i < n ∧ u i < c.probability} := by
  ext i
  rw [mem_targeted]
  simp only [(h.requests_of_alone hstuck).mem_iff, terminateInstance_mem_chaosRequests]
  simp [RandomFateEngine.behaviour, RandomFateEngine.getFate]

end Alone

/-- **Destruction is monotone in the probability.** Run the destroyer on one chaos alone, to the
end, with `n` instances and the draws `u`, whatever the termination calls come to and in whatever
order. The calls are for the indices whose draw is below the probability. So a chaos with a higher
probability and the same draws has all these targets as well; at 0 there are none, and at 1 all
instances are targets. -/
theorem destruction_monotone {n : ℕ} {u : ℕ → ℚ} (hu : ∀ k, 0 ≤ u k ∧ u k < 1) {c c' : Chaos}
    {terminates terminates' : ℕ → Bool} {now now' : Instant} {xs xs' : List (Signal ChaosSignal)}
    {d d' : Destroyer} {log log' : List (ℕ × Effect)}
    (h : DestroyerRun (RandomFateEngine.behaviour n u terminates now) [c] xs d log)
    (hstuck : ∀ x, Destroyer.step (RandomFateEngine.behaviour n u terminates now) d x = none)
    (h' : DestroyerRun (RandomFateEngine.behaviour n u terminates' now') [c'] xs' d' log')
    (hstuck' : ∀ x, Destroyer.step (RandomFateEngine.behaviour n u terminates' now') d' x = none) :
    targeted log = {i | i < n ∧ u i < c.probability} ∧
      (c.probability ≤ c'.probability → targeted log ⊆ targeted log') ∧
      (c.probability = 0 → targeted log = ∅) ∧
      (c.probability = 1 → targeted log = {i | i < n}) := by
  have htargeted := targeted_of_alone h hstuck
  refine ⟨htargeted, fun hle => ?_, fun hzero => ?_, fun hone => ?_⟩
  · rw [htargeted, targeted_of_alone h' hstuck']
    rintro i ⟨hi, hlt⟩
    exact ⟨hi, hlt.trans_le hle⟩
  · rw [htargeted, hzero]
    ext i
    simp [(hu i).1]
  · rw [htargeted, hone]
    ext i
    simp [(hu i).2]

/-- The draws 1/4 and 3/4. -/
def quarters (k : ℕ) : ℚ := if k = 0 then 1 / 4 else 3 / 4

/-- The signals of a run on one chaos with two instances, whose calls are answered in this order. -/
def pairSignals (answered : List ℕ) : List (Signal ChaosSignal) :=
  [.pull, .inner 0 .instanceCount, .inner 0 (.range .pull), .inner 0 (.range .pull)] ++
    answered.map (fun i => .inner 0 (.range (.inner i ()))) ++ [.inner 0 (.save true)]

/-- The run with these draws. -/
def quartersRun (probability : ℚ) (answered : List ℕ) : Destroyer × List (ℕ × Effect) :=
  (run (logged (Destroyer.step (RandomFateEngine.behaviour 2 quarters (fun _ => true) 0)))
    (Destroyer.start [{ hourlyChaos 1 with probability }], []) (pairSignals answered)).getD
    (Destroyer.start [], [])

/-- The draw 1/4 terminates at the probability 1/2, and 3/4 only at 9/10. -/
theorem destruction_monotone_quarters :
    ∃ d log d' log',
      DestroyerRun (RandomFateEngine.behaviour 2 quarters (fun _ => true) 0)
        [{ hourlyChaos 1 with probability := 1 / 2 }] (pairSignals [0]) d log ∧
      DestroyerRun (RandomFateEngine.behaviour 2 quarters (fun _ => true) 0)
        [{ hourlyChaos 1 with probability := 9 / 10 }] (pairSignals [1, 0]) d' log' ∧
      targeted log = {0} ∧ targeted log' = {0, 1} ∧ targeted log ⊆ targeted log' := by
  have hu : ∀ k, 0 ≤ quarters k ∧ quarters k < 1 := by
    intro k
    unfold quarters
    split_ifs <;> norm_num
  have hruns : ∀ q ∈ [((1 / 2 : ℚ), [0]), (9 / 10, [1, 0])],
      DestroyerRun (RandomFateEngine.behaviour 2 quarters (fun _ => true) 0)
        [{ hourlyChaos 1 with probability := q.1 }] (pairSignals q.2) (quartersRun q.1 q.2).1
        (quartersRun q.1 q.2).2 ∧
      (quartersRun q.1 q.2).1.Ended
        (terminate (RandomFateEngine.behaviour 2 quarters (fun _ => true) 0)) := by
    unfold DestroyerRun
    decide +kernel
  obtain ⟨h, hended⟩ := hruns (1 / 2, [0]) (by simp)
  obtain ⟨h', hended'⟩ := hruns (9 / 10, [1, 0]) (by simp)
  obtain ⟨htargeted, hsub, -, -⟩ :=
    destruction_monotone hu h (stuck_of_ended hended) h' (stuck_of_ended hended')
  obtain ⟨htargeted', -, -, -⟩ :=
    destruction_monotone hu h' (stuck_of_ended hended') h' (stuck_of_ended hended')
  refine ⟨_, _, _, _, h, h', ?_, ?_, hsub (by norm_num)⟩
  · rw [htargeted]
    ext i
    constructor
    · rintro ⟨-, hlt⟩
      by_contra hi
      rw [quarters, if_neg (show i ≠ 0 from hi)] at hlt
      norm_num at hlt
    · rintro rfl
      norm_num [quarters]
  · rw [htargeted']
    ext i
    constructor
    · rintro ⟨hi, -⟩
      show i = 0 ∨ i = 1
      omega
    · rintro (rfl | rfl) <;> norm_num [quarters]

end ChaosLoris
