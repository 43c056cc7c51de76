import ChaosLoris.Destruction

/-!
# `CloudFoundryPlatform`

Each call of the platform is one request to Cloud Foundry, about the GUID of the application. Of a
publisher that has subscribed to the first `m` indices, these are a summary and a termination for
each of these indices that got thumbs down (`Tracks.requests`).
-/

namespace ChaosLoris

open FlatMap Runs

/-- `SummaryApplicationRequest` and `TerminateApplicationInstanceRequest`. -/
inductive PlatformRequest
  | summary (applicationId : UUID)
  | terminateInstance (applicationId : UUID) (index : ℕ)
  deriving DecidableEq, Repr

namespace CloudFoundryPlatform

def getInstanceCount (application : Application) : PlatformRequest :=
  .summary application.applicationId

def terminateInstance (application : Application) (index : ℕ) : PlatformRequest :=
  .terminateInstance application.applicationId index

end CloudFoundryPlatform

/-- The request a call sends. -/
def Effect.request : Effect → Option PlatformRequest
  | .getInstanceCount application => some (CloudFoundryPlatform.getInstanceCount application)
  | .terminateInstance application index =>
    some (CloudFoundryPlatform.terminateInstance application index)
  | _ => none

def platformRequests (l : List Effect) : List PlatformRequest := l.filterMap Effect.request

/-- The indices below `m` that get thumbs down. -/
def targets (b : Behaviour) (m : ℕ) : List ℕ := (List.range m).filter fun i => b.fate i = .thumbsDown

/-- The requests of a chaos that has got to the indices below `m`. -/
def chaosRequests (c : Chaos) (b : Behaviour) (m : ℕ) : List PlatformRequest :=
  CloudFoundryPlatform.getInstanceCount c.application ::
    (targets b m).map (CloudFoundryPlatform.terminateInstance c.application)

section Requests

variable {c : Chaos} {b : Behaviour} {u : Phase} {l : List Effect} {m : ℕ}

theorem platformRequests_append (l l' : List Effect) :
    platformRequests (l ++ l') = platformRequests l ++ platformRequests l' := List.filterMap_append

theorem mem_targets {i : ℕ} : i ∈ targets b m ↔ i < m ∧ b.fate i = .thumbsDown := by
  simp [targets]

theorem terminateInstance_mem_chaosRequests {g : UUID} {i : ℕ} :
    .terminateInstance g i ∈ chaosRequests c b m ↔
      c.application.applicationId = g ∧ i < m ∧ b.fate i = .thumbsDown := by
  simp only [chaosRequests, CloudFoundryPlatform.getInstanceCount,
    CloudFoundryPlatform.terminateInstance, List.mem_cons, reduceCtorEq, false_or, List.mem_map,
    PlatformRequest.terminateInstance.injEq, mem_targets]
  constructor
  · rintro ⟨i, hi, rfl, rfl⟩
    exact ⟨rfl, hi⟩
  · rintro ⟨rfl, hi⟩
    exact ⟨i, hi, rfl, rfl⟩

theorem nodup_chaosRequests (c : Chaos) (b : Behaviour) (m : ℕ) : (chaosRequests c b m).Nodup := by
  unfold chaosRequests
  rw [List.nodup_cons]
  constructor
  · simp [CloudFoundryPlatform.getInstanceCount, CloudFoundryPlatform.terminateInstance]
  · refine (List.nodup_range.filter _).map fun i j hij => ?_
    exact (PlatformRequest.terminateInstance.inj hij).2

theorem requests_callEffects (c : Chaos) (b : Behaviour) (i : ℕ) :
    platformRequests (callEffects c b i) =
      if b.fate i = .thumbsDown then [CloudFoundryPlatform.terminateInstance c.application i]
      else [] := by
  unfold callEffects
  cases b.fate i <;> rfl

theorem requests_range (c : Chaos) (b : Behaviour) (m : ℕ) :
    platformRequests ((List.range m).flatMap (callEffects c b)) =
      (targets b m).map (CloudFoundryPlatform.terminateInstance c.application) := by
  unfold targets
  induction m with
  | zero => rfl
  | succ m ih =>
    rw [List.range_succ, List.flatMap_append, platformRequests_append, ih, List.filter_append,
      List.map_append, List.flatMap_singleton, requests_callEffects]
    congr 1
    by_cases hm : b.fate m = .thumbsDown <;> simp [hm]

theorem RangeRun.requests {n : ℕ} {s : Range} {l : List (ℕ × Effect)} (h : RangeRun c b n s l) :
    (platformRequests (l.map Prod.snd)).Perm
      ((targets b s.inners.length).map (CloudFoundryPlatform.terminateInstance c.application)) := by
  rw [← requests_range]
  exact h.effects_perm.filterMap _

theorem RangeRun.length_le {n : ℕ} {s : Range} {l : List (ℕ × Effect)} (h : RangeRun c b n s l) :
    s.inners.length ≤ n := by
  have := congrArg List.length h.account.source_eq
  simp only [List.length_append, List.length_map, List.length_range] at this
  omega

/-- **The requests of a publisher.** It has got to some indices below the instance count, and to
all of them when it has ended. -/
theorem Tracks.requests (h : Tracks c b u l) :
    ∃ m ≤ b.instanceCount.getD 0, (platformRequests l).Perm (chaosRequests c b m) ∧
      (u.verdict ≠ .running → m = b.instanceCount.getD 0) := by
  cases h with
  | counting => exact ⟨0, Nat.zero_le _, List.Perm.refl _, fun hend => absurd rfl hend⟩
  | uncounted hn => exact ⟨0, Nat.zero_le _, List.Perm.refl _, fun _ => by rw [hn]; rfl⟩
  | terminating hn hr hs =>
    rw [hn]
    exact ⟨_, hr.length_le, hr.requests.cons _, fun hend => absurd rfl hend⟩
  | saving hn hr hs =>
    rw [hn]
    exact ⟨_, hr.length_le, hr.requests.cons _, fun hend => absurd rfl hend⟩
  | saved hn hr hs =>
    rw [hn, platformRequests_append]
    refine ⟨_, hr.length_le, ?_, fun _ => hr.length_eq hs⟩
    exact (List.Perm.of_eq (List.append_nil _)).trans (hr.requests.cons _)
  | unsaved hn hr hs =>
    rw [hn, platformRequests_append]
    refine ⟨_, hr.length_le, ?_, fun _ => hr.length_eq hs⟩
    exact (List.Perm.of_eq (List.append_nil _)).trans (hr.requests.cons _)

end Requests

end ChaosLoris
