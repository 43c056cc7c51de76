import ChaosLoris.StandardDestroyer

/-!
# What destroying one chaos does

`terminate_exact`: whatever the fates, the outcomes and the order in which outstanding calls are
answered, an uncancelled `terminate(chaos)` asks for one fate per index, calls
`terminateInstance` once for every index that got thumbs down, and saves one event that lists
exactly the calls that completed.

1. A publisher of one index asks, perhaps calls, and is answered at most once (`call_run`).
2. A range that has completed has subscribed to every index, so its values and its effects are
   known up to order (`range_emitted`, `range_effects`).
3. The publisher of a chaos wraps such a range (`tracks_run`), is never stuck before its end
   (`Tracks.ended_of_stuck`) and cannot go on forever (`phaseWeight_lt`).
-/

namespace ChaosLoris

open FlatMap Runs

variable {chaos : Chaos} {b : Behaviour}

/-! ## One index -/

/-- The calls made for an index. -/
def callEffects (chaos : Chaos) (b : Behaviour) (i : ℕ) : List Effect :=
  match b.fate i with
  | .thumbsDown => [.getFate chaos i, .terminateInstance chaos.application i]
  | .thumbsUp => [.getFate chaos i]

/-- What the publisher of an index has come to when it is no longer running. -/
def callEnd (b : Behaviour) (i : ℕ) : Call :=
  match b.fate i with
  | .thumbsUp => .spared
  | .thumbsDown => if b.terminates i then .terminated i else .refused

/-- The index is one of those the chaos destroys. -/
def Destroyed (b : Behaviour) (i : ℕ) : Prop :=
  b.fate i = .thumbsDown ∧ b.terminates i = true

instance : DecidablePred (Destroyed b) := fun _ => inferInstanceAs (Decidable (_ ∧ _))

theorem callEnd_out (i : ℕ) :
    ((terminateIndex chaos b).verdict (callEnd b i)).out = if Destroyed b i then [i] else [] := by
  rcases hf : b.fate i <;> rcases ht : b.terminates i <;>
    simp [callEnd, Destroyed, hf, ht, terminateIndex, Verdict.out]

theorem terminateIndex_subscribe (chaos : Chaos) (b : Behaviour) (i : ℕ) :
    ((terminateIndex chaos b).subscribe i i).2 = callEffects chaos b i ∧
      (b.fate i = .thumbsUp ∧ ((terminateIndex chaos b).subscribe i i).1 = .spared ∨
        b.fate i = .thumbsDown ∧ ((terminateIndex chaos b).subscribe i i).1 = .inFlight) := by
  unfold callEffects terminateIndex
  dsimp only
  rcases b.fate i <;> simp

/-- The publisher of an index makes all its calls at once, and then waits for at most one answer. -/
theorem call_run {i : ℕ} {xs : List Unit} {u : Call} {es : List Effect}
    (hrun : run (logged ((terminateIndex chaos b).step i)) ((terminateIndex chaos b).subscribe i i)
      xs = some (u, es)) :
    es = callEffects chaos b i ∧ (u = callEnd b i ∨ u = .inFlight) := by
  refine run_inv (P := fun p => p.2 = callEffects chaos b i ∧ (p.1 = callEnd b i ∨
    p.1 = .inFlight ∧ b.fate i = .thumbsDown)) ?_ hrun ?_ |>.imp_right (·.imp_right And.left)
  · rintro ⟨v, l⟩ x ⟨w, m⟩ h ⟨rfl, hv⟩
    obtain ⟨fs, h, rfl⟩ := logged_eq_some.mp h
    rcases hv with rfl | ⟨rfl, hf⟩
    · unfold callEnd at h
      cases hf : b.fate i <;> cases ht : b.terminates i <;> simp [terminateIndex, hf, ht] at h
    · simp only [terminateIndex, Option.some.injEq, Prod.mk.injEq] at h
      obtain ⟨rfl, rfl⟩ := h
      refine ⟨List.append_nil _, Or.inl ?_⟩
      simp [callEnd, hf]
  · obtain ⟨he, ⟨hf, hu⟩ | ⟨hf, hu⟩⟩ := terminateIndex_subscribe chaos b i
    · exact ⟨he, Or.inl (by rw [hu, callEnd, hf])⟩
    · exact ⟨he, Or.inr ⟨hu, hf⟩⟩

/-! ## The range -/

/-- The range of `n` indices gets to the state `s` with the tagged effects `l`. -/
def RangeRun (chaos : Chaos) (b : Behaviour) (n : ℕ) (s : Range) (l : List (ℕ × Effect)) : Prop :=
  ∃ xs, run (logged (FlatMap.step (terminateIndex chaos b) concurrency))
    (State.init (List.range n), []) xs = some (s, l)

section RangeFacts

variable {n : ℕ} {s : Range} {l : List (ℕ × Effect)}

theorem RangeRun.init : RangeRun chaos b n (State.init (List.range n)) [] := ⟨[], rfl⟩

theorem RangeRun.step {t : Range} {x : Signal Unit} {es : List (ℕ × Effect)}
    (h : RangeRun chaos b n s l)
    (hx : FlatMap.step (terminateIndex chaos b) concurrency s x = some (t, es)) :
    RangeRun chaos b n t (l ++ es) := by
  obtain ⟨xs, hrun⟩ := h
  exact ⟨xs ++ [x], run_logged_snoc.mpr ⟨s, l, es, hrun, hx, rfl⟩⟩

theorem RangeRun.account (h : RangeRun chaos b n s l) :
    Account (terminateIndex chaos b) concurrency (List.range n) s := by
  obtain ⟨xs, hrun⟩ := h
  exact FlatMap.account hrun

theorem RangeRun.inner (h : RangeRun chaos b n s l) {k i : ℕ} {u : Call}
    (hk : s.inners[k]? = some (i, u)) :
    i = k ∧ effectsOf k l = callEffects chaos b k ∧ (u = callEnd b k ∨ u = .inFlight) := by
  have hik : (List.range n)[k]? = some i := h.account.getElem? hk
  obtain ⟨hkn, rfl⟩ : k < n ∧ k = i := by
    rw [List.getElem?_eq_some_iff] at hik
    obtain ⟨hlt, he⟩ := hik
    simp only [List.getElem_range] at he
    exact ⟨by simpa using hlt, he⟩
  obtain ⟨xs, hrun⟩ := h
  obtain ⟨he, hu⟩ := call_run (run_inner hrun hk)
  exact ⟨rfl, he, hu⟩

/-- An error of an index never reaches the range. -/
theorem RangeRun.not_failed (h : RangeRun chaos b n s l) : s.failed = false := by
  rw [← Bool.not_eq_true, h.account.failed_iff]
  rintro ⟨⟨i, u⟩, -, hu⟩
  cases u <;> simp [terminateIndex] at hu

/-- A range that is stuck has completed. -/
theorem RangeRun.complete_of_stuck (h : RangeRun chaos b n s l)
    (hstuck : ∀ x, FlatMap.step (terminateIndex chaos b) concurrency s x = none) :
    s.Complete (terminateIndex chaos b) := by
  have hend : s.Ended (terminateIndex chaos b) := by
    refine ended_of_stuck (by decide) ?_ hstuck
    rintro ⟨i, u⟩ - hu
    cases u <;> simp [terminateIndex] at hu
    exact ⟨(), by simp [terminateIndex]⟩
  rcases hend with hf | hend
  · simp [h.not_failed] at hf
  · exact ⟨h.not_failed, hend⟩

theorem RangeRun.inners_eq (h : RangeRun chaos b n s l)
    (hs : s.Complete (terminateIndex chaos b)) :
    s.inners = (List.range n).map fun i => (i, callEnd b i) := by
  obtain ⟨-, hsrc, hact⟩ := hs
  have hfst : s.inners.map Prod.fst = List.range n := by
    have := h.account.source_eq
    rwa [hsrc, List.append_nil] at this
  have hlen : s.inners.length = n := by simpa using congrArg List.length hfst
  refine List.ext_getElem? fun k => ?_
  by_cases hk : k < n
  · obtain ⟨⟨i, u⟩, hiu⟩ : ∃ p, s.inners[k]? = some p :=
      ⟨_, List.getElem?_eq_getElem (by omega)⟩
    obtain ⟨rfl, -, hu⟩ := h.inner hiu
    have hrun := active_eq_zero.mp hact (i, u) (List.mem_of_getElem? hiu)
    rcases hu with rfl | rfl
    · rw [hiu, List.getElem?_map, List.getElem?_range hk]
      rfl
    · exact absurd rfl hrun
  · rw [List.getElem?_eq_none (by omega), List.getElem?_eq_none (by simp; omega)]

theorem RangeRun.length_eq (h : RangeRun chaos b n s l)
    (hs : s.Complete (terminateIndex chaos b)) : s.inners.length = n := by
  rw [h.inners_eq hs, List.length_map, List.length_range]

theorem flatMap_ite_eq_filter (p : ℕ → Prop) [DecidablePred p] (l : List ℕ) :
    l.flatMap (fun i => if p i then [i] else []) = l.filter p := by
  induction l with
  | nil => rfl
  | cons i l ih => by_cases h : p i <;> simp [h, ih]

/-- The values of a completed range. -/
theorem range_emitted (h : RangeRun chaos b n s l) (hs : s.Complete (terminateIndex chaos b)) :
    s.emitted.Perm ((List.range n).filter (Destroyed b)) := by
  have hperm := h.account.emitted_perm
  rw [h.inners_eq hs, List.flatMap_map] at hperm
  simp only [callEnd_out, flatMap_ite_eq_filter] at hperm
  exact hperm

theorem RangeRun.effects_perm (h : RangeRun chaos b n s l) : (l.map Prod.snd).Perm
    ((List.range s.inners.length).flatMap (callEffects chaos b)) := by
  obtain ⟨xs, hrun⟩ := id h
  refine (log_perm hrun).trans (List.Perm.of_eq ?_)
  refine List.flatMap_congr fun k hk => ?_
  have hk' := List.getElem?_eq_getElem (List.mem_range.mp hk)
  exact (h.inner hk').2.1

/-- The calls of a completed range. -/
theorem range_effects (h : RangeRun chaos b n s l) (hs : s.Complete (terminateIndex chaos b)) :
    (l.map Prod.snd).Perm ((List.range n).flatMap (callEffects chaos b)) := by
  have := h.effects_perm
  rwa [h.length_eq hs] at this

end RangeFacts

/-! ## Counting the calls of a range -/

theorem count_getFate_callEffects (c : Chaos) (i k : ℕ) :
    (callEffects chaos b k).count (.getFate c i) = if chaos = c ∧ k = i then 1 else 0 := by
  unfold callEffects
  rcases b.fate k <;> simp [List.count_cons]

theorem count_terminateInstance_callEffects (a : Application) (i k : ℕ) :
    (callEffects chaos b k).count (.terminateInstance a i) =
      if (chaos.application = a ∧ b.fate i = .thumbsDown) ∧ k = i then 1 else 0 := by
  unfold callEffects
  rcases hf : b.fate k
  · rw [if_neg (by rintro ⟨⟨-, h⟩, rfl⟩; simp [hf] at h)]
    simp
  · have hi : (chaos.application = a ∧ b.fate i = .thumbsDown) ∧ k = i ↔
        chaos.application = a ∧ k = i :=
      ⟨fun h => ⟨h.1.1, h.2⟩, fun h => ⟨⟨h.1, h.2 ▸ hf⟩, h.2⟩⟩
    simp only [hi]
    simp [List.count_cons]

theorem count_flatMap_range {e : Effect} {f : ℕ → List Effect} {i : ℕ} {q : Prop} [Decidable q]
    (h : ∀ k, (f k).count e = if q ∧ k = i then 1 else 0) (n : ℕ) :
    ((List.range n).flatMap f).count e = if q ∧ i < n then 1 else 0 := by
  induction n with
  | zero => simp
  | succ n ih =>
    rw [List.range_succ, List.flatMap_append, List.count_append, ih]
    simp only [List.flatMap_cons, List.flatMap_nil, List.append_nil, h]
    by_cases hq : q <;> simp only [hq, true_and, false_and, if_false, add_zero]
    split_ifs <;> omega

theorem count_getFate_range (c : Chaos) (i n : ℕ) :
    ((List.range n).flatMap (callEffects chaos b)).count (.getFate c i) =
      if c = chaos ∧ i < n then 1 else 0 := by
  rw [count_flatMap_range (count_getFate_callEffects c i)]
  simp only [@eq_comm _ chaos]

theorem count_terminateInstance_range (a : Application) (i n : ℕ) :
    ((List.range n).flatMap (callEffects chaos b)).count (.terminateInstance a i) =
      if a = chaos.application ∧ i < n ∧ b.fate i = .thumbsDown then 1 else 0 := by
  rw [count_flatMap_range (count_terminateInstance_callEffects a i)]
  simp only [@eq_comm _ chaos.application, and_assoc, and_comm (a := i < n)]

/-! ## The publisher of a chaos -/

/-- How the publisher of a chaos got to a phase, and the calls it made on the way. -/
inductive Tracks (chaos : Chaos) (b : Behaviour) : Phase → List Effect → Prop
  | counting : Tracks chaos b .counting [.getInstanceCount chaos.application]
  | uncounted (hn : b.instanceCount = none) :
      Tracks chaos b .failed [.getInstanceCount chaos.application]
  | terminating {n : ℕ} {s : Range} {l : List (ℕ × Effect)} (hn : b.instanceCount = some n)
      (h : RangeRun chaos b n s l) (hs : ¬ s.Complete (terminateIndex chaos b)) :
      Tracks chaos b (.terminating n s) (.getInstanceCount chaos.application :: l.map Prod.snd)
  | saving {n : ℕ} {s : Range} {l : List (ℕ × Effect)} (hn : b.instanceCount = some n)
      (h : RangeRun chaos b n s l) (hs : s.Complete (terminateIndex chaos b)) :
      Tracks chaos b (.saving (Event.new chaos b.now s.emitted n))
        (.getInstanceCount chaos.application :: l.map Prod.snd)
  | saved {n : ℕ} {s : Range} {l : List (ℕ × Effect)} (hn : b.instanceCount = some n)
      (h : RangeRun chaos b n s l) (hs : s.Complete (terminateIndex chaos b)) :
      Tracks chaos b (.saved (Event.new chaos b.now s.emitted n))
        (.getInstanceCount chaos.application :: l.map Prod.snd ++
          [.save (Event.new chaos b.now s.emitted n) true])
  | unsaved {n : ℕ} {s : Range} {l : List (ℕ × Effect)} (hn : b.instanceCount = some n)
      (h : RangeRun chaos b n s l) (hs : s.Complete (terminateIndex chaos b)) :
      Tracks chaos b .failed (.getInstanceCount chaos.application :: l.map Prod.snd ++
        [.save (Event.new chaos b.now s.emitted n) false])

theorem tracks_collectList {n : ℕ} {s : Range} {l : List (ℕ × Effect)}
    (hn : b.instanceCount = some n) (h : RangeRun chaos b n s l) :
    Tracks chaos b (collectList chaos b n s)
      (.getInstanceCount chaos.application :: l.map Prod.snd) := by
  unfold collectList
  by_cases hs : s.Complete (terminateIndex chaos b)
  · rw [if_pos hs]
    exact .saving hn h hs
  · rw [if_neg hs]
    exact .terminating hn h hs

theorem terminateStep_cases {p q : Phase} {x : ChaosSignal} {es : List Effect}
    (h : terminateStep chaos b p x = some (q, es)) :
    (p = .counting ∧ x = .instanceCount ∧ b.instanceCount = none ∧ q = .failed ∧ es = []) ∨
      (∃ n, p = .counting ∧ x = .instanceCount ∧ b.instanceCount = some n ∧
        q = collectList chaos b n (State.init (List.range n)) ∧ es = []) ∨
      (∃ n s y t fs, p = .terminating n s ∧ x = .range y ∧
        FlatMap.step (terminateIndex chaos b) concurrency s y = some (t, fs) ∧
        q = collectList chaos b n t ∧ es = fs.map Prod.snd) ∨
      ∃ event ok, p = .saving event ∧ x = .save ok ∧
        q = (if ok then .saved event else .failed) ∧ es = [.save event ok] := by
  cases p with
  | counting =>
    cases x with
    | instanceCount =>
      cases hn : b.instanceCount with
      | none =>
        simp only [terminateStep, hn, Option.some.injEq, Prod.mk.injEq] at h
        exact Or.inl ⟨rfl, rfl, rfl, h.1.symm, h.2.symm⟩
      | some n =>
        simp only [terminateStep, hn, Option.some.injEq, Prod.mk.injEq] at h
        exact Or.inr (Or.inl ⟨n, rfl, rfl, rfl, h.1.symm, h.2.symm⟩)
    | range y => simp [terminateStep] at h
    | save ok => simp [terminateStep] at h
  | terminating n s =>
    cases x with
    | range y =>
      simp only [terminateStep, Option.map_eq_some_iff, Prod.mk.injEq] at h
      obtain ⟨⟨t, fs⟩, ht, rfl, rfl⟩ := h
      exact Or.inr (Or.inr (Or.inl ⟨n, s, y, t, fs, rfl, rfl, ht, rfl, rfl⟩))
    | instanceCount => simp [terminateStep] at h
    | save ok => simp [terminateStep] at h
  | saving event =>
    cases x with
    | save ok =>
      simp only [terminateStep, Option.some.injEq, Prod.mk.injEq] at h
      exact Or.inr (Or.inr (Or.inr ⟨event, ok, rfl, rfl, h.1.symm, h.2.symm⟩))
    | instanceCount => simp [terminateStep] at h
    | range y => simp [terminateStep] at h
  | saved event => cases x <;> simp [terminateStep] at h
  | failed => cases x <;> simp [terminateStep] at h

theorem tracks_step {p q : Phase} {log es : List Effect} {x : ChaosSignal}
    (h : terminateStep chaos b p x = some (q, es)) (hp : Tracks chaos b p log) :
    Tracks chaos b q (log ++ es) := by
  obtain ⟨rfl, -, hn, rfl, rfl⟩ | ⟨n, rfl, -, hn, rfl, rfl⟩ |
    ⟨n, s, y, t, fs, rfl, rfl, ht, rfl, rfl⟩ | ⟨event, ok, rfl, rfl, rfl, rfl⟩ :=
    terminateStep_cases h
  · cases hp
    exact .uncounted hn
  · cases hp
    exact tracks_collectList hn .init
  · cases hp with
    | terminating hn hr hs =>
      have := tracks_collectList hn (hr.step ht)
      rwa [List.map_append] at this
  · cases hp with
    | saving hn hr hs =>
      cases ok with
      | true => exact .saved hn hr hs
      | false => exact .unsaved hn hr hs

theorem tracks_run {xs : List ChaosSignal} {p : Phase} {log : List Effect}
    (hrun : run (logged (terminateStep chaos b)) (terminateStart chaos) xs = some (p, log)) :
    Tracks chaos b p log := by
  refine run_inv (P := fun q => Tracks chaos b q.1 q.2) ?_ hrun .counting
  rintro ⟨p, l⟩ x ⟨q, m⟩ h hp
  obtain ⟨es, h, rfl⟩ := logged_eq_some.mp h
  exact tracks_step h hp

/-! ## Ends -/

theorem Tracks.ended_of_stuck {p : Phase} {log : List Effect} (hp : Tracks chaos b p log)
    (hstuck : ∀ x, terminateStep chaos b p x = none) : p.verdict ≠ .running := by
  cases hp with
  | counting =>
    have := hstuck .instanceCount
    cases hn : b.instanceCount <;> simp [terminateStep, hn] at this
  | uncounted hn => simp [Phase.verdict]
  | @terminating n s l hn hr hs =>
    refine absurd (hr.complete_of_stuck fun y => ?_) hs
    have := hstuck (.range y)
    simpa [terminateStep] using this
  | saving hn hr hs =>
    have := hstuck (.save true)
    simp [terminateStep] at this
  | saved hn hr hs => simp [Phase.verdict]
  | unsaved hn hr hs => simp [Phase.verdict]

/-- The weight of a range: two for an index to come, one for a call to be answered. -/
def rangeWeight (s : Range) : ℕ :=
  weight (fun _ => 2) (fun _ u => if u = Call.inFlight then 1 else 0) s

theorem rangeWeight_init (n : ℕ) : rangeWeight (State.init (List.range n)) = 2 * n := by
  simp [rangeWeight, weight, State.init, Nat.mul_comm]

theorem rangeWeight_lt {s t : Range} {y : Signal Unit} {fs : List (ℕ × Effect)}
    (h : FlatMap.step (terminateIndex chaos b) concurrency s y = some (t, fs)) :
    rangeWeight t < rangeWeight s := by
  refine weight_lt ?_ ?_ h
  · intro k i
    split_ifs <;> omega
  · rintro i u y u' fs hu
    cases u with
    | inFlight =>
      simp only [terminateIndex, Option.some.injEq, Prod.mk.injEq] at hu
      rw [← hu.1]
      cases b.terminates i <;> simp
    | spared => simp [terminateIndex] at hu
    | terminated j => simp [terminateIndex] at hu
    | refused => simp [terminateIndex] at hu

/-- The signals that can still come, at most. -/
def phaseWeight (b : Behaviour) : Phase → ℕ
  | .counting => 2 * b.instanceCount.getD 0 + 2
  | .terminating _ s => rangeWeight s + 1
  | .saving _ => 1
  | .saved _ => 0
  | .failed => 0

theorem phaseWeight_collectList_le (chaos : Chaos) (b : Behaviour) (n : ℕ) (s : Range) :
    phaseWeight b (collectList chaos b n s) ≤ rangeWeight s + 1 := by
  unfold collectList
  split_ifs <;> simp [phaseWeight]

theorem phaseWeight_lt {p q : Phase} {x : ChaosSignal} {es : List Effect}
    (h : terminateStep chaos b p x = some (q, es)) : phaseWeight b q < phaseWeight b p := by
  obtain ⟨rfl, -, -, rfl, -⟩ | ⟨n, rfl, -, hn, rfl, -⟩ |
    ⟨n, s, y, t, fs, rfl, -, ht, rfl, -⟩ | ⟨event, ok, rfl, -, rfl, -⟩ := terminateStep_cases h
  · simp [phaseWeight]
  · have := phaseWeight_collectList_le chaos b n (State.init (List.range n))
    rw [rangeWeight_init] at this
    have hw : phaseWeight b .counting = 2 * n + 2 := by simp [phaseWeight, hn]
    omega
  · have h1 := phaseWeight_collectList_le chaos b n t
    have h2 := rangeWeight_lt ht
    have hw : phaseWeight b (.terminating n s) = rangeWeight s + 1 := rfl
    omega
  · cases ok <;> simp [phaseWeight]

/-! ## Exactness -/

def Effect.isSave : Effect → Bool
  | .save _ _ => true
  | _ => false

theorem isSave_of_range_step {s t : Range} {y : Signal Unit} {fs : List (ℕ × Effect)}
    (h : FlatMap.step (terminateIndex chaos b) concurrency s y = some (t, fs)) :
    ∀ p ∈ fs, p.2.isSave = false := by
  obtain ⟨-, ⟨i, rest, -, -, -, -, rfl⟩ | ⟨k, z, i, v, v', gs, -, -, -, hz, -, rfl⟩⟩ :=
    FlatMap.step_cases h
  · intro p hp
    obtain ⟨f, hf, rfl⟩ := List.mem_map.mp hp
    simp only [terminateIndex] at hf
    cases hfate : b.fate s.inners.length <;> simp only [hfate, List.mem_cons, List.not_mem_nil,
      or_false] at hf
    · rw [hf]
      rfl
    · rcases hf with rfl | rfl <;> rfl
  · cases v <;> simp [terminateIndex] at hz
    obtain ⟨-, rfl⟩ := hz
    simp

theorem filter_isSave_range {n : ℕ} {s : Range} {l : List (ℕ × Effect)}
    (h : RangeRun chaos b n s l) : (l.map Prod.snd).filter Effect.isSave = [] := by
  obtain ⟨xs, hrun⟩ := h
  have hnone : ∀ p ∈ l, p.2.isSave = false := by
    refine run_inv (P := fun q : Range × List (ℕ × Effect) => ∀ p ∈ q.2, p.2.isSave = false) ?_
      hrun (by simp)
    rintro q y r hstep hq
    obtain ⟨fs, hy, hr⟩ := logged_eq_some.mp hstep
    rw [hr]
    intro p hp
    exact (List.mem_append.mp hp).elim (hq p) (isSave_of_range_step hy p)
  rw [List.filter_eq_nil_iff]
  intro e he
  obtain ⟨p, hp, rfl⟩ := List.mem_map.mp he
  simp [hnone p hp]

theorem Tracks.filter_isSave_of_running {p : Phase} {log : List Effect} (h : Tracks chaos b p log)
    (hrun : p.verdict = .running) : log.filter Effect.isSave = [] := by
  cases h with
  | counting => rfl
  | uncounted _ => cases hrun
  | terminating _ hr _ => exact filter_isSave_range hr
  | saving _ hr _ => exact filter_isSave_range hr
  | saved _ _ _ => cases hrun
  | unsaved _ _ _ => cases hrun

theorem save_effects {n : ℕ} {s : Range} {l : List (ℕ × Effect)} (event : Event) (ok : Bool)
    (h : RangeRun chaos b n s l) (hs : s.Complete (terminateIndex chaos b)) :
    (Effect.getInstanceCount chaos.application :: l.map Prod.snd ++ [Effect.save event ok]).Perm
      (Effect.getInstanceCount chaos.application ::
        (List.range n).flatMap (callEffects chaos b) ++ [Effect.save event ok]) :=
  ((range_effects h hs).cons _).append_right _

theorem filter_isSave_save {n : ℕ} {s : Range} {l : List (ℕ × Effect)} (event : Event) (ok : Bool)
    (h : RangeRun chaos b n s l) :
    (Effect.getInstanceCount chaos.application :: l.map Prod.snd ++
      [Effect.save event ok]).filter Effect.isSave = [.save event ok] := by
  rw [List.filter_append, List.filter_cons, filter_isSave_range h]
  rfl

/-- A publisher that has ended could not count its instances, or it has made its calls and handed
its event to `save`. -/
theorem Tracks.summary {p : Phase} {log : List Effect} (h : Tracks chaos b p log)
    (hend : p.verdict ≠ .running) :
    (b.instanceCount = none ∧ p = .failed ∧ log = [.getInstanceCount chaos.application]) ∨
      ∃ n e ok, b.instanceCount = some n ∧ p = (if ok then .saved e else .failed) ∧
        log.Perm (Effect.getInstanceCount chaos.application ::
          (List.range n).flatMap (callEffects chaos b) ++ [Effect.save e ok]) ∧
        log.filter Effect.isSave = [.save e ok] ∧
        e.chaos = chaos ∧ e.executedAt = b.now ∧ e.totalInstanceCount = n ∧
        e.terminatedInstances.Perm ((List.range n).filter (Destroyed b)) := by
  cases h with
  | counting => exact absurd rfl hend
  | uncounted hn => exact Or.inl ⟨hn, rfl, rfl⟩
  | terminating _ _ _ => exact absurd rfl hend
  | saving _ _ _ => exact absurd rfl hend
  | @saved n s l hn hr hs =>
    exact Or.inr ⟨n, Event.new chaos b.now s.emitted n, true, hn, rfl, save_effects _ _ hr hs,
      filter_isSave_save _ _ hr, rfl, rfl, rfl, range_emitted hr hs⟩
  | @unsaved n s l hn hr hs =>
    exact Or.inr ⟨n, Event.new chaos b.now s.emitted n, false, hn, rfl, save_effects _ _ hr hs,
      filter_isSave_save _ _ hr, rfl, rfl, rfl, range_emitted hr hs⟩

/-- **One destruction is exact.** When the publisher of a chaos with `n` instances has come to its
end, and its save did not fail, every index was asked for once, `terminateInstance` was called
once for each index with thumbs down, and one event was saved, with the calls that completed.
It does come to its end: at most `2 * n + 2` signals are taken before nothing is outstanding. -/
theorem terminate_exact {n : ℕ} {xs : List ChaosSignal} {p : Phase} {log : List Effect}
    (hn : b.instanceCount = some n)
    (hrun : run (logged (terminateStep chaos b)) (terminateStart chaos) xs = some (p, log)) :
    xs.length ≤ 2 * n + 2 ∧
      ((∀ x, terminateStep chaos b p x = none) → (∀ e, Effect.save e false ∉ log) →
        (∀ c i, log.count (.getFate c i) = if c = chaos ∧ i < n then 1 else 0) ∧
        (∀ a i, log.count (.terminateInstance a i) =
          if a = chaos.application ∧ i < n ∧ b.fate i = .thumbsDown then 1 else 0) ∧
        ∃ e, p = .saved e ∧ log.filter Effect.isSave = [.save e true] ∧ e.chaos = chaos ∧
          e.terminatedInstances.Nodup ∧
          e.terminatedInstances.Perm ((List.range n).filter fun i =>
            b.fate i = .thumbsDown ∧ b.terminates i = true) ∧
          e.totalInstanceCount = n ∧
          e.getTerminatedInstanceCount = e.terminatedInstances.length ∧
          e.getTerminatedInstanceCount ≤ n) := by
  constructor
  · have hlen := length_le_of_run (μ := fun q => phaseWeight b q.1) (fun q x r h => by
      obtain ⟨es, h, -⟩ := logged_eq_some.mp h
      exact phaseWeight_lt h) hrun
    have hstart : phaseWeight b (terminateStart chaos).1 = 2 * n + 2 := by
      simp [terminateStart, phaseWeight, hn]
    omega
  intro hstuck hsave
  have htracks := tracks_run hrun
  obtain ⟨hnone, -, -⟩ | ⟨m, e, ok, hm, hp, hlog, hfilter, hchaos, -, htotal, hperm⟩ :=
    htracks.summary (htracks.ended_of_stuck hstuck)
  · simp [hn] at hnone
  · obtain rfl : m = n := Option.some.inj (hm.symm.trans hn)
    have hmem : Effect.save e ok ∈ log :=
      List.mem_of_mem_filter (hfilter ▸ List.mem_singleton_self (Effect.save e ok))
    obtain rfl : ok = true := by
      cases ok with
      | true => rfl
      | false => exact absurd hmem (hsave e)
    have hnodup : e.terminatedInstances.Nodup :=
      hperm.nodup_iff.mpr (List.nodup_range.filter _)
    have hle : e.terminatedInstances.length ≤ m := by
      rw [hperm.length_eq]
      exact (List.length_filter_le _ _).trans (List.length_range ..).le
    refine ⟨fun c i => ?_, fun a i => ?_, e, hp, hfilter, hchaos, hnodup, hperm, htotal, rfl, hle⟩
    · rw [hlog.count_eq, List.count_append, List.count_cons, count_getFate_range]
      simp
    · rw [hlog.count_eq, List.count_append, List.count_cons, count_terminateInstance_range]
      simp

/-- A chaos of a schedule that runs every hour. -/
def hourlyChaos (id : Id) : Chaos :=
  { application := ⟨BitVec.ofInt 128 id, id⟩, id, probability := 1 / 2,
    schedule := ⟨"0 0 * * * *", 1, "hourly"⟩ }

/-- Two instances, of which the first is spared. -/
def spareFirst : Behaviour :=
  { instanceCount := some 2, terminates := fun _ => true,
    fate := fun k => if k = 0 then .thumbsUp else .thumbsDown, now := 0 }

/-- The hourly chaos on these two instances, from its count to its save. -/
theorem terminate_exact_spareFirst :
    ∃ p log, run (logged (terminateStep (hourlyChaos 1) spareFirst)) (terminateStart (hourlyChaos 1))
        [.instanceCount, .range .pull, .range .pull, .range (.inner 1 ()), .save true] =
          some (p, log) ∧
      log.count (.terminateInstance (hourlyChaos 1).application 1) = 1 ∧
      ∃ e, p = .saved e ∧ e.totalInstanceCount = 2 ∧
        e.terminatedInstances.Perm ((List.range 2).filter fun i =>
          spareFirst.fate i = .thumbsDown ∧ spareFirst.terminates i = true) := by
  have hrun : run (logged (terminateStep (hourlyChaos 1) spareFirst))
      (terminateStart (hourlyChaos 1))
      [.instanceCount, .range .pull, .range .pull, .range (.inner 1 ()), .save true] =
        some (.saved (Event.new (hourlyChaos 1) 0 [1] 2),
          [.getInstanceCount (hourlyChaos 1).application, .getFate (hourlyChaos 1) 0,
            .getFate (hourlyChaos 1) 1, .terminateInstance (hourlyChaos 1).application 1,
            .save (Event.new (hourlyChaos 1) 0 [1] 2) true]) := rfl
  obtain ⟨-, h⟩ := terminate_exact (n := 2) rfl hrun
  obtain ⟨-, hcalls, e, he, -, -, -, hperm, htotal, -⟩ :=
    h (by intro x; cases x <;> rfl) (by simp)
  exact ⟨_, _, hrun, hcalls _ 1, e, he, htotal, hperm⟩

end ChaosLoris
