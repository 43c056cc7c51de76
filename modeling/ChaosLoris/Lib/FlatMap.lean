import Mathlib.Data.Finset.Card
import Mathlib.Data.List.Induction
import Mathlib.Data.List.Nodup
import Mathlib.Data.List.Perm.Basic
import Mathlib.Algebra.Order.BigOperators.Group.List
import Mathlib.Algebra.Ring.Nat
import ChaosLoris.Lib.Runs

/-!
# Merging the inner publishers of a source with bounded concurrency

`flatMap` maps the elements of a source, in source order, to inner publishers, subscribes to at
most `concurrency` of them at a time, and passes on what they emit in the order it arrives. The
first inner error ends the whole with that error and cancels everything else.

An inner publisher is a state machine that emits at most one value, on completion. `pull` takes
the next source element; `inner k x` delivers the signal `x` to the inner publisher of the `k`-th
element. Signals may come in any order, so a run is one asynchronous execution.

1. `account`: in every reachable state, what was subscribed and what is left is the source, the
   downstream has exactly the values of the completed inner publishers, and at most `concurrency`
   are active.
2. `run_inner`: seen from its `k`-th inner publisher, a run is a run of that publisher alone.
3. `log_perm`: the effects of a run are those of its publishers, interleaved.
4. `ended_of_stuck`, `stuck_of_ended`, `weight_lt`: a run can always be continued to an end, and
   has to end. `source_eq_nil_of_hung`: publishers that are never answered do not keep the others
   from ending, if there are fewer than `concurrency` of them.
-/

namespace FlatMap

open Runs

variable {α σ ι ε β : Type*}

/-- What an inner publisher has come to. -/
inductive Verdict (β : Type*)
  | running
  | completed (value : Option β)
  | failed
  deriving DecidableEq, Repr

/-- The values passed downstream. -/
def Verdict.out : Verdict β → List β
  | completed (some b) => [b]
  | _ => []

def Verdict.isRunning : Verdict β → Bool
  | running => true
  | _ => false

def Verdict.isFailed : Verdict β → Bool
  | failed => true
  | _ => false

/-- Inner publishers: `subscribe k a` starts the one of the `k`-th mapped element `a`. -/
structure Inner (α σ ι ε β : Type*) where
  subscribe : ℕ → α → σ × List ε
  step : α → σ → ι → Option (σ × List ε)
  verdict : σ → Verdict β

/-- The operator between two signals. `inners` keeps every publisher ever subscribed, in order. -/
structure State (α σ β : Type*) where
  source : List α
  inners : List (α × σ)
  emitted : List β
  failed : Bool
  deriving DecidableEq, Repr

/-- Before anything is subscribed. -/
def State.init (as : List α) : State α σ β := ⟨as, [], [], false⟩

inductive Signal (ι : Type*)
  | pull
  | inner (k : ℕ) (x : ι)
  deriving DecidableEq, Repr

/-- Pass on what an inner publisher has come to. -/
def State.settle (s : State α σ β) (v : Verdict β) : State α σ β :=
  { s with emitted := s.emitted ++ v.out, failed := v.isFailed }

variable (I : Inner α σ ι ε β) (concurrency : ℕ)

/-- The number of inner publishers that are still running. -/
def State.active (s : State α σ β) : ℕ := s.inners.countP fun p => (I.verdict p.2).isRunning

/-- Subscribe to the next element. An effect is tagged with the position of its publisher. -/
def State.pull (s : State α σ β) : Option (State α σ β × List (ℕ × ε)) :=
  match s.source with
  | [] => none
  | a :: rest =>
    if s.failed = false ∧ s.active I < concurrency then
      let p := I.subscribe s.inners.length a
      some (State.settle { s with source := rest, inners := s.inners ++ [(a, p.1)] }
        (I.verdict p.1), p.2.map (s.inners.length, ·))
    else none

/-- A signal for the publisher at position `k`. -/
def State.deliver (s : State α σ β) (k : ℕ) (x : ι) : Option (State α σ β × List (ℕ × ε)) :=
  match s.inners[k]? with
  | none => none
  | some p =>
    if s.failed = false ∧ (I.verdict p.2).isRunning = true then
      (I.step p.1 p.2 x).map fun q =>
        (State.settle { s with inners := s.inners.set k (p.1, q.1) } (I.verdict q.1),
          q.2.map (k, ·))
    else none

def step (s : State α σ β) : Signal ι → Option (State α σ β × List (ℕ × ε))
  | .pull => s.pull I concurrency
  | .inner k x => s.deliver I k x

/-- Nothing is left to do: an error ended the operator, or all its publishers have completed. -/
def State.Ended (s : State α σ β) : Prop :=
  s.failed = true ∨ s.source = [] ∧ s.active I = 0

instance (s : State α σ β) : Decidable (s.Ended I) := inferInstanceAs (Decidable (_ ∨ _ ∧ _))

/-- The operator has completed without an error. -/
def State.Complete (s : State α σ β) : Prop :=
  s.failed = false ∧ s.source = [] ∧ s.active I = 0

instance (s : State α σ β) : Decidable (s.Complete I) := inferInstanceAs (Decidable (_ ∧ _ ∧ _))

/-- The signals a run delivers to the publisher at position `k`. -/
def signalsOf (k : ℕ) (xs : List (Signal ι)) : List ι :=
  xs.filterMap fun
    | .pull => none
    | .inner j x => if j = k then some x else none

/-- The effects of the publisher at position `k`. -/
def effectsOf (k : ℕ) (log : List (ℕ × ε)) : List ε :=
  log.filterMap fun p => if p.1 = k then some p.2 else none

/-! ## Small facts -/

section Facts

variable {I concurrency} {s t : State α σ β}

@[simp] theorem Verdict.out_running : (Verdict.running : Verdict β).out = [] := rfl

@[simp] theorem settle_source (v : Verdict β) : (s.settle v).source = s.source := rfl
@[simp] theorem settle_inners (v : Verdict β) : (s.settle v).inners = s.inners := rfl
@[simp] theorem settle_emitted (v : Verdict β) : (s.settle v).emitted = s.emitted ++ v.out := rfl
@[simp] theorem settle_failed (v : Verdict β) : (s.settle v).failed = v.isFailed := rfl

theorem Verdict.isRunning_iff {v : Verdict β} : v.isRunning = true ↔ v = .running := by
  cases v <;> simp [isRunning]

theorem Verdict.isFailed_iff {v : Verdict β} : v.isFailed = true ↔ v = .failed := by
  cases v <;> simp [isFailed]

theorem active_eq_zero : s.active I = 0 ↔ ∀ p ∈ s.inners, I.verdict p.2 ≠ .running := by
  unfold State.active
  rw [List.countP_eq_zero]
  exact forall₂_congr fun p _ => not_congr Verdict.isRunning_iff

theorem signalsOf_append (k : ℕ) (xs ys : List (Signal ι)) :
    signalsOf k (xs ++ ys) = signalsOf k xs ++ signalsOf k ys := List.filterMap_append

@[simp] theorem signalsOf_pull (k : ℕ) : signalsOf k [(Signal.pull : Signal ι)] = [] := rfl

theorem signalsOf_inner (k j : ℕ) (x : ι) :
    signalsOf k [Signal.inner j x] = if j = k then [x] else [] := by
  unfold signalsOf
  split_ifs with h <;> simp [h]

@[simp] theorem effectsOf_nil (k : ℕ) : effectsOf k ([] : List (ℕ × ε)) = [] := rfl

theorem effectsOf_append (k : ℕ) (l m : List (ℕ × ε)) :
    effectsOf k (l ++ m) = effectsOf k l ++ effectsOf k m := List.filterMap_append

theorem effectsOf_tag (k j : ℕ) (es : List ε) :
    effectsOf k (es.map (j, ·)) = if j = k then es else [] := by
  unfold effectsOf
  rw [List.filterMap_map]
  split_ifs with h
  · simp [h]
  · simp [h]

theorem split_at {γ : Type*} {l : List γ} {k : ℕ} {y : γ} (h : l[k]? = some y) :
    ∃ l₁ l₂, l = l₁ ++ y :: l₂ ∧ l₁.length = k ∧ ∀ z, l.set k z = l₁ ++ z :: l₂ := by
  obtain ⟨hk, rfl⟩ := List.getElem?_eq_some_iff.mp h
  refine ⟨l.take k, l.drop (k + 1), ?_, by simp [hk.le], fun z => ?_⟩
  · rw [List.getElem_cons_drop, List.take_append_drop]
  · rw [List.set_eq_take_append_cons_drop, if_pos hk]

/-! ## What one signal can do -/

/-- A signal either subscribes to the next element or moves one running publisher. -/
theorem step_cases {x : Signal ι} {es : List (ℕ × ε)}
    (h : step I concurrency s x = some (t, es)) :
    s.failed = false ∧
      ((∃ a rest, x = .pull ∧ s.source = a :: rest ∧ s.active I < concurrency ∧
          t = State.settle { s with
              source := rest
              inners := s.inners ++ [(a, (I.subscribe s.inners.length a).1)] }
            (I.verdict (I.subscribe s.inners.length a).1) ∧
          es = (I.subscribe s.inners.length a).2.map (s.inners.length, ·)) ∨
        ∃ k y a u u' fs, x = .inner k y ∧ s.inners[k]? = some (a, u) ∧ I.verdict u = .running ∧
          I.step a u y = some (u', fs) ∧
          t = State.settle { s with inners := s.inners.set k (a, u') } (I.verdict u') ∧
          es = fs.map (k, ·)) := by
  cases x with
  | pull =>
    change s.pull I concurrency = _ at h
    unfold State.pull at h
    cases hsrc : s.source with
    | nil => simp [hsrc] at h
    | cons a rest =>
      rw [hsrc] at h
      by_cases hc : s.failed = false ∧ s.active I < concurrency
      · simp only [if_pos hc, Option.some.injEq, Prod.mk.injEq] at h
        exact ⟨hc.1, Or.inl ⟨a, rest, rfl, rfl, hc.2, h.1.symm, h.2.symm⟩⟩
      · simp [hc] at h
  | inner k y =>
    change s.deliver I k y = _ at h
    unfold State.deliver at h
    cases hk : s.inners[k]? with
    | none => simp [hk] at h
    | some p =>
      obtain ⟨a, u⟩ := p
      rw [hk] at h
      by_cases hc : s.failed = false ∧ (I.verdict u).isRunning = true
      · simp only [if_pos hc, Option.map_eq_some_iff, Prod.mk.injEq] at h
        obtain ⟨⟨u', fs⟩, hu, rfl, rfl⟩ := h
        exact ⟨hc.1, Or.inr ⟨k, y, a, u, u', fs, rfl, hk, Verdict.isRunning_iff.mp hc.2, hu,
          rfl, rfl⟩⟩
      · simp [hc] at h

/-! ## Accounting -/

variable (I concurrency) in
/-- The books of the operator on the source `as`. -/
structure Account (as : List α) (s : State α σ β) : Prop where
  source_eq : s.inners.map Prod.fst ++ s.source = as
  emitted_perm : s.emitted.Perm (s.inners.flatMap fun p => (I.verdict p.2).out)
  active_le : s.active I ≤ concurrency
  failed_iff : s.failed = true ↔ ∃ p ∈ s.inners, I.verdict p.2 = .failed

theorem account_init (as : List α) : Account I concurrency as (State.init as) where
  source_eq := rfl
  emitted_perm := List.Perm.refl _
  active_le := Nat.zero_le _
  failed_iff := by simp [State.init]

theorem Account.not_failed {as : List α} (hs : Account I concurrency as s)
    (hf : s.failed = false) {p : α × σ} (hp : p ∈ s.inners) : I.verdict p.2 ≠ .failed := by
  intro e
  have hfailed := hs.failed_iff.mpr ⟨p, hp, e⟩
  rw [hf] at hfailed
  cases hfailed

theorem account_step {as : List α} {x : Signal ι} {es : List (ℕ × ε)}
    (h : step I concurrency s x = some (t, es)) (hs : Account I concurrency as s) :
    Account I concurrency as t := by
  obtain ⟨hf, ⟨a, rest, rfl, hsrc, hact, rfl, rfl⟩ |
    ⟨k, y, a, u, u', fs, rfl, hk, hrun, hu, rfl, rfl⟩⟩ := step_cases h
  · constructor
    · simpa [hsrc] using hs.source_eq
    · simpa using hs.emitted_perm.append_right _
    · unfold State.active at hact ⊢
      rw [settle_inners, List.countP_append, List.countP_singleton]
      split_ifs <;> omega
    · simp only [settle_failed, settle_inners, Verdict.isFailed_iff, List.mem_append,
        List.mem_singleton]
      constructor
      · intro e
        exact ⟨_, Or.inr rfl, e⟩
      · rintro ⟨p, hp | rfl, e⟩
        · exact absurd e (hs.not_failed hf hp)
        · exact e
  · obtain ⟨l₁, l₂, hl, -, hset⟩ := split_at hk
    constructor
    · have := hs.source_eq
      rw [hl] at this
      simpa [hset] using this
    · have := hs.emitted_perm
      rw [hl] at this
      simp only [List.flatMap_append, List.flatMap_cons, hrun, Verdict.out_running,
        List.nil_append] at this
      simp only [settle_emitted, settle_inners, hset, List.flatMap_append, List.flatMap_cons]
      refine (this.append_right _).trans ?_
      rw [List.append_assoc]
      exact List.perm_append_comm.append_left _
    · have := hs.active_le
      unfold State.active at this ⊢
      rw [hl, List.countP_append, List.countP_cons, hrun,
        if_pos (Verdict.isRunning_iff.mpr rfl)] at this
      rw [settle_inners, hset, List.countP_append, List.countP_cons]
      split_ifs <;> omega
    · simp only [settle_failed, settle_inners, Verdict.isFailed_iff, hset, List.mem_append,
        List.mem_cons]
      constructor
      · intro e
        exact ⟨_, Or.inr (Or.inl rfl), e⟩
      · rintro ⟨p, hp | rfl | hp, e⟩
        · exact absurd e (hs.not_failed hf (hl ▸ List.mem_append_left _ hp))
        · exact e
        · exact absurd e (hs.not_failed hf (hl ▸ List.mem_append_right _ (.tail _ hp)))

/-- **Accounting.** The books hold in every state a run reaches. -/
theorem account {as : List α} {xs : List (Signal ι)} {log : List (ℕ × ε)}
    (hrun : run (logged (step I concurrency)) (State.init as, []) xs = some (s, log)) :
    Account I concurrency as s := by
  refine run_inv (P := fun p => Account I concurrency as p.1) ?_ hrun (account_init as)
  intro p x q h hp
  obtain ⟨es, hs, -⟩ := logged_eq_some.mp h
  exact account_step hs hp

/-! ## One publisher at a time -/

theorem quiet_beyond {as : List α} {xs : List (Signal ι)} {log : List (ℕ × ε)}
    (hrun : run (logged (step I concurrency)) (State.init as, []) xs = some (s, log))
    {k : ℕ} (hk : s.inners.length ≤ k) : signalsOf k xs = [] ∧ effectsOf k log = [] := by
  induction xs using List.reverseRecOn generalizing s log with
  | nil =>
    obtain ⟨rfl, rfl⟩ : State.init as = s ∧ [] = log := by simpa using hrun
    exact ⟨rfl, rfl⟩
  | append_singleton xs x ih =>
    obtain ⟨u, l, es, hpre, hx, rfl⟩ := run_logged_snoc.mp hrun
    obtain ⟨-, ⟨a, rest, rfl, -, -, rfl, rfl⟩ |
      ⟨j, y, a, w, w', fs, rfl, hj, -, -, rfl, rfl⟩⟩ := step_cases hx
    · simp only [settle_inners, List.length_append, List.length_singleton] at hk
      obtain ⟨h1, h2⟩ := ih hpre (by omega)
      rw [signalsOf_append, effectsOf_append, h1, h2, effectsOf_tag, if_neg (by omega)]
      exact ⟨rfl, rfl⟩
    · simp only [settle_inners, List.length_set] at hk
      obtain ⟨h1, h2⟩ := ih hpre hk
      have hjk : j ≠ k := by
        obtain ⟨hlt, -⟩ := List.getElem?_eq_some_iff.mp hj
        omega
      rw [signalsOf_append, effectsOf_append, h1, h2, effectsOf_tag, signalsOf_inner, if_neg hjk,
        if_neg hjk]
      exact ⟨rfl, rfl⟩

/-- **Projection.** What a run does to its `k`-th publisher is a run of that publisher alone. -/
theorem run_inner {as : List α} {xs : List (Signal ι)} {log : List (ℕ × ε)}
    (hrun : run (logged (step I concurrency)) (State.init as, []) xs = some (s, log))
    {k : ℕ} {a : α} {u : σ} (hk : s.inners[k]? = some (a, u)) :
    run (logged (I.step a)) (I.subscribe k a) (signalsOf k xs) = some (u, effectsOf k log) := by
  induction xs using List.reverseRecOn generalizing s log u with
  | nil =>
    obtain ⟨rfl, rfl⟩ : State.init as = s ∧ [] = log := by simpa using hrun
    simp [State.init] at hk
  | append_singleton xs x ih =>
    obtain ⟨v, l, es, hpre, hx, rfl⟩ := run_logged_snoc.mp hrun
    rw [signalsOf_append, effectsOf_append]
    obtain ⟨-, ⟨b, rest, rfl, -, -, rfl, rfl⟩ |
      ⟨j, y, b, w, w', fs, rfl, hj, -, hw, rfl, rfl⟩⟩ := step_cases hx
    · rw [settle_inners] at hk
      rw [signalsOf_pull, List.append_nil, effectsOf_tag]
      by_cases hlt : k < v.inners.length
      · rw [List.getElem?_append_left hlt] at hk
        rw [if_neg (by omega), List.append_nil]
        exact ih hpre hk
      · -- the publisher subscribed just now
        rw [List.getElem?_append_right (by omega), List.getElem?_singleton] at hk
        split_ifs at hk with h0
        obtain rfl : v.inners.length = k := by omega
        obtain ⟨rfl, rfl⟩ : b = a ∧ _ = u := by simpa using hk
        obtain ⟨h1, h2⟩ := quiet_beyond hpre le_rfl
        rw [if_pos rfl, h1, h2]
        rfl
    · rw [settle_inners] at hk
      rw [effectsOf_tag, signalsOf_inner]
      by_cases hjk : j = k
      · subst hjk
        obtain ⟨hlt, -⟩ := List.getElem?_eq_some_iff.mp hj
        rw [List.getElem?_set_self hlt] at hk
        obtain ⟨rfl, rfl⟩ : b = a ∧ w' = u := by simpa using hk
        rw [if_pos rfl, if_pos rfl]
        exact run_logged_snoc.mpr ⟨w, _, fs, ih hpre hj, hw, rfl⟩
      · rw [List.getElem?_set_ne hjk] at hk
        rw [if_neg hjk, if_neg hjk, List.append_nil, List.append_nil]
        exact ih hpre hk

theorem Account.getElem? {as : List α} (hs : Account I concurrency as s) {k : ℕ} {a : α} {u : σ}
    (hk : s.inners[k]? = some (a, u)) : as[k]? = some a := by
  have hlt : k < s.inners.length := (List.getElem?_eq_some_iff.mp hk).1
  rw [← hs.source_eq, List.getElem?_append_left (by simpa using hlt), List.getElem?_map, hk]
  rfl

/-- Grouping a log by position only reorders it. -/
theorem perm_effectsOf {m : ℕ} {log : List (ℕ × ε)} (h : ∀ p ∈ log, p.1 < m) :
    (log.map Prod.snd).Perm ((List.range m).flatMap fun k => effectsOf k log) := by
  induction log with
  | nil => simp
  | cons p log ih =>
    have hcons : ∀ k, effectsOf k (p :: log) =
        (if k = p.1 then [p.2] else []) ++ effectsOf k log := by
      intro k
      unfold effectsOf
      by_cases hk : p.1 = k
      · simp [hk]
      · simp [hk, Ne.symm hk]
    have hone : (List.range m).flatMap (fun k => if k = p.1 then [p.2] else []) = [p.2] := by
      have hp : (List.range m).count p.1 = 1 :=
        List.count_eq_one_of_mem List.nodup_range (List.mem_range.mpr (h p (by simp)))
      have hmap : ∀ l : List ℕ, l.flatMap (fun k => if k = p.1 then [p.2] else []) =
          List.replicate (l.count p.1) p.2 := by
        intro l
        induction l with
        | nil => rfl
        | cons k l ihl =>
          by_cases hk : k = p.1
          · simp [hk, ihl, List.replicate_succ]
          · simp [hk, ihl]
      rw [hmap, hp]
      rfl
    simp only [hcons]
    refine List.Perm.trans ?_ (List.flatMap_append_perm _ _ _)
    rw [hone]
    exact (ih fun q hq => h q (List.mem_cons_of_mem _ hq)).cons p.2

theorem effectsOf_pairs (k : ℕ) (log : List (ℕ × ε)) :
    effectsOf k (log.map fun p => (p.1, p)) = (effectsOf k log).map (Prod.mk k) := by
  unfold effectsOf
  rw [List.filterMap_map, List.map_filterMap]
  refine List.filterMap_congr fun p _ => ?_
  by_cases hk : p.1 = k
  · simp [← hk]
  · simp [hk]

theorem perm_pairs {m : ℕ} {log : List (ℕ × ε)} (h : ∀ p ∈ log, p.1 < m) :
    log.Perm ((List.range m).flatMap fun k => (effectsOf k log).map (Prod.mk k)) := by
  have hpairs : ∀ p ∈ log.map fun p => (p.1, p), p.1 < m := by
    intro p hp
    obtain ⟨q, hq, rfl⟩ := List.mem_map.mp hp
    exact h q hq
  have := perm_effectsOf hpairs
  simp only [effectsOf_pairs] at this
  rwa [List.map_map, Function.comp_def, List.map_id'] at this

theorem mem_effectsOf {k : ℕ} {e : ε} {log : List (ℕ × ε)} : e ∈ effectsOf k log ↔ (k, e) ∈ log := by
  unfold effectsOf
  rw [List.mem_filterMap]
  constructor
  · rintro ⟨⟨j, f⟩, hp, hf⟩
    split_ifs at hf with hj
    exact hj ▸ Option.some.inj hf ▸ hp
  · intro h
    exact ⟨(k, e), h, if_pos rfl⟩

theorem lt_of_mem_log {as : List α} {xs : List (Signal ι)} {log : List (ℕ × ε)}
    (hrun : run (logged (step I concurrency)) (State.init as, []) xs = some (s, log))
    {p : ℕ × ε} (hp : p ∈ log) : p.1 < s.inners.length := by
  by_contra hlt
  have hmem : p.2 ∈ effectsOf p.1 log := mem_effectsOf.mpr hp
  rw [(quiet_beyond hrun (not_lt.mp hlt)).2] at hmem
  exact absurd hmem List.not_mem_nil

/-- The effects of a run are those of its publishers, interleaved. -/
theorem log_perm {as : List α} {xs : List (Signal ι)} {log : List (ℕ × ε)}
    (hrun : run (logged (step I concurrency)) (State.init as, []) xs = some (s, log)) :
    (log.map Prod.snd).Perm ((List.range s.inners.length).flatMap fun k => effectsOf k log) :=
  perm_effectsOf fun _ hp => lt_of_mem_log hrun hp

/-! ## Ends -/

/-- A state that is stuck has ended, if no running publisher is stuck. -/
theorem ended_of_stuck (hc : 0 < concurrency)
    (hprog : ∀ p ∈ s.inners, I.verdict p.2 = .running → ∃ y, I.step p.1 p.2 y ≠ none)
    (hstuck : ∀ x, step I concurrency s x = none) : s.Ended I := by
  by_cases hf : s.failed = true
  · exact Or.inl hf
  rw [Bool.not_eq_true] at hf
  have hact : s.active I = 0 := by
    rw [active_eq_zero]
    intro p hp hr
    obtain ⟨k, hk⟩ := List.mem_iff_getElem?.mp hp
    obtain ⟨y, hy⟩ := hprog p hp hr
    have := hstuck (.inner k y)
    simp [step, State.deliver, hk, hf, hr, hy, Verdict.isRunning] at this
  refine Or.inr ⟨?_, hact⟩
  cases hsrc : s.source with
  | nil => rfl
  | cons a rest =>
    have := hstuck .pull
    simp [step, State.pull, hsrc, hf, hact, hc] at this

theorem stuck_of_ended (hs : s.Ended I) (x : Signal ι) : step I concurrency s x = none := by
  rw [Option.eq_none_iff_forall_ne_some]
  rintro ⟨t, es⟩ h
  obtain ⟨hf, ⟨a, rest, -, hsrc, -, -, -⟩ | ⟨k, y, a, u, u', fs, -, hk, hrun, -, -, -⟩⟩ := step_cases h
  · rcases hs with hf' | ⟨hsrc', -⟩
    · simp [hf] at hf'
    · simp [hsrc] at hsrc'
  · rcases hs with hf' | ⟨-, hact⟩
    · simp [hf] at hf'
    · exact active_eq_zero.mp hact (a, u) (List.mem_of_getElem? hk) hrun

theorem countP_le_card {γ : Type*} {l : List γ} {p : γ → Bool} {H : Finset ℕ}
    (h : ∀ k x, l[k]? = some x → p x = true → k ∈ H) : l.countP p ≤ H.card := by
  induction l using List.reverseRecOn generalizing H with
  | nil => exact Nat.zero_le _
  | append_singleton l x ih =>
    have hlast : p x = true → l.length ∈ H := h l.length x List.getElem?_concat_length
    have hinit : l.countP p ≤ (H.erase l.length).card := by
      refine ih fun k y hy hp => ?_
      have hlt := (List.getElem?_eq_some_iff.mp hy).1
      refine Finset.mem_erase.mpr ⟨hlt.ne, h k y ?_ hp⟩
      rw [List.getElem?_append_left hlt, hy]
    rw [List.countP_append, List.countP_singleton]
    split_ifs with hp
    · have hcard := Finset.card_erase_add_one (hlast hp)
      omega
    · exact hinit.trans (Finset.card_le_card (Finset.erase_subset _ _))

/-- **Publishers that hang** leave the others alone, as long as there are fewer of them than can be
active at a time: if nothing is left to do but for them, all elements have been subscribed to. -/
theorem source_eq_nil_of_hung {H : Finset ℕ} (hH : H.card < concurrency) (hf : s.failed = false)
    (hrunning : ∀ k p, s.inners[k]? = some p → I.verdict p.2 = .running → k ∈ H)
    (hpull : step I concurrency s .pull = none) : s.source = [] := by
  have hact : s.active I ≤ H.card :=
    countP_le_card fun k p hk hp => hrunning k p hk (Verdict.isRunning_iff.mp hp)
  cases hsrc : s.source with
  | nil => rfl
  | cons a rest => simp [step, State.pull, hsrc, hf, hact.trans_lt hH] at hpull

/-- Weights of the elements still in the source and of the publishers. -/
def weight (w : α → ℕ) (m : α → σ → ℕ) (s : State α σ β) : ℕ :=
  (s.source.map w).sum + (s.inners.map fun p => m p.1 p.2).sum

/-- Every signal lowers the weight, if it lowers that of the publisher it moves. -/
theorem weight_lt {w : α → ℕ} {m : α → σ → ℕ}
    (hsub : ∀ k a, m a (I.subscribe k a).1 < w a)
    (hstep : ∀ a u y u' fs, I.step a u y = some (u', fs) → m a u' < m a u)
    {x : Signal ι} {es : List (ℕ × ε)} (h : step I concurrency s x = some (t, es)) :
    weight w m t < weight w m s := by
  obtain ⟨-, ⟨a, rest, rfl, hsrc, -, rfl, rfl⟩ |
    ⟨k, y, a, u, u', fs, rfl, hk, -, hu, rfl, rfl⟩⟩ := step_cases h
  · have := hsub s.inners.length a
    simp only [weight, settle_source, settle_inners, hsrc, List.map_cons, List.sum_cons,
      List.map_append, List.sum_append, List.map_nil, List.sum_nil]
    omega
  · obtain ⟨l₁, l₂, hl, -, hset⟩ := split_at hk
    have := hstep a u y u' fs hu
    simp only [weight, settle_source, settle_inners, hset]
    rw [hl]
    simp only [List.map_append, List.map_cons, List.sum_append, List.sum_cons]
    omega

end Facts

end FlatMap
