import Mathlib.Algebra.BigOperators.Group.Finset.Basic
import Mathlib.Data.Rat.Floor
import Mathlib.Tactic.FinCases
import Mathlib.Tactic.Linarith
import Mathlib.Tactic.Positivity
import ChaosLoris.Lib.Draws
import ChaosLoris.Progress
import ChaosLoris.RandomFateEngine
import ChaosLoris.Web

/-!
# Fates are independent

The chaoses of a run share the source of their fates, and the draws of it go to whichever index is
asked for next. That depends on what has been answered before, and so on earlier draws as well. All
the same, which instances of which chaoses a run terminates is distributed as if each had a draw of
its own (`fates_are_independent`): an instance is terminated with the probability of its chaos, up
to a rounding to the next multiple of `2⁻⁵³`, and independently of all others.
-/

namespace ChaosLoris

open FlatMap Runs

/-- What `nextDouble` draws: a multiple of `2⁻⁵³` below 1, each equally likely. -/
abbrev Draw := Fin (2 ^ 53)

def nextDouble (x : Draw) : ℚ := x.val / 2 ^ 53

/-- The draws whose value is below the probability. -/
def threshold (probability : ℚ) : ℕ := ⌈probability * 2 ^ 53⌉₊

/-- The index that a call of `getFate` is for. -/
def Effect.fateIndex : Effect → Option ℕ
  | .getFate _ i => some i
  | _ => none

/-- The fates that have been asked for, by position and index, in the order of time. -/
def asked (log : List (ℕ × Effect)) : List (ℕ × ℕ) :=
  log.filterMap fun p => p.2.fateIndex.map (Prod.mk p.1)

/-- The indices that `terminateInstance` was called for, for the chaos at the position `k`. -/
def targetsAt (k : ℕ) (log : List (ℕ × Effect)) : Set ℕ :=
  {i | ∃ a, (k, Effect.terminateInstance a i) ∈ log}

/-- The fates of all indices of all chaoses. -/
def questions (count : Chaos → ℕ) (chaoses : List Chaos) : List (ℕ × ℕ) :=
  chaoses.zipIdx.flatMap fun p => (List.range (count p.1)).map (Prod.mk p.2)

/-! ## Draws -/

section Draws

variable {p : ℚ} {n : ℕ} {S : Finset ℕ}

theorem nextDouble_lt_iff {x : Draw} : nextDouble x < p ↔ x.val < threshold p := by
  unfold nextDouble threshold
  rw [Nat.lt_ceil, div_lt_iff₀ (by positivity)]

theorem threshold_le (hp : p ≤ 1) : threshold p ≤ 2 ^ 53 := by
  unfold threshold
  rw [Nat.ceil_le]
  push_cast
  linarith

theorem threshold_eq {n : ℕ} (h : p * 2 ^ 53 = n) : threshold p = n := by
  rw [threshold, h, Nat.ceil_natCast]

theorem card_draws (hp : p ≤ 1) (q : Prop) [Decidable q] :
    Nat.card {x : Draw // nextDouble x < p ↔ q} =
      if q then threshold p else 2 ^ 53 - threshold p := by
  have hcard : Fintype.card {x : Draw // x.val < threshold p} = threshold p :=
    Fintype.card_fin_lt_of_le (threshold_le hp)
  simp only [nextDouble_lt_iff]
  split_ifs with hq
  · simp only [hq, iff_true]
    rw [Nat.card_eq_fintype_card, hcard]
  · simp only [hq, iff_false]
    rw [Nat.card_eq_fintype_card, Fintype.card_subtype_compl, Fintype.card_fin, hcard]

theorem prod_range_ite (hS : S ⊆ Finset.range n) (a b : ℕ) :
    ((List.range n).map fun i => if i ∈ S then a else b).prod = a ^ S.card * b ^ (n - S.card) := by
  have hprod : ((List.range n).map fun i => if i ∈ S then a else b).prod =
      ∏ i ∈ Finset.range n, if i ∈ S then a else b := (Multiset.prod_coe _).symm
  rw [hprod, Finset.prod_ite, Finset.prod_const, Finset.prod_const, Finset.filter_mem_eq_inter,
    Finset.inter_eq_right.mpr hS, Finset.filter_notMem_eq_sdiff, Finset.card_sdiff_of_subset hS,
    Finset.card_range]

end Draws

/-! ## Runs -/

section Run

variable {behave : Chaos → Behaviour} {chaoses : List Chaos} {d : Destroyer}
  {log : List (ℕ × Effect)} {xs : List (Signal ChaosSignal)} {k : ℕ} {c : Chaos}

/-- The calls for a chaos in a run that has come to its end without an error. -/
theorem DestroyerRun.calls (h : DestroyerRun behave chaoses xs d log) (hf : d.failed = false)
    (hstuck : ∀ x, Destroyer.step behave d x = none) (hk : chaoses[k]? = some c) :
    ∃ e, (effectsOf k log).Perm (.getInstanceCount c.application ::
      (List.range ((behave c).instanceCount.getD 0)).flatMap (callEffects c (behave c)) ++
        [.save e true]) := by
  obtain hfailed | ⟨hsource, hactive⟩ := h.ended hstuck
  · rw [hf] at hfailed
    cases hfailed
  obtain ⟨u, hu⟩ := h.exists_inner hsource hk
  have hend : u.verdict ≠ .running := active_eq_zero.mp hactive _ (List.mem_of_getElem? hu)
  obtain ⟨e, rfl, -, hsave⟩ := h.saved hf hu hend
  obtain ⟨-, hfailed, -⟩ | ⟨n, e', ok, hn, -, hperm, hsave', -⟩ := (h.tracks hu).summary hend
  · cases hfailed
  · rw [hsave] at hsave'
    obtain ⟨rfl, rfl⟩ := Effect.save.inj (List.singleton_inj.mp hsave')
    rw [hn]
    exact ⟨e, hperm⟩

theorem filterMap_fateIndex (c : Chaos) (b : Behaviour) (n : ℕ) :
    ((List.range n).flatMap (callEffects c b)).filterMap Effect.fateIndex = List.range n := by
  have hone : ∀ i, (callEffects c b i).filterMap Effect.fateIndex = [i] := by
    intro i
    unfold callEffects
    cases b.fate i <;> rfl
  rw [List.filterMap_flatMap]
  simp [hone]

/-- **A run asks for each fate once.** -/
theorem DestroyerRun.asked_perm (h : DestroyerRun behave chaoses xs d log)
    (hf : d.failed = false) (hstuck : ∀ x, Destroyer.step behave d x = none) :
    (asked log).Perm (questions (fun c => (behave c).instanceCount.getD 0) chaoses) := by
  have hlt : ∀ p ∈ log, p.1 < chaoses.length := by
    intro p hp
    have hlength := congrArg List.length h.account.source_eq
    rw [List.length_append, List.length_map] at hlength
    exact (lt_of_mem_log h.flatMap_run hp).trans_le (by omega)
  have hpairs := (perm_pairs hlt).filterMap fun p => p.2.fateIndex.map (Prod.mk p.1)
  refine hpairs.trans ?_
  have hrange : List.range chaoses.length = chaoses.zipIdx.map Prod.snd := by
    rw [List.zipIdx_map_snd, List.range_eq_range']
  unfold questions
  rw [List.filterMap_flatMap, hrange, List.flatMap_map]
  refine List.Perm.flatMap_left _ fun p hp => ?_
  obtain ⟨e, hperm⟩ := h.calls hf hstuck (List.mem_zipIdx_iff_getElem?.mp hp)
  have hindices := hperm.filterMap Effect.fateIndex
  rw [List.filterMap_append, List.filterMap_cons_none rfl, filterMap_fateIndex] at hindices
  rw [List.filterMap_map, ← List.append_nil (List.map (Prod.mk p.2) _)]
  have := hindices.map (Prod.mk p.2)
  rwa [List.map_filterMap, List.map_append] at this

theorem DestroyerRun.targetsAt_eq (h : DestroyerRun behave chaoses xs d log)
    (hf : d.failed = false) (hstuck : ∀ x, Destroyer.step behave d x = none)
    (hk : chaoses[k]? = some c) : targetsAt k log =
      {i | i < (behave c).instanceCount.getD 0 ∧ (behave c).fate i = .thumbsDown} := by
  obtain ⟨e, hperm⟩ := h.calls hf hstuck hk
  have hcount : ∀ a i, (effectsOf k log).count (.terminateInstance a i) =
      if a = c.application ∧ i < (behave c).instanceCount.getD 0 ∧
        (behave c).fate i = .thumbsDown then 1 else 0 := by
    intro a i
    rw [hperm.count_eq, List.count_append, List.count_cons, count_terminateInstance_range]
    simp
  ext i
  constructor
  · rintro ⟨a, ha⟩
    have hpos := List.count_pos_iff.mpr (mem_effectsOf.mpr ha)
    rw [hcount] at hpos
    split_ifs at hpos with hi
    · exact hi.2
    · cases hpos
  · intro hi
    refine ⟨c.application, mem_effectsOf.mp (List.count_pos_iff.mp ?_)⟩
    rw [hcount, if_pos ⟨rfl, hi⟩]
    exact Nat.one_pos

end Run

theorem mem_questions {count : Chaos → ℕ} {chaoses : List Chaos} {k i : ℕ} :
    (k, i) ∈ questions count chaoses ↔ ∃ c, chaoses[k]? = some c ∧ i < count c := by
  unfold questions
  rw [List.mem_flatMap]
  constructor
  · rintro ⟨⟨c, j⟩, hc, hi⟩
    obtain ⟨i', hi', heq⟩ := List.mem_map.mp hi
    obtain ⟨rfl, rfl⟩ := Prod.mk.inj heq
    exact ⟨c, List.mem_zipIdx_iff_getElem?.mp hc, List.mem_range.mp hi'⟩
  · rintro ⟨c, hc, hi⟩
    exact ⟨(c, k), List.mem_zipIdx_iff_getElem?.mpr hc,
      List.mem_map.mpr ⟨i, List.mem_range.mpr hi, rfl⟩⟩

theorem length_questions (count : Chaos → ℕ) (chaoses : List Chaos) :
    (questions count chaoses).length = (chaoses.map count).sum := by
  unfold questions
  rw [List.length_flatMap]
  simp only [List.length_map, List.length_range]
  rw [← List.zipIdx_map_fst 0 chaoses, List.map_map]
  simp [Function.comp_def]

theorem prod_questions (count : Chaos → ℕ) (chaoses : List Chaos) (w : ℕ × ℕ → ℕ) :
    ((questions count chaoses).map w).prod =
      (chaoses.zipIdx.map fun p => ((List.range (count p.1)).map fun i => w (p.2, i)).prod).prod := by
  unfold questions
  induction chaoses.zipIdx with
  | nil => rfl
  | cons p l ih =>
    rw [List.flatMap_cons, List.map_append, List.prod_append, ih, List.map_map, List.map_cons,
      List.prod_cons]
    rfl

/-- For each sequence of draws a run that comes to its end without an error. Its fates are those of
the draws, in the order in which it asks for them, and what it asks for next may depend on the draws
so far. -/
structure DrawnRuns (chaoses : List Chaos) (count : Chaos → ℕ) {n : ℕ}
    (behave : (Fin n → Draw) → Chaos → Behaviour)
    (log : (Fin n → Draw) → List (ℕ × Effect)) : Prop where
  run : ∀ u, ∃ xs d, DestroyerRun (behave u) chaoses xs d (log u) ∧ d.failed = false ∧
    ∀ x, Destroyer.step (behave u) d x = none
  counted : ∀ u, ∀ c ∈ chaoses, (behave u c).instanceCount = some (count c)
  fate : ∀ u (t : Fin n) k i c, (asked (log u))[t.val]? = some (k, i) → chaoses[k]? = some c →
    (behave u c).fate i = RandomFateEngine.getFate (nextDouble (u t)) c
  adapted : Draws.Adapted fun u => asked (log u)

section Drawn

variable {chaoses : List Chaos} {count : Chaos → ℕ} {n : ℕ}
  {behave : (Fin n → Draw) → Chaos → Behaviour} {log : (Fin n → Draw) → List (ℕ × Effect)}
  {S : Chaos → Finset ℕ}

theorem getFate_eq_thumbsDown {p : ℚ} {c : Chaos} :
    RandomFateEngine.getFate p c = .thumbsDown ↔ p < c.probability := by
  unfold RandomFateEngine.getFate
  split_ifs with h <;> simp [h]

theorem DrawnRuns.asked_perm (h : DrawnRuns chaoses count behave log) (u : Fin n → Draw) :
    (asked (log u)).Perm (questions count chaoses) := by
  obtain ⟨xs, d, hrun, hf, hstuck⟩ := h.run u
  have hsame : questions (fun c => (behave u c).instanceCount.getD 0) chaoses =
      questions count chaoses := by
    unfold questions
    refine List.flatMap_congr fun p hp => ?_
    have hmem := List.mem_of_getElem? (List.mem_zipIdx_iff_getElem?.mp hp)
    dsimp only
    rw [h.counted u p.1 hmem, Option.getD_some]
  exact hsame ▸ hrun.asked_perm hf hstuck

theorem DrawnRuns.mem_targetsAt (h : DrawnRuns chaoses count behave log) (u : Fin n → Draw)
    {k i : ℕ} {c : Chaos} (hk : chaoses[k]? = some c) :
    i ∈ targetsAt k (log u) ↔ i < count c ∧ (behave u c).fate i = .thumbsDown := by
  obtain ⟨xs, d, hrun, hf, hstuck⟩ := h.run u
  rw [hrun.targetsAt_eq hf hstuck hk, h.counted u c (List.mem_of_getElem? hk)]
  exact Iff.rfl

theorem le_one_of_valid {p : ℚ} (h : validProbability p = true) : p ≤ 1 :=
  of_decide_eq_true (Bool.and_eq_true_iff.mp h).2

/-- What the draw for a question has to be, for the targets to be those in `S`. -/
def Requires (chaoses : List Chaos) (S : Chaos → Finset ℕ) (q : ℕ × ℕ) (x : Draw) : Prop :=
  ∀ c, chaoses[q.1]? = some c → (nextDouble x < c.probability ↔ q.2 ∈ S c)

/-- The targets are those in `S` if each draw answers its question accordingly. -/
theorem DrawnRuns.answered_iff (h : DrawnRuns chaoses count behave log)
    (hn : (chaoses.map count).sum = n) (hS : ∀ c ∈ chaoses, S c ⊆ Finset.range (count c))
    (u : Fin n → Draw) :
    (∀ k c, chaoses[k]? = some c → targetsAt k (log u) = S c) ↔
      Draws.Answered (fun u => asked (log u)) (Requires chaoses S) u := by
  constructor
  · rintro htargets t ⟨k, i⟩ hq c hc
    obtain ⟨c', hc', hi⟩ := mem_questions.mp
      ((h.asked_perm u).mem_iff.mp (List.mem_of_getElem? hq))
    obtain rfl : c = c' := Option.some.inj (hc.symm.trans hc')
    rw [← getFate_eq_thumbsDown, ← h.fate u t k i c hq hc]
    have hmem := h.mem_targetsAt u (i := i) hc
    rw [htargets k c hc, Finset.mem_coe] at hmem
    rw [hmem]
    exact (and_iff_right hi).symm
  · intro hanswered k c hc
    ext i
    rw [h.mem_targetsAt u hc, Finset.mem_coe]
    by_cases hi : i < count c
    · have hasked := (h.asked_perm u).mem_iff.mpr (mem_questions.mpr ⟨c, hc, hi⟩)
      obtain ⟨t, ht⟩ := List.mem_iff_getElem?.mp hasked
      have hlt : t < n := by
        rw [← hn, ← length_questions, ← (h.asked_perm u).length_eq]
        exact (List.getElem?_eq_some_iff.mp ht).1
      rw [h.fate u ⟨t, hlt⟩ k i c ht hc, getFate_eq_thumbsDown, and_iff_right hi]
      exact hanswered ⟨t, hlt⟩ (k, i) ht c hc
    · refine iff_of_false (fun hand => hi hand.1) fun hmem => hi ?_
      exact Finset.mem_range.mp (hS c (List.mem_of_getElem? hc) hmem)

end Drawn

/-- **Fates are independent.** Let the destroyer run to its end without an error for every sequence
of draws, on chaoses with any numbers of instances, asking for the fates in an order that may depend
on what has been drawn so far. Whatever sets of instances are chosen for the chaoses, the number of
sequences for which just these are terminated is the product of one factor for each instance: the
number of draws below the probability of its chaos, or that of the others. -/
theorem fates_are_independent {chaoses : List Chaos} {count : Chaos → ℕ} {n : ℕ}
    {behave : (Fin n → Draw) → Chaos → Behaviour} {log : (Fin n → Draw) → List (ℕ × Effect)}
    (h : DrawnRuns chaoses count behave log) (hn : (chaoses.map count).sum = n)
    (hvalid : ∀ c ∈ chaoses, validProbability c.probability = true) {S : Chaos → Finset ℕ}
    (hS : ∀ c ∈ chaoses, S c ⊆ Finset.range (count c)) :
    Nat.card {u // ∀ k c, chaoses[k]? = some c → targetsAt k (log u) = S c} =
      (chaoses.map fun c => threshold c.probability ^ (S c).card *
        (2 ^ 53 - threshold c.probability) ^ (count c - (S c).card)).prod := by
  have hlength : (questions count chaoses).length = n := (length_questions ..).trans hn
  rw [Nat.card_congr (Equiv.subtypeEquivRight (h.answered_iff hn hS)),
    Draws.card_answered h.adapted h.asked_perm hlength, prod_questions]
  have hfactor : ∀ p ∈ chaoses.zipIdx,
      ((List.range (count p.1)).map fun i =>
        Nat.card {x // Requires chaoses S (p.2, i) x}).prod =
      threshold p.1.probability ^ (S p.1).card *
        (2 ^ 53 - threshold p.1.probability) ^ (count p.1 - (S p.1).card) := by
    rintro ⟨c, k⟩ hp
    have hk := List.mem_zipIdx_iff_getElem?.mp hp
    have hc := List.mem_of_getElem? hk
    rw [← prod_range_ite (hS c hc)]
    refine congrArg List.prod (List.map_congr_left fun i _ => ?_)
    rw [← card_draws (le_one_of_valid (hvalid c hc))]
    refine Nat.card_congr (Equiv.subtypeEquivRight fun x => ?_)
    exact ⟨fun hx => hx c hk, fun hx c' hc' => Option.some.inj (hk.symm.trans hc') ▸ hx⟩
  rw [List.map_congr_left hfactor]
  conv_rhs => rw [← List.zipIdx_map_fst 0 chaoses, List.map_map]
  rfl

/-- One instance, whose fate is known. -/
def coin (dies : Bool) : Behaviour :=
  { instanceCount := some 1, terminates := fun _ => true,
    fate := fun _ => if dies then .thumbsDown else .thumbsUp, now := 0 }

theorem coin_fate {dies : Bool} {x : ℚ} {c : Chaos} (h : dies = decide (x < c.probability))
    (i : ℕ) : (coin dies).fate i = RandomFateEngine.getFate x c := by
  unfold coin RandomFateEngine.getFate
  simp [h]

/-- The signals of such a chaos at the position `k`. -/
def coinSignals (k : ℕ) (dies : Bool) : List (Signal ChaosSignal) :=
  [.inner k .instanceCount, .inner k (.range .pull)] ++
    (if dies then [.inner k (.range (.inner 0 ()))] else []) ++ [.inner k (.save true)]

/-- Three chaoses with one instance each. -/
def trio : List Chaos :=
  [hourlyChaos 1, { hourlyChaos 2 with probability := 1 / 4 },
    { hourlyChaos 3 with probability := 3 / 4 }]

def trioBehaviour (a b c : Bool) (chaos : Chaos) : Behaviour :=
  coin (if chaos.id = 1 then a else if chaos.id = 2 then b else c)

/-- The second chaos has its count before the third if the first has lost its instance, and after
it if not. -/
def trioSignals (a b c : Bool) : List (Signal ChaosSignal) :=
  [.pull, .pull, .pull] ++ coinSignals 0 a ++
    if a then coinSignals 1 b ++ coinSignals 2 c else coinSignals 2 c ++ coinSignals 1 b

def trioRun (a b c : Bool) : Destroyer × List (ℕ × Effect) :=
  (run (logged (Destroyer.step (trioBehaviour a b c))) (Destroyer.start trio, [])
    (trioSignals a b c)).getD (Destroyer.start [], [])

theorem destroyerRun_trioRun (a b c : Bool) :
    DestroyerRun (trioBehaviour a b c) trio (trioSignals a b c) (trioRun a b c).1
      (trioRun a b c).2 := by
  cases a <;> cases b <;> cases c <;> rfl

theorem ended_trioRun (a b c : Bool) : (trioRun a b c).1.failed = false ∧
    (trioRun a b c).1.Ended (terminate (trioBehaviour a b c)) := by
  revert a b c
  decide

theorem asked_trioRun (a b c : Bool) :
    asked (trioRun a b c).2 = if a then [(0, 0), (1, 0), (2, 0)] else [(0, 0), (2, 0), (1, 0)] := by
  revert a b c
  decide

section Trio

variable (u : Fin 3 → Draw)

def firstDies : Bool := nextDouble (u 0) < 1 / 2

def secondDies : Bool := nextDouble (u (if firstDies u then 1 else 2)) < 1 / 4

def thirdDies : Bool := nextDouble (u (if firstDies u then 2 else 1)) < 3 / 4

end Trio

theorem drawnRuns_trio : DrawnRuns trio (fun _ => 1)
    (fun u => trioBehaviour (firstDies u) (secondDies u) (thirdDies u))
    (fun u => (trioRun (firstDies u) (secondDies u) (thirdDies u)).2) where
  run u := ⟨_, _, destroyerRun_trioRun _ _ _, (ended_trioRun _ _ _).1,
    stuck_of_ended (ended_trioRun _ _ _).2⟩
  counted _ _ _ := rfl
  fate := by
    intro u t k i c hq hc
    rw [asked_trioRun] at hq
    cases hfirst : firstDies u with
    | true =>
      have hsecond : secondDies u = decide (nextDouble (u 1) < 1 / 4) := by
        rw [secondDies, hfirst, if_pos rfl]
      have hthird : thirdDies u = decide (nextDouble (u 2) < 3 / 4) := by
        rw [thirdDies, hfirst, if_pos rfl]
      rw [hfirst, if_pos rfl] at hq
      fin_cases t <;> obtain ⟨rfl, rfl⟩ := Prod.mk.inj (Option.some.inj hq) <;>
        obtain rfl := Option.some.inj hc
      · show (coin true).fate 0 = _
        exact coin_fate hfirst.symm 0
      · show (coin (secondDies u)).fate 0 = _
        exact coin_fate hsecond 0
      · show (coin (thirdDies u)).fate 0 = _
        exact coin_fate hthird 0
    | false =>
      have hsecond : secondDies u = decide (nextDouble (u 2) < 1 / 4) := by
        simp [secondDies, hfirst]
      have hthird : thirdDies u = decide (nextDouble (u 1) < 3 / 4) := by
        simp [thirdDies, hfirst]
      rw [hfirst] at hq
      fin_cases t <;> obtain ⟨rfl, rfl⟩ := Prod.mk.inj (Option.some.inj hq) <;>
        obtain rfl := Option.some.inj hc
      · show (coin false).fate 0 = _
        exact coin_fate hfirst.symm 0
      · show (coin (thirdDies u)).fate 0 = _
        exact coin_fate hthird 0
      · show (coin (secondDies u)).fate 0 = _
        exact coin_fate hsecond 0
  adapted := by
    intro u v t huv
    simp only [asked_trioRun]
    cases t with
    | zero => cases firstDies u <;> cases firstDies v <;> rfl
    | succ t =>
      have hfirst : firstDies u = firstDies v := by
        rw [firstDies, firstDies, huv 0 (Nat.succ_pos t)]
      rw [hfirst]

/-- The second chaos is asked for before the third if the first loses its instance. -/
theorem fates_are_independent_trio :
    Nat.card {u : Fin 3 → Draw // ∀ k c, trio[k]? = some c →
      targetsAt k (trioRun (firstDies u) (secondDies u) (thirdDies u)).2 =
        ((if c.id = 3 then ∅ else {0} : Finset ℕ) : Set ℕ)} = 2 ^ 52 * 2 ^ 51 * 2 ^ 51 := by
  have hvalid : ∀ c ∈ trio, validProbability c.probability = true := by
    unfold trio
    decide +kernel
  refine (fates_are_independent drawnRuns_trio rfl hvalid
    (S := fun c => if c.id = 3 then ∅ else {0}) ?_).trans ?_
  · intro c _
    split_ifs <;> simp
  · have hhalf : threshold (1 / 2) = 2 ^ 52 := threshold_eq (by norm_num)
    have hquarter : threshold (1 / 4) = 2 ^ 51 := threshold_eq (by norm_num)
    have hrest : threshold (3 / 4) = 3 * 2 ^ 51 := threshold_eq (by norm_num)
    show threshold (1 / 2) ^ 1 * (2 ^ 53 - threshold (1 / 2)) ^ 0 *
      (threshold (1 / 4) ^ 1 * (2 ^ 53 - threshold (1 / 4)) ^ 0 *
        (threshold (3 / 4) ^ 0 * (2 ^ 53 - threshold (3 / 4)) ^ 1 * 1)) = 2 ^ 52 * 2 ^ 51 * 2 ^ 51
    rw [hhalf, hquarter, hrest]
    norm_num

end ChaosLoris
