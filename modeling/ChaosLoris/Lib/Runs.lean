import Mathlib.Data.List.Basic
import Mathlib.Tactic.Common

/-!
# Runs of a partial step function

A system is given by `step : σ → ι → Option σ`: in state `s` the label `x` is enabled when
`step s x` is defined. A run is a list of labels, each enabled where it is taken.

1. `run_append`, `run_snoc`: runs split and extend at either end.
2. `run_inv`: what one step keeps, a run keeps; `run_inv_along` is the same for runs whose steps
   all meet a side condition, and `along_iff` looks at these steps one by one. `run_lost`: what a
   run does not keep, one of its steps does not keep.
3. `length_le_of_run`: a measure that every step lowers bounds the length of a run;
   `exists_stuck`: and then every state has a run to its end.
4. `logged`: steps that report effects, with the effects accumulated in the order they happen.
-/

namespace Runs

variable {σ τ ι κ ε : Type*}

/-- Take the labels of a list one after another. -/
def run (step : σ → ι → Option σ) : σ → List ι → Option σ
  | s, [] => some s
  | s, x :: xs => (step s x).bind fun t => run step t xs

section Runs

variable {step : σ → ι → Option σ} {s t : σ} {x : ι} {xs ys : List ι}

@[simp] theorem run_nil : run step s [] = some s := rfl

theorem run_cons : run step s (x :: xs) = some t ↔ ∃ u, step s x = some u ∧ run step u xs = some t :=
  Option.bind_eq_some_iff

theorem run_append :
    run step s (xs ++ ys) = some t ↔ ∃ u, run step s xs = some u ∧ run step u ys = some t := by
  induction xs generalizing s with
  | nil => simp
  | cons x xs ih =>
    simp only [List.cons_append, run_cons, ih]
    constructor
    · rintro ⟨u, hu, v, hv, ht⟩
      exact ⟨v, ⟨u, hu, hv⟩, ht⟩
    · rintro ⟨v, ⟨u, hu, hv⟩, ht⟩
      exact ⟨u, hu, v, hv, ht⟩

theorem run_snoc :
    run step s (xs ++ [x]) = some t ↔ ∃ u, run step s xs = some u ∧ step u x = some t := by
  simp only [run_append, run_cons, run_nil, Option.some.injEq, exists_eq_right]

theorem run_middle : run step s (xs ++ x :: ys) = some t ↔
    ∃ u v, run step s xs = some u ∧ step u x = some v ∧ run step v ys = some t := by
  simp only [run_append, run_cons]
  constructor
  · rintro ⟨u, hu, v, hv, ht⟩
    exact ⟨u, v, hu, hv, ht⟩
  · rintro ⟨u, v, hu, hv, ht⟩
    exact ⟨u, hu, v, hv, ht⟩

/-- What every step keeps, every run keeps. -/
theorem run_inv {P : σ → Prop} (hstep : ∀ s x t, step s x = some t → P s → P t)
    (hrun : run step s xs = some t) (hs : P s) : P t := by
  induction xs generalizing s with
  | nil =>
    obtain rfl : s = t := by simpa using hrun
    exact hs
  | cons x xs ih =>
    obtain ⟨u, hu, hrun⟩ := run_cons.mp hrun
    exact ih hrun (hstep s x u hu hs)

/-- What holds when a run begins and does not hold when it ends is lost in one of its steps. -/
theorem run_lost {P : σ → Prop} (hrun : run step s xs = some t) (hs : P s) (ht : ¬ P t) :
    ∃ ys x zs u v, xs = ys ++ x :: zs ∧ run step s ys = some u ∧ step u x = some v ∧ P u ∧ ¬ P v := by
  induction xs generalizing s with
  | nil =>
    obtain rfl : s = t := by simpa using hrun
    exact absurd hs ht
  | cons x xs ih =>
    obtain ⟨u, hu, hrest⟩ := run_cons.mp hrun
    by_cases hP : P u
    · obtain ⟨ys, y, zs, v, w, rfl, hv, hw, hPv, hPw⟩ := ih hrest hP
      exact ⟨x :: ys, y, zs, v, w, rfl, run_cons.mpr ⟨u, hu, hv⟩, hw, hPv, hPw⟩
    · exact ⟨[], x, xs, s, u, rfl, rfl, hu, hs, hP⟩

/-- A run is a run of any system with more steps. -/
theorem run_mono {step' : σ → ι → Option σ}
    (hstep : ∀ s x t, step s x = some t → step' s x = some t) (hrun : run step s xs = some t) :
    run step' s xs = some t := by
  induction xs generalizing s with
  | nil => exact hrun
  | cons x xs ih =>
    obtain ⟨u, hu, hrun⟩ := run_cons.mp hrun
    exact run_cons.mpr ⟨u, hstep s x u hu, ih hrun⟩

/-- Every step of the run from `s` meets the condition `C`. -/
def Along (step : σ → ι → Option σ) (C : σ → ι → Prop) : σ → List ι → Prop
  | _, [] => True
  | s, x :: xs => C s x ∧ ∀ t, step s x = some t → Along step C t xs

theorem along_cons_none {C : σ → ι → Prop} (h : step s x = none) :
    Along step C s (x :: xs) ↔ C s x :=
  ⟨And.left, fun hC => ⟨hC, fun t ht => by simp [h] at ht⟩⟩

theorem along_cons_some {C : σ → ι → Prop} (h : step s x = some t) :
    Along step C s (x :: xs) ↔ C s x ∧ Along step C t xs := by
  constructor
  · intro hC
    exact ⟨hC.1, hC.2 t h⟩
  · rintro ⟨hC, hxs⟩
    refine ⟨hC, fun u hu => ?_⟩
    obtain rfl : t = u := Option.some.inj (h.symm.trans hu)
    exact hxs

/-- A side condition that can be checked at each step can be checked along a run. -/
instance decidableAlong {C : σ → ι → Prop} [∀ s x, Decidable (C s x)] :
    ∀ s xs, Decidable (Along step C s xs)
  | _, [] => isTrue trivial
  | s, x :: xs =>
    match h : step s x with
    | none => decidable_of_iff (C s x) (along_cons_none h).symm
    | some t =>
      have := decidableAlong (C := C) t xs
      decidable_of_iff (C s x ∧ Along step C t xs) (along_cons_some h).symm

theorem along_iff {C : σ → ι → Prop} (hrun : run step s xs = some t) : Along step C s xs ↔
    ∀ ys x zs u, xs = ys ++ x :: zs → run step s ys = some u → C u x := by
  induction xs generalizing s with
  | nil =>
    refine ⟨fun _ ys x zs u h => ?_, fun _ => trivial⟩
    simp at h
  | cons x xs ih =>
    obtain ⟨u, hu, hrun⟩ := run_cons.mp hrun
    rw [along_cons_some hu, ih hrun]
    constructor
    · rintro ⟨hC, hxs⟩ ys y zs v h hv
      cases ys with
      | nil =>
        obtain ⟨rfl, -⟩ := List.cons.inj h
        obtain rfl : s = v := by simpa using hv
        exact hC
      | cons y' ys =>
        obtain ⟨rfl, rfl⟩ := List.cons.inj h
        obtain ⟨w, hw, hv⟩ := run_cons.mp hv
        obtain rfl : u = w := Option.some.inj (hu.symm.trans hw)
        exact hxs ys y zs v rfl hv
    · intro h
      refine ⟨h [] x xs s rfl rfl, fun ys y zs v he hv => ?_⟩
      exact h (x :: ys) y zs v (congrArg (x :: ·) he) (run_cons.mpr ⟨u, hu, hv⟩)

/-- What every step that meets `C` keeps, every run along `C` keeps. -/
theorem run_inv_along {C : σ → ι → Prop} {P : σ → Prop}
    (hstep : ∀ s x t, C s x → step s x = some t → P s → P t)
    (hC : Along step C s xs) (hrun : run step s xs = some t) (hs : P s) : P t := by
  induction xs generalizing s with
  | nil =>
    obtain rfl : s = t := by simpa using hrun
    exact hs
  | cons x xs ih =>
    obtain ⟨u, hu, hrun⟩ := run_cons.mp hrun
    exact ih (hC.2 u hu) hrun (hstep s x u hC.1 hu hs)

theorem Along.append {C : σ → ι → Prop} (hxs : Along step C s xs) (hrun : run step s xs = some t)
    (hys : Along step C t ys) : Along step C s (xs ++ ys) := by
  induction xs generalizing s with
  | nil =>
    obtain rfl : s = t := by simpa using hrun
    exact hys
  | cons x xs ih =>
    obtain ⟨u, hu, hrun⟩ := run_cons.mp hrun
    exact (along_cons_some hu).mpr ⟨hxs.1, ih (hxs.2 u hu) hrun⟩

/-! ## Measures -/

/-- A measure that every step lowers bounds the length of a run. -/
theorem length_le_of_run {μ : σ → ℕ} (hμ : ∀ s x t, step s x = some t → μ t < μ s)
    (hrun : run step s xs = some t) : xs.length + μ t ≤ μ s := by
  induction xs generalizing s with
  | nil =>
    obtain rfl : s = t := by simpa using hrun
    simp
  | cons x xs ih =>
    obtain ⟨u, hu, hrun⟩ := run_cons.mp hrun
    have h1 := ih hrun
    have h2 := hμ s x u hu
    simp only [List.length_cons]
    omega

/-- With such a measure every state has a run to its end. -/
theorem exists_stuck {μ : σ → ℕ} (hμ : ∀ s x t, step s x = some t → μ t < μ s) (s : σ) :
    ∃ xs t, run step s xs = some t ∧ ∀ x, step t x = none := by
  induction h : μ s using Nat.strongRecOn generalizing s with
  | _ n ih =>
    by_cases hstuck : ∀ x, step s x = none
    · exact ⟨[], s, rfl, hstuck⟩
    · push Not at hstuck
      obtain ⟨x, hx⟩ := hstuck
      obtain ⟨t, ht⟩ := Option.ne_none_iff_exists'.mp hx
      obtain ⟨xs, u, hrun, hend⟩ := ih (μ t) (h ▸ hμ s x t ht) t rfl
      exact ⟨x :: xs, u, run_cons.mpr ⟨t, ht, hrun⟩, hend⟩

/-- The only run of one label to its end goes on from wherever a run of this label has got to. -/
theorem run_replicate_rest {n m : ℕ} {u : σ} (hn : run step s (List.replicate n x) = some t)
    (hm : run step s (List.replicate m x) = some u) (hu : step u x = none) :
    ∃ k, run step t (List.replicate k x) = some u := by
  induction n generalizing s m with
  | zero =>
    obtain rfl : s = t := by simpa using hn
    exact ⟨m, hm⟩
  | succ n ih =>
    obtain ⟨v, hv, hn⟩ := run_cons.mp hn
    cases m with
    | zero =>
      obtain rfl : s = u := by simpa using hm
      rw [hu] at hv
      cases hv
    | succ m =>
      obtain ⟨w, hw, hm⟩ := run_cons.mp hm
      obtain rfl : v = w := Option.some.inj (hv.symm.trans hw)
      exact ih hn hm

end Runs

/-! ## Steps with effects -/

/-- The system of a step function that reports effects, with the effects so far in the state. -/
def logged (step : σ → ι → Option (σ × List ε)) (p : σ × List ε) (x : ι) : Option (σ × List ε) :=
  (step p.1 x).map fun q => (q.1, p.2 ++ q.2)

theorem logged_eq_some {step : σ → ι → Option (σ × List ε)} {p q : σ × List ε} {x : ι} :
    logged step p x = some q ↔ ∃ es, step p.1 x = some (q.1, es) ∧ q.2 = p.2 ++ es := by
  unfold logged
  rw [Option.map_eq_some_iff]
  constructor
  · rintro ⟨⟨t, es⟩, h, rfl⟩
    exact ⟨es, h, rfl⟩
  · rintro ⟨es, h, hq⟩
    exact ⟨(q.1, es), h, Prod.ext rfl hq.symm⟩

theorem run_logged_snoc {step : σ → ι → Option (σ × List ε)} {p : σ × List ε} {t : σ}
    {l : List ε} {xs : List ι} {x : ι} :
    run (logged step) p (xs ++ [x]) = some (t, l) ↔
      ∃ u m es, run (logged step) p xs = some (u, m) ∧ step u x = some (t, es) ∧ l = m ++ es := by
  rw [run_snoc]
  constructor
  · rintro ⟨⟨u, m⟩, hrun, hx⟩
    obtain ⟨es, hx, hl⟩ := logged_eq_some.mp hx
    exact ⟨u, m, es, hrun, hx, hl⟩
  · rintro ⟨u, m, es, hrun, hx, hl⟩
    exact ⟨(u, m), hrun, logged_eq_some.mpr ⟨es, hx, hl⟩⟩

end Runs
