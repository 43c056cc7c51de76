import Mathlib.Algebra.BigOperators.Group.List.Basic
import Mathlib.Data.Fin.Tuple.Basic
import Mathlib.SetTheory.Cardinal.Finite

/-!
# Questions that are answered by draws

A program asks questions, one after another, and each is answered by a draw of its own. Which
question comes next may depend on the draws so far, but not on those to come (`Adapted`).

`card_answered`: if it always comes to the same questions, in whatever order, then the number of
sequences of draws that answer all of them as required is the product, over the questions, of the
number of draws that answer the question as required. So the answers are independent of each other
and of the order.
-/

namespace Draws

variable {α ι : Type*} {n : ℕ} {P : ι → α → Prop} {q : ι} {qs : List ι}

/-- What is asked next depends on the draws so far. -/
def Adapted (ask : (Fin n → α) → List ι) : Prop :=
  ∀ (u v : Fin n → α) (t : ℕ), (∀ s : Fin n, s < t → u s = v s) → (ask u)[t]? = (ask v)[t]?

/-- The draws answer all questions as `P` requires. -/
def Answered (ask : (Fin n → α) → List ι) (P : ι → α → Prop) (u : Fin n → α) : Prop :=
  ∀ (t : Fin n) q, (ask u)[t.val]? = some q → P q (u t)

/-- The questions after the first one, which was answered by `x`. -/
def rest (ask : (Fin (n + 1) → α) → List ι) (x : α) (u : Fin n → α) : List ι :=
  (ask (Fin.cons x u)).tail

section Rest

variable {ask : (Fin (n + 1) → α) → List ι}

/-- The first question does not depend on the draws. -/
theorem Adapted.exists_head [Nonempty α] (h : Adapted ask) (hask : ∀ u, ask u ≠ []) :
    ∃ q, ∀ u, ask u = q :: (ask u).tail := by
  obtain ⟨x⟩ := ‹Nonempty α›
  obtain ⟨q, l, hq⟩ := List.exists_cons_of_ne_nil (hask fun _ => x)
  refine ⟨q, fun u => ?_⟩
  have hhead : (ask u)[0]? = some q := by
    rw [h u (fun _ => x) 0 fun s hs => absurd hs (Nat.not_lt_zero _), hq]
    rfl
  cases hu : ask u with
  | nil => exact absurd hu (hask u)
  | cons q' l' =>
    rw [hu] at hhead
    rw [← Option.some.inj hhead]
    rfl

theorem Adapted.rest (h : Adapted ask) (x : α) : Adapted (rest ask x) := by
  intro u v t huv
  unfold Draws.rest
  rw [List.getElem?_tail, List.getElem?_tail]
  refine h _ _ _ fun s hs => ?_
  cases s using Fin.cases with
  | zero => rfl
  | succ s =>
    rw [Fin.cons_succ, Fin.cons_succ]
    exact huv s (Nat.lt_of_succ_lt_succ hs)

/-- The first draw answers the first question, the others answer the rest. -/
theorem answered_cons (hq : ∀ u, ask u = q :: (ask u).tail) {x : α} {u : Fin n → α} :
    Answered ask P (Fin.cons x u) ↔ P q x ∧ Answered (rest ask x) P u := by
  have hask : ask (Fin.cons x u) = q :: rest ask x u := hq _
  constructor
  · intro h
    refine ⟨h 0 q (by rw [hask]; rfl), fun t q' hq' => ?_⟩
    have := h t.succ q' (by rw [hask]; exact hq')
    rwa [Fin.cons_succ] at this
  · rintro ⟨hx, h⟩ t q' hq'
    rw [hask] at hq'
    cases t using Fin.cases with
    | zero =>
      obtain rfl := Option.some.inj hq'
      exact hx
    | succ t =>
      rw [Fin.cons_succ]
      exact h t q' hq'

end Rest

/-- The draws of all questions, as a draw for the first one and draws for the rest. -/
def consEquiv {ask : (Fin (n + 1) → α) → List ι} (hq : ∀ u, ask u = q :: (ask u).tail) :
    {u // Answered ask P u} ≃ (x : {x // P q x}) × {u // Answered (rest ask x.val) P u} where
  toFun u :=
    have h : P q (u.val 0) ∧ Answered (rest ask (u.val 0)) P (Fin.tail u.val) :=
      (answered_cons hq).mp ((Fin.cons_self_tail u.val).symm ▸ u.property)
    ⟨⟨u.val 0, h.1⟩, ⟨Fin.tail u.val, h.2⟩⟩
  invFun p := ⟨Fin.cons p.1.val p.2.val, (answered_cons hq).mpr ⟨p.1.property, p.2.property⟩⟩
  left_inv u := Subtype.ext (Fin.cons_self_tail u.val)
  right_inv _ := rfl

/-- **The answers are independent.** -/
theorem card_answered [Finite α] [Nonempty α] {ask : (Fin n → α) → List ι} (h : Adapted ask)
    (hperm : ∀ u, (ask u).Perm qs) (hlength : qs.length = n) (P : ι → α → Prop) :
    Nat.card {u // Answered ask P u} = (qs.map fun q => Nat.card {x // P q x}).prod := by
  classical
  induction n generalizing qs with
  | zero =>
    obtain rfl := List.length_eq_zero_iff.mp hlength
    have : Nonempty {u // Answered ask P u} := ⟨⟨Fin.elim0, fun t => t.elim0⟩⟩
    exact Nat.card_unique
  | succ n ih =>
    have hne : ∀ u, ask u ≠ [] := by
      intro u hu
      have := (hperm u).length_eq
      rw [hu, hlength] at this
      cases this
    obtain ⟨q, hq⟩ := h.exists_head hne
    have hqs : q ∈ qs := by
      obtain ⟨x⟩ := ‹Nonempty α›
      rw [← (hperm fun _ => x).mem_iff, hq]
      exact List.mem_cons_self
    have hrest : ∀ x, Nat.card {u // Answered (rest ask x) P u} =
        ((qs.erase q).map fun q => Nat.card {x // P q x}).prod := by
      intro x
      refine ih (h.rest x) (fun u => ?_) ?_
      · have := (hperm (Fin.cons x u)).erase q
        rwa [hq, List.erase_cons_head] at this
      · rw [List.length_erase_of_mem hqs, hlength]
        rfl
    have := Fintype.ofFinite {x // P q x}
    rw [Nat.card_congr (consEquiv hq), Nat.card_sigma,
      Finset.sum_const_nat fun x _ => hrest x.val, Finset.card_univ, ← Nat.card_eq_fintype_card]
    exact List.prod_map_erase (fun q => Nat.card {x // P q x}) hqs

end Draws
