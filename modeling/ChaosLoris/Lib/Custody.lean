import Mathlib.Data.List.AList
import Mathlib.Data.List.Nodup
import Mathlib.Data.List.Perm.Basic
import Mathlib.Tactic.Common

/-!
# Custody of tokens

Tokens are numbered in the order they are issued. From then on a token is in the slot of a key, in
somebody's hands, or spent. `Balanced` says that these three together are the tokens issued, each
of them once.

1. `Move`: issue a token into a hand, swap a token with a slot, empty a slot into a hand, spend a
   token. Each keeps the balance (`Balanced.move`).
2. What a balance says about one token: `Balanced.spent_nodup`, `slot_not_spent`,
   `slot_or_held`, and so on.
3. `holders_perm`: what a list of holders has in its hands, seen from one of them.
   `existsUnique_holder`: a held token has exactly one holder.
-/

namespace Custody

variable {κ : Type*}

/-- The tokens in the slots. -/
def values (slots : AList fun _ : κ => ℕ) : List ℕ := slots.entries.map Sigma.snd

structure Ledger (κ : Type*) where
  issued : ℕ
  slots : AList fun _ : κ => ℕ
  hands : List ℕ
  spent : List ℕ

/-- Every token issued is in exactly one place. -/
def Balanced (L : Ledger κ) : Prop :=
  (values L.slots ++ L.hands ++ L.spent).Perm (List.range L.issued)

section Slots

variable [DecidableEq κ] {slots : AList fun _ : κ => ℕ} {k : κ} {f : ℕ}

theorem mem_values : f ∈ values slots ↔ ∃ k, slots.lookup k = some f := by
  unfold values
  rw [List.mem_map]
  constructor
  · rintro ⟨⟨k, g⟩, h, rfl⟩
    exact ⟨k, AList.mem_lookup_iff.mpr h⟩
  · rintro ⟨k, h⟩
    exact ⟨⟨k, f⟩, AList.mem_lookup_iff.mp h, rfl⟩

theorem values_insert (slots : AList fun _ : κ => ℕ) (k : κ) (f : ℕ) :
    values (slots.insert k f) = f :: values (slots.erase k) := by
  unfold values
  rw [AList.entries_insert]
  rfl

theorem values_perm (slots : AList fun _ : κ => ℕ) (k : κ) :
    (values slots).Perm ((slots.lookup k).toList ++ values (slots.erase k)) := by
  cases h : slots.lookup k with
  | none =>
    have hk : k ∉ slots.entries.keys := AList.lookup_eq_none.mp h
    have herase : (slots.erase k).entries = slots.entries := List.kerase_of_notMem_keys hk
    unfold values
    rw [herase]
    exact List.Perm.refl _
  | some f =>
    have hk : k ∈ slots := AList.lookup_isSome.mp (by rw [h]; rfl)
    obtain ⟨g, l₁, l₂, hnot, hl, herase⟩ := List.exists_of_kerase hk
    obtain rfl : g = f := by
      have hg : slots.lookup k = some g := AList.mem_lookup_iff.mpr (by rw [hl]; simp)
      exact Option.some.inj (hg.symm.trans h)
    have herase' : (slots.erase k).entries = l₁ ++ l₂ := herase
    unfold values
    rw [herase', hl]
    simp

end Slots

section Moves

variable [DecidableEq κ]

/-- What can happen to a ledger. Hands are a multiset: only the tokens in them count. -/
inductive Move (L L' : Ledger κ) : Prop
  /-- Nothing. -/
  | idle (hi : L'.issued = L.issued) (hs : L'.slots = L.slots) (hh : L'.hands.Perm L.hands)
      (hp : L'.spent = L.spent)
  /-- A new token comes into a hand. -/
  | issue (hi : L'.issued = L.issued + 1) (hs : L'.slots = L.slots)
      (hh : L'.hands.Perm (L.issued :: L.hands)) (hp : L'.spent = L.spent)
  /-- A token goes from a hand into a slot, and what was in the slot into the hand. -/
  | put (k : κ) (f : ℕ) (rest : List ℕ) (hi : L'.issued = L.issued)
      (hs : L'.slots = L.slots.insert k f) (hf : L.hands.Perm (f :: rest))
      (hh : L'.hands.Perm ((L.slots.lookup k).toList ++ rest)) (hp : L'.spent = L.spent)
  /-- What is in a slot goes into a hand. -/
  | take (k : κ) (hi : L'.issued = L.issued) (hs : L'.slots = L.slots.erase k)
      (hh : L'.hands.Perm ((L.slots.lookup k).toList ++ L.hands)) (hp : L'.spent = L.spent)
  /-- A token in a hand is spent. -/
  | spend (f : ℕ) (hi : L'.issued = L.issued) (hs : L'.slots = L.slots)
      (hf : L.hands.Perm (f :: L'.hands)) (hp : L'.spent = L.spent ++ [f])

variable {L L' : Ledger κ}

/-- Every move keeps the balance. -/
theorem Balanced.move (hL : Balanced L) (h : Move L L') : Balanced L' := by
  unfold Balanced at hL ⊢
  cases h with
  | idle hi hs hh hp =>
    rw [hi, hs, hp]
    exact ((hh.append_left _).append_right _).trans hL
  | issue hi hs hh hp =>
    rw [hi, hs, hp, List.range_succ]
    calc (values L.slots ++ L'.hands ++ L.spent).Perm
          (values L.slots ++ L.issued :: L.hands ++ L.spent) :=
            (hh.append_left _).append_right _
      _ |>.Perm (L.issued :: (values L.slots ++ L.hands ++ L.spent)) := by
            simp
      _ |>.Perm (L.issued :: List.range L.issued) := hL.cons _
      _ |>.Perm (List.range L.issued ++ [L.issued]) := (List.perm_append_singleton _ _).symm
  | put k f rest hi hs hf hh hp =>
    rw [hi, hs, hp, values_insert]
    refine List.Perm.trans (List.Perm.append_right _ ?_) hL
    calc (f :: values (L.slots.erase k) ++ L'.hands).Perm
          (f :: values (L.slots.erase k) ++ ((L.slots.lookup k).toList ++ rest)) :=
            hh.append_left _
      _ |>.Perm (((L.slots.lookup k).toList ++ values (L.slots.erase k)) ++ f :: rest) := by
            rw [List.cons_append, ← List.append_assoc]
            refine List.Perm.trans ?_ List.perm_middle.symm
            exact (List.perm_append_comm.append_right _).cons _
      _ |>.Perm (values L.slots ++ L.hands) := (values_perm L.slots k).symm.append hf.symm
  | take k hi hs hh hp =>
    rw [hi, hs, hp]
    refine List.Perm.trans (List.Perm.append_right _ ?_) hL
    calc (values (L.slots.erase k) ++ L'.hands).Perm
          (values (L.slots.erase k) ++ ((L.slots.lookup k).toList ++ L.hands)) :=
            hh.append_left _
      _ |>.Perm ((L.slots.lookup k).toList ++ values (L.slots.erase k) ++ L.hands) := by
            rw [← List.append_assoc]
            exact List.perm_append_comm.append_right _
      _ |>.Perm (values L.slots ++ L.hands) := (values_perm L.slots k).symm.append_right _
  | spend f hi hs hf hp =>
    rw [hi, hs, hp]
    refine List.Perm.trans ?_ hL
    calc (values L.slots ++ L'.hands ++ (L.spent ++ [f])).Perm
          (f :: (values L.slots ++ L'.hands ++ L.spent)) := by
            rw [← List.append_assoc]
            exact List.perm_append_singleton _ _
      _ |>.Perm (values L.slots ++ f :: L'.hands ++ L.spent) := by
            simpa using List.perm_middle.symm
      _ |>.Perm (values L.slots ++ L.hands ++ L.spent) :=
            (hf.symm.append_left _).append_right _

end Moves

/-! ## One token -/

section Tokens

variable {L : Ledger κ} {f : ℕ}

theorem balanced_fresh : Balanced (⟨0, ∅, [], []⟩ : Ledger κ) := List.Perm.refl _

theorem Balanced.nodup (hL : Balanced L) : (values L.slots ++ L.hands ++ L.spent).Nodup :=
  hL.nodup_iff.mpr List.nodup_range

theorem Balanced.spent_nodup (hL : Balanced L) : L.spent.Nodup := hL.nodup.of_append_right

theorem Balanced.hands_nodup (hL : Balanced L) : L.hands.Nodup :=
  hL.nodup.of_append_left.of_append_right

theorem Balanced.slot_not_spent (hL : Balanced L) (hf : f ∈ values L.slots) : f ∉ L.spent :=
  fun h => List.disjoint_of_nodup_append hL.nodup (List.mem_append_left _ hf) h

theorem Balanced.slot_not_held (hL : Balanced L) (hf : f ∈ values L.slots) : f ∉ L.hands :=
  fun h => List.disjoint_of_nodup_append hL.nodup.of_append_left hf h

theorem Balanced.lt_of_slot (hL : Balanced L) (hf : f ∈ values L.slots) : f < L.issued :=
  List.mem_range.mp (hL.subset (List.mem_append_left _ (List.mem_append_left _ hf)))

/-- A token that has been issued and not been spent is in a slot or in a hand. -/
theorem Balanced.slot_or_held (hL : Balanced L) (hf : f < L.issued) (hs : f ∉ L.spent) :
    f ∈ values L.slots ∨ f ∈ L.hands := by
  have hmem := hL.symm.subset (List.mem_range.mpr hf)
  rw [List.mem_append, List.mem_append] at hmem
  exact hmem.resolve_right hs

end Tokens

/-! ## Holders -/

theorem holders_perm {α : Type*} (held : α → Option ℕ) {as : List α} {i : ℕ} {a : α}
    (h : as[i]? = some a) :
    ∃ rest, (as.filterMap held).Perm ((held a).toList ++ rest) ∧
      ∀ b, ((as.set i b).filterMap held).Perm ((held b).toList ++ rest) := by
  obtain ⟨hi, rfl⟩ := List.getElem?_eq_some_iff.mp h
  refine ⟨(as.take i ++ as.drop (i + 1)).filterMap held, ?_, fun b => ?_⟩
  · have hsplit : as.Perm (as[i] :: (as.take i ++ as.drop (i + 1))) := by
      conv_lhs => rw [← List.take_append_drop i as, ← List.getElem_cons_drop hi]
      exact List.perm_middle
    refine (hsplit.filterMap held).trans (List.Perm.of_eq ?_)
    cases hh : held as[i] <;> simp [hh]
  · have hset : (as.set i b).Perm (b :: (as.take i ++ as.drop (i + 1))) := by
      rw [List.set_eq_take_append_cons_drop, if_pos hi]
      exact List.perm_middle
    refine (hset.filterMap held).trans (List.Perm.of_eq ?_)
    cases hh : held b <;> simp [hh]

/-- Of a list of holders without common tokens, exactly one holds a token that is held. -/
theorem existsUnique_holder {α : Type*} {held : α → Option ℕ} {as : List α} {f : ℕ}
    (hnodup : (as.filterMap held).Nodup) (hf : f ∈ as.filterMap held) :
    ∃! i : ℕ, as[i]?.bind held = some f := by
  induction as with
  | nil => simp at hf
  | cons a as ih =>
    by_cases ha : held a = some f
    · refine ⟨0, ha, fun i hi => ?_⟩
      cases i with
      | zero => rfl
      | succ i =>
        rw [List.filterMap_cons_some ha, List.nodup_cons] at hnodup
        rw [List.getElem?_cons_succ, Option.bind_eq_some_iff] at hi
        obtain ⟨b, hb, hbf⟩ := hi
        exact absurd (List.mem_filterMap.mpr ⟨b, List.mem_iff_getElem?.mpr ⟨i, hb⟩, hbf⟩)
          hnodup.1
    · have htail : f ∈ as.filterMap held := by
        obtain ⟨b, hb, hbf⟩ := List.mem_filterMap.mp hf
        rcases List.mem_cons.mp hb with rfl | hb
        · exact absurd hbf ha
        · exact List.mem_filterMap.mpr ⟨b, hb, hbf⟩
      have hsub : (as.filterMap held).Sublist ((a :: as).filterMap held) :=
        (List.sublist_cons_self a as).filterMap held
      obtain ⟨i, hi, huniq⟩ := ih (hnodup.sublist hsub) htail
      refine ⟨i + 1, hi, fun j hj => ?_⟩
      cases j with
      | zero => exact absurd hj ha
      | succ j => exact congrArg (· + 1) (huniq j hj)

end Custody
