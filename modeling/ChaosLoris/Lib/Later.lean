import ChaosLoris.Lib.Constraints

/-!
# Later states of a table

Identifiers are handed out once, so whatever a table stores under an old identifier has been stored
there before. `Later f t t'` says that the table `t'` is a later state of `t`, in which moreover
the column `f` of every row is what it was. The operations of a table lead to later states, except
that replacing a row has to respect the column.
-/

namespace Keyed

variable {ρ α : Type*}

section Elsewhere

variable {t : Table ρ} {id j : ℤ} {r : ρ}

/-! The rows under other identifiers. -/

theorem find_insert_of_ne (h : j ≠ t.next) : (t.insert r).find j = t.find j := by
  rw [Table.find_insert, if_neg h]

theorem find_set_of_ne (h : j ≠ id) : (t.set id r).find j = t.find j := by
  rw [Table.find_set, if_neg fun hj => h hj.1]

theorem find_delete_of_ne (h : j ≠ id) : (t.delete id).find j = t.find j := by
  rw [Table.find_delete, if_neg h]

theorem isSome_find_delete_of_ne (hj : (t.find j).isSome) (h : j ≠ id) :
    ((t.delete id).find j).isSome := by
  rwa [find_delete_of_ne h]

end Elsewhere

structure Later (f : ρ → α) (t t' : Table ρ) : Prop where
  next_le : t.next ≤ t'.next
  kept : ∀ id r', id < t.next → t'.find id = some r' → ∃ r, t.find id = some r ∧ f r = f r'

namespace Later

variable {f : ρ → α} {t t' t'' : Table ρ} {id : ℤ} {r r' : ρ}

theorem refl : Later f t t := ⟨Int.le_refl _, fun _ r _ h => ⟨r, h, rfl⟩⟩

theorem trans (h : Later f t t') (h' : Later f t' t'') : Later f t t'' := by
  refine ⟨Int.le_trans h.next_le h'.next_le, fun id r'' hid hr'' => ?_⟩
  obtain ⟨r', hr', heq'⟩ := h'.kept id r'' (Int.lt_of_lt_of_le hid h.next_le) hr''
  obtain ⟨r, hr, heq⟩ := h.kept id r' hid hr'
  exact ⟨r, hr, heq.trans heq'⟩

theorem column_eq (h : Later f t t') (hr : t.find id = some r) (hr' : t'.find id = some r') :
    f r = f r' := by
  obtain ⟨s, hs, heq⟩ := h.kept id r' (Table.lt_of_find hr) hr'
  obtain rfl : r = s := Option.some.inj (hr.symm.trans hs)
  exact heq

theorem find_eq_none (h : Later f t t') (hid : id < t.next) (hnone : t.find id = none) :
    t'.find id = none := by
  rw [Option.eq_none_iff_forall_ne_some]
  intro r' hr'
  obtain ⟨r, hr, -⟩ := h.kept id r' hid hr'
  rw [hnone] at hr
  cases hr

theorem insert (r : ρ) : Later f t (t.insert r) := by
  refine ⟨Int.le_add_one (Int.le_refl _), fun id r' hid hr' => ?_⟩
  obtain ⟨rfl, -⟩ | hr' := find_insert_cases hr'
  · exact absurd hid (Int.lt_irrefl _)
  · exact ⟨r', hr', rfl⟩

theorem set (h : ∀ s, t.find id = some s → f s = f r) : Later f t (t.set id r) := by
  refine ⟨Int.le_of_eq (Table.next_set t id r).symm, fun j r' _ hr' => ?_⟩
  rw [Table.find_set] at hr'
  split_ifs at hr' with hj
  · obtain ⟨rfl, hsome⟩ := hj
    obtain ⟨s, hs⟩ := Option.isSome_iff_exists.mp hsome
    obtain rfl := Option.some.inj hr'
    exact ⟨s, hs, h s hs⟩
  · exact ⟨r', hr', rfl⟩

theorem delete (id : ℤ) : Later f t (t.delete id) :=
  ⟨Int.le_refl _, fun _ r' _ hr' => ⟨r', (find_delete_cases hr').2, rfl⟩⟩

end Later

end Keyed
