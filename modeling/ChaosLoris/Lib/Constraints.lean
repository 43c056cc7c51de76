import ChaosLoris.Lib.Table

/-!
# Constraints on tables

What a schema can declare of a table with generated identifiers: a column is unique, a column
refers to another table, every row meets a condition. For each, the lemmas below say when inserting,
replacing and deleting a row keep it. A collection is a list of values by the row that owns them.

1. `Unique`: two rows that agree in `f` are one row.
2. `References`: the identifier `f r` of each row `r` is one of the table `u`.
3. `Every`: each row meets `p`.
4. `Owned`: each value of a collection belongs to a row that permits it, and is there once.
5. `Numbered`: the identifiers begin with 1.
-/

namespace Keyed

variable {ρ τ α β : Type*}

def Unique (t : Table ρ) (f : ρ → α) : Prop :=
  ∀ i j r s, t.find i = some r → t.find j = some s → f r = f s → i = j

def References (t : Table ρ) (u : Table τ) (f : ρ → ℤ) : Prop :=
  ∀ i r, t.find i = some r → (u.find (f r)).isSome

def Every (t : Table ρ) (p : ρ → Prop) : Prop := ∀ i r, t.find i = some r → p r

structure Owned (t : Table ρ) (c : List (ℤ × β)) (p : ρ → β → Prop) : Prop where
  permitted : ∀ e ∈ c, ∃ r, t.find e.1 = some r ∧ p r e.2
  nodup : c.Nodup

structure Numbered (t : Table ρ) : Prop where
  next_pos : 0 < t.next
  pos : ∀ id r, t.find id = some r → 0 < id

section Rows

variable {t : Table ρ} {u : Table τ} {r : ρ} {id : ℤ}

theorem find_insert_cases {j : ℤ} {s : ρ} (h : (t.insert r).find j = some s) :
    (j = t.next ∧ s = r) ∨ t.find j = some s := by
  rw [Table.find_insert] at h
  split_ifs at h with hj
  · exact Or.inl ⟨hj, (Option.some.inj h).symm⟩
  · exact Or.inr h

/-- A row of a table after a replacement is the new one, or an old one under another identifier. -/
theorem find_set_cases {j : ℤ} {s : ρ} (h : (t.set id r).find j = some s) :
    (j = id ∧ s = r) ∨ (j ≠ id ∧ t.find j = some s) := by
  rw [Table.find_set] at h
  split_ifs at h with hj
  · exact Or.inl ⟨hj.1, (Option.some.inj h).symm⟩
  · refine Or.inr ⟨?_, h⟩
    rintro rfl
    exact hj ⟨rfl, by rw [h]; rfl⟩

theorem find_delete_cases {j : ℤ} {s : ρ} (h : (t.delete id).find j = some s) :
    j ≠ id ∧ t.find j = some s := by
  rw [Table.find_delete] at h
  split_ifs at h with hj
  exact ⟨hj, h⟩

theorem isSome_find_insert {j : ℤ} (h : (t.find j).isSome) : ((t.insert r).find j).isSome := by
  rw [Table.find_insert]
  split_ifs
  · rfl
  · exact h

theorem isSome_find_set {j : ℤ} (h : (t.find j).isSome) : ((t.set id r).find j).isSome := by
  rw [Table.find_set]
  split_ifs
  · rfl
  · exact h

/-! ## Unique columns -/

theorem unique_empty (f : ρ → α) : Unique Table.empty f := by
  intro i j r s hi
  simp at hi

theorem Unique.insert {f : ρ → α} (h : Unique t f) (hnew : ∀ j s, t.find j = some s → f s ≠ f r) :
    Unique (t.insert r) f := by
  intro i j a b hi hj hab
  rcases find_insert_cases hi with ⟨rfl, rfl⟩ | hi' <;>
    rcases find_insert_cases hj with ⟨rfl, rfl⟩ | hj'
  · rfl
  · exact absurd hab.symm (hnew j b hj')
  · exact absurd hab (hnew i a hi')
  · exact h i j a b hi' hj' hab

theorem Unique.set {f : ρ → α} (h : Unique t f)
    (hnew : ∀ j s, t.find j = some s → j ≠ id → f s ≠ f r) : Unique (t.set id r) f := by
  intro i j a b hi hj hab
  rcases find_set_cases hi with ⟨rfl, rfl⟩ | ⟨hid, hi'⟩ <;>
    rcases find_set_cases hj with ⟨rfl, rfl⟩ | ⟨hjd, hj'⟩
  · rfl
  · exact absurd hab.symm (hnew j b hj' hjd)
  · exact absurd hab (hnew i a hi' hid)
  · exact h i j a b hi' hj' hab

theorem Unique.delete {f : ρ → α} (h : Unique t f) (id : ℤ) : Unique (t.delete id) f := by
  intro i j a b hi hj hab
  exact h i j a b (find_delete_cases hi).2 (find_delete_cases hj).2 hab

/-! ## References -/

theorem references_empty (u : Table τ) (f : ρ → ℤ) : References Table.empty u f := by
  intro i r hi
  simp at hi

section References

variable {f : ρ → ℤ}

theorem References.insert (h : References t u f) (hr : (u.find (f r)).isSome) :
    References (t.insert r) u f := by
  intro i a hi
  rcases find_insert_cases hi with ⟨-, rfl⟩ | hi
  · exact hr
  · exact h i a hi

theorem References.set (h : References t u f) (hr : (u.find (f r)).isSome) :
    References (t.set id r) u f := by
  intro i a hi
  rcases find_set_cases hi with ⟨-, rfl⟩ | ⟨-, hi⟩
  · exact hr
  · exact h i a hi

theorem References.delete (h : References t u f) (id : ℤ) : References (t.delete id) u f := by
  intro i a hi
  exact h i a (find_delete_cases hi).2

theorem References.insert_target (h : References t u f) (q : τ) :
    References t (u.insert q) f := by
  intro i a hi
  exact isSome_find_insert (h i a hi)

theorem References.set_target (h : References t u f) (id : ℤ) (q : τ) :
    References t (u.set id q) f := by
  intro i a hi
  exact isSome_find_set (h i a hi)

theorem References.delete_target (h : References t u f)
    (hfree : ∀ i a, t.find i = some a → f a ≠ id) : References t (u.delete id) f := by
  intro i a hi
  rw [Table.find_delete, if_neg (hfree i a hi)]
  exact h i a hi

end References

/-! ## Conditions on rows -/

theorem every_empty (p : ρ → Prop) : Every Table.empty p := by
  intro i r hi
  simp at hi

section Every

variable {p : ρ → Prop}

theorem Every.insert (h : Every t p) (hr : p r) : Every (t.insert r) p := by
  intro i a hi
  rcases find_insert_cases hi with ⟨-, rfl⟩ | hi
  · exact hr
  · exact h i a hi

theorem Every.set (h : Every t p) (hr : p r) : Every (t.set id r) p := by
  intro i a hi
  rcases find_set_cases hi with ⟨-, rfl⟩ | ⟨-, hi⟩
  · exact hr
  · exact h i a hi

theorem Every.delete (h : Every t p) (id : ℤ) : Every (t.delete id) p := by
  intro i a hi
  exact h i a (find_delete_cases hi).2

end Every

/-! ## Collections -/

section Owned

variable {c : List (ℤ × β)} {p : ρ → β → Prop}

theorem owned_empty (p : ρ → β → Prop) : Owned Table.empty [] p where
  permitted := by simp
  nodup := List.nodup_nil

/-- Nothing of a collection belongs to a row that is still to come. -/
theorem Owned.not_next (h : Owned t c p) (b : β) : (t.next, b) ∉ c := by
  intro hb
  obtain ⟨r, hr, -⟩ := h.permitted _ hb
  rw [Table.find_next] at hr
  cases hr

theorem Owned.insert (h : Owned t c p) {bs : List β} (hbs : bs.Nodup) (hp : ∀ b ∈ bs, p r b) :
    Owned (t.insert r) (bs.map (t.next, ·) ++ c) p where
  permitted := by
    intro e he
    rcases List.mem_append.mp he with he | he
    · obtain ⟨b, hb, rfl⟩ := List.mem_map.mp he
      exact ⟨r, by rw [Table.find_insert, if_pos rfl], hp b hb⟩
    · obtain ⟨a, ha, hpa⟩ := h.permitted e he
      refine ⟨a, ?_, hpa⟩
      have hne : e.1 ≠ t.next := Int.ne_of_lt (Table.lt_of_find ha)
      rw [Table.find_insert, if_neg hne, ha]
  nodup := by
    rw [List.nodup_append]
    refine ⟨hbs.map fun b b' hb => (Prod.mk.inj hb).2, h.nodup, ?_⟩
    rintro e he e' he' rfl
    obtain ⟨b, -, rfl⟩ := List.mem_map.mp he
    exact h.not_next b he'

theorem Owned.delete (h : Owned t c p) (id : ℤ) :
    Owned (t.delete id) (c.filter fun e => e.1 ≠ id) p where
  permitted := by
    intro e he
    obtain ⟨hec, hne⟩ := List.mem_filter.mp he
    obtain ⟨a, ha, hpa⟩ := h.permitted e hec
    refine ⟨a, ?_, hpa⟩
    rw [Table.find_delete, if_neg (by simpa using hne), ha]
  nodup := h.nodup.filter _

end Owned

/-! ## Identifiers -/

theorem numbered_empty : Numbered (Table.empty : Table ρ) where
  next_pos := Int.one_pos
  pos := by
    intro id r h
    simp at h

theorem Numbered.insert (h : Numbered t) (r : ρ) : Numbered (t.insert r) where
  next_pos := Int.add_pos h.next_pos Int.one_pos
  pos := by
    intro j s hj
    rcases find_insert_cases hj with ⟨rfl, -⟩ | hj
    · exact h.next_pos
    · exact h.pos j s hj

theorem Numbered.set (h : Numbered t) (id : ℤ) (r : ρ) : Numbered (t.set id r) where
  next_pos := by
    rw [Table.next_set]
    exact h.next_pos
  pos := by
    intro j s hj
    have hsome : (t.find j).isSome := by
      rw [Table.find_set] at hj
      split_ifs at hj with hid
      · exact hid.1 ▸ hid.2
      · rw [hj]
        rfl
    obtain ⟨s', hs'⟩ := Option.isSome_iff_exists.mp hsome
    exact h.pos j s' hs'

theorem Numbered.delete (h : Numbered t) (id : ℤ) : Numbered (t.delete id) where
  next_pos := h.next_pos
  pos := by
    intro j s hj
    exact h.pos j s (find_delete_cases hj).2

end Rows

end Keyed
