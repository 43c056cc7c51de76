import Mathlib.Data.List.AList
import Mathlib.Tactic.Common

/-!
# Tables keyed by generated identifiers

A table is a finite map from identifiers to rows with a counter that no stored identifier has
reached, so that an identifier is never handed out twice. `find` reads a row; the lemmas below
say what every other operation does to `find`, and nothing else about a table is ever used.
-/

namespace Keyed

/-- Rows by identifier; `next` is the identifier of the next row. -/
structure Table (ρ : Type*) where
  rows : AList fun _ : ℤ => ρ
  next : ℤ
  fresh : ∀ id ∈ rows, id < next

namespace Table

variable {ρ : Type*}

/-- The table without rows. -/
def empty : Table ρ := ⟨∅, 1, fun id h => absurd h (AList.notMem_empty id)⟩

def find (t : Table ρ) (id : ℤ) : Option ρ := t.rows.lookup id

/-- A new row, under the next identifier: they are handed out in order, without gaps. -/
def insert (t : Table ρ) (r : ρ) : Table ρ where
  rows := t.rows.insert t.next r
  next := t.next + 1
  fresh := by
    intro id h
    rcases AList.mem_insert _ |>.mp h with rfl | h
    · omega
    · have := t.fresh id h
      omega

/-- Replace a row; nothing happens if there is none. -/
def set (t : Table ρ) (id : ℤ) (r : ρ) : Table ρ :=
  if h : id ∈ t.rows then
    { t with
      rows := t.rows.insert id r
      fresh := by
        intro j hj
        rcases AList.mem_insert _ |>.mp hj with rfl | hj
        · exact t.fresh j h
        · exact t.fresh j hj }
  else t

def delete (t : Table ρ) (id : ℤ) : Table ρ where
  rows := t.rows.erase id
  next := t.next
  fresh := fun j hj => t.fresh j (AList.mem_erase.mp hj).2

/-- The rows that pass a test. -/
def filter (t : Table ρ) (p : ℤ → ρ → Bool) : Table ρ where
  rows := ⟨t.rows.entries.filter fun e => p e.1 e.2, t.rows.nodupKeys.sublist List.filter_sublist⟩
  next := t.next
  fresh := fun id h => t.fresh id ((List.filter_sublist.map _).subset h)

/-- The rows with their identifiers. -/
def toList (t : Table ρ) : List (ℤ × ρ) := t.rows.entries.map fun e => (e.1, e.2)

/-- Whether some row passes a test. -/
def any (t : Table ρ) (p : ℤ → ρ → Bool) : Bool := t.toList.any fun e => p e.1 e.2

section Find

variable {t : Table ρ} {id j : ℤ} {r : ρ}

@[simp] theorem find_empty : (empty : Table ρ).find id = none := AList.lookup_empty id

theorem lt_of_find (h : t.find id = some r) : id < t.next :=
  t.fresh id (AList.lookup_isSome.mp (by rw [show t.rows.lookup id = some r from h]; rfl))

@[simp] theorem find_next : t.find t.next = none := by
  cases h : t.find t.next with
  | none => rfl
  | some r => exact absurd (lt_of_find h) (Int.lt_irrefl _)

theorem find_insert (t : Table ρ) (r : ρ) (j : ℤ) :
    (t.insert r).find j = if j = t.next then some r else t.find j := by
  unfold find insert
  split_ifs with h
  · rw [h, AList.lookup_insert]
  · rw [AList.lookup_insert_ne h]

theorem find_set (t : Table ρ) (id : ℤ) (r : ρ) (j : ℤ) :
    (t.set id r).find j = if j = id ∧ (t.find id).isSome then some r else t.find j := by
  unfold set
  by_cases hid : id ∈ t.rows
  · have hsome : (t.find id).isSome = true := AList.lookup_isSome.mpr hid
    rw [dif_pos hid]
    unfold find at hsome ⊢
    by_cases h : j = id
    · rw [if_pos ⟨h, hsome⟩, h, AList.lookup_insert]
    · rw [if_neg (fun hc => h hc.1), AList.lookup_insert_ne h]
  · have hnone : t.find id = none := AList.lookup_eq_none.mpr hid
    rw [dif_neg hid, if_neg (by simp [hnone])]

@[simp] theorem next_set (t : Table ρ) (id : ℤ) (r : ρ) : (t.set id r).next = t.next := by
  unfold set
  split_ifs <;> rfl

theorem find_delete (t : Table ρ) (id j : ℤ) :
    (t.delete id).find j = if j = id then none else t.find j := by
  unfold find delete
  split_ifs with h
  · rw [h, AList.lookup_erase]
  · rw [AList.lookup_erase_ne h]

theorem eq_of_rows {t t' : Table ρ} (hrows : t.rows = t'.rows) (hnext : t.next = t'.next) :
    t = t' := by
  cases t
  cases t'
  simp_all

theorem rows_set (h : id ∈ t.rows) (r : ρ) : (t.set id r).rows = t.rows.insert id r := by
  unfold set
  rw [dif_pos h]

theorem set_set (t : Table ρ) (id : ℤ) (r : ρ) : (t.set id r).set id r = t.set id r := by
  by_cases hid : id ∈ t.rows
  · refine eq_of_rows ?_ (next_set _ id r)
    have hmem : id ∈ (t.set id r).rows := by
      rw [rows_set hid]
      exact (AList.mem_insert _).mpr (.inl rfl)
    rw [rows_set hmem, rows_set hid, AList.insert_insert]
  · have hsame : t.set id r = t := dif_neg hid
    rw [hsame, hsame]

theorem mem_toList : (id, r) ∈ t.toList ↔ t.find id = some r := by
  unfold toList find
  rw [← Option.mem_def, AList.mem_lookup_iff, List.mem_map]
  constructor
  · rintro ⟨⟨j, q⟩, h, e⟩
    obtain ⟨rfl, rfl⟩ : j = id ∧ q = r := by simpa using e
    exact h
  · intro h
    exact ⟨⟨id, r⟩, h, rfl⟩

theorem nodup_ids (t : Table ρ) : (t.toList.map Prod.fst).Nodup := by
  unfold toList
  rw [List.map_map]
  exact t.rows.nodupKeys

theorem nodup_ids_filterMap {β γ : Type*} {f : ℤ × ρ → Option β} {g : β → γ} {i : ℤ → γ}
    (hi : Function.Injective i) (h : ∀ p b, f p = some b → g b = i p.1) (t : Table ρ) :
    ((t.toList.filterMap f).map g).Nodup := by
  refine (t.nodup_ids.map hi).sublist ?_
  induction t.toList with
  | nil => simp
  | cons p l ih =>
    cases hp : f p with
    | none => exact (List.filterMap_cons_none hp ▸ ih).cons (i p.1)
    | some b =>
      rw [List.filterMap_cons_some hp, List.map_cons, List.map_cons, List.map_cons, h p b hp]
      exact ih.cons_cons (i p.1)

theorem any_iff {p : ℤ → ρ → Bool} :
    t.any p = true ↔ ∃ id r, t.find id = some r ∧ p id r = true := by
  unfold any
  rw [List.any_eq_true]
  constructor
  · rintro ⟨⟨id, r⟩, h, hp⟩
    exact ⟨id, r, mem_toList.mp h, hp⟩
  · rintro ⟨id, r, h, hp⟩
    exact ⟨(id, r), mem_toList.mpr h, hp⟩

theorem any_eq_false {p : ℤ → ρ → Bool} :
    t.any p = false ↔ ∀ id r, t.find id = some r → p id r = false := by
  rw [← Bool.not_eq_true, any_iff]
  constructor
  · intro h id r hr
    rw [← Bool.not_eq_true]
    exact fun hp => h ⟨id, r, hr, hp⟩
  · rintro h ⟨id, r, hr, hp⟩
    simp [h id r hr] at hp

/-! ## Selections -/

section Filter

variable {p q : ℤ → ρ → Bool}

theorem filter_eq_some : (t.filter p).find id = some r ↔ t.find id = some r ∧ p id r = true := by
  unfold find filter
  rw [← Option.mem_def, ← Option.mem_def, AList.mem_lookup_iff, AList.mem_lookup_iff]
  exact List.mem_filter

theorem find_filter (t : Table ρ) (p : ℤ → ρ → Bool) (id : ℤ) :
    (t.filter p).find id = (t.find id).filter (p id) := by
  ext r
  rw [filter_eq_some, Option.filter_eq_some_iff]

theorem filter_filter (t : Table ρ) (p q : ℤ → ρ → Bool) :
    (t.filter p).filter q = t.filter fun id r => p id r && q id r := by
  unfold filter
  simp only [mk.injEq, AList.mk.injEq, List.filter_filter, and_true]
  exact List.filter_congr fun e _ => Bool.and_comm _ _

theorem filter_congr (h : ∀ id r, t.find id = some r → p id r = q id r) :
    t.filter p = t.filter q := by
  unfold filter
  simp only [mk.injEq, AList.mk.injEq, and_true]
  refine List.filter_congr fun e he => ?_
  exact h e.1 e.2 (AList.mem_lookup_iff.mpr he)

theorem filter_true (t : Table ρ) : (t.filter fun _ _ => true) = t := by
  unfold filter
  simp only [List.filter_true]

theorem kerase_eq_filter {l : List (Sigma fun _ : ℤ => ρ)} (h : l.NodupKeys) (id : ℤ) :
    l.kerase id = l.filter fun e => e.1 ≠ id := by
  induction l with
  | nil => rfl
  | cons e l ih =>
    rw [List.nodupKeys_cons] at h
    by_cases he : id = e.1
    · rw [List.kerase_cons_eq he, List.filter_cons_of_neg (by simp [he]), eq_comm,
        List.filter_eq_self]
      intro e' he'
      rw [decide_eq_true_eq, he]
      rintro heq
      exact h.1 (heq ▸ List.mem_keys_of_mem he')
    · rw [List.kerase_cons_ne he, List.filter_cons_of_pos (by simpa using Ne.symm he), ih h.2]

theorem delete_eq_filter (t : Table ρ) (id : ℤ) : t.delete id = t.filter fun j _ => j ≠ id := by
  unfold delete filter
  simp only [mk.injEq, and_true]
  exact AList.ext (kerase_eq_filter t.rows.nodupKeys id)

theorem delete_delete (t : Table ρ) (id : ℤ) : (t.delete id).delete id = t.delete id := by
  rw [delete_eq_filter, delete_eq_filter, filter_filter]
  simp only [Bool.and_self]

end Filter

end Find

end Table

end Keyed
