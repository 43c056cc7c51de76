import Mathlib.Logic.Function.Basic
import ChaosLoris.Lib.Table

/-!
# Tables as functions

The extent of a table is the function from identifiers to rows that it stores, with the next
identifier. Two tables with the same extent cannot be told apart by `find`. The operations of a
table are those of its extent.
-/

namespace Keyed

/-- What is stored under each identifier, and the identifier of the next row. -/
@[ext] structure Extent (ρ : Type*) where
  find : ℤ → Option ρ
  next : ℤ

namespace Extent

variable {ρ : Type*}

def empty : Extent ρ := ⟨fun _ => none, 1⟩

/-- A new row. -/
def add (t : Extent ρ) (r : ρ) : Extent ρ :=
  ⟨Function.update t.find t.next (some r), t.next + 1⟩

/-- Another row in the place of one that is there. -/
def put (t : Extent ρ) (id : ℤ) (r : ρ) : Extent ρ :=
  ⟨Function.update t.find id ((t.find id).map fun _ => r), t.next⟩

def remove (t : Extent ρ) (id : ℤ) : Extent ρ := ⟨Function.update t.find id none, t.next⟩

theorem put_eq_self {t : Extent ρ} {id : ℤ} {r : ρ} (h : t.find id = some r) : t.put id r = t := by
  refine Extent.ext ?_ rfl
  show Function.update t.find id ((t.find id).map fun _ => r) = t.find
  rw [h, Option.map_some, ← h, Function.update_eq_self]

end Extent

namespace Table

variable {ρ : Type*}

def extent (t : Table ρ) : Extent ρ := ⟨t.find, t.next⟩

@[simp] theorem extent_find (t : Table ρ) : t.extent.find = t.find := rfl

@[simp] theorem extent_next (t : Table ρ) : t.extent.next = t.next := rfl

@[simp] theorem extent_empty : (empty : Table ρ).extent = .empty := by
  refine Extent.ext (funext fun j => ?_) rfl
  show (empty : Table ρ).find j = none
  exact find_empty

@[simp] theorem extent_insert (t : Table ρ) (r : ρ) : (t.insert r).extent = t.extent.add r := by
  refine Extent.ext (funext fun j => ?_) rfl
  show (t.insert r).find j = Function.update t.find t.next (some r) j
  rw [find_insert, Function.update_apply]

@[simp] theorem extent_set (t : Table ρ) (id : ℤ) (r : ρ) :
    (t.set id r).extent = t.extent.put id r := by
  refine Extent.ext (funext fun j => ?_) (next_set t id r)
  show (t.set id r).find j = Function.update t.find id ((t.find id).map fun _ => r) j
  rw [find_set, Function.update_apply]
  by_cases h : j = id
  · subst h
    cases t.find j <;> simp
  · rw [if_neg h, if_neg fun hc => h hc.1]

@[simp] theorem extent_delete (t : Table ρ) (id : ℤ) :
    (t.delete id).extent = t.extent.remove id := by
  refine Extent.ext (funext fun j => ?_) rfl
  show (t.delete id).find j = Function.update t.find id none j
  rw [find_delete, Function.update_apply]

end Table

end Keyed
