import Mathlib.Logic.Function.Basic
import Mathlib.Tactic.Common

/-!
# A table and its copy

A partial function `table` and a `copy` of it that is meant to follow. A write goes to both; the
copy can be loaded from the table as a whole, which starts it, and cleared, which stops it.

`Faithful`: the copy never holds anything but what the table holds, and while it runs it holds all
of it. Every operation keeps this, also writes to a copy that is stopped.
-/

variable {κ ν : Type*}

structure Mirror (κ ν : Type*) where
  table : κ → Option ν
  copy : κ → Option ν
  running : Bool

namespace Mirror

inductive Op (κ ν : Type*)
  /-- `none` removes the key. -/
  | write (k : κ) (v : Option ν)
  | load
  | clear

def apply [DecidableEq κ] (m : Mirror κ ν) : Op κ ν → Mirror κ ν
  | .write k v => { m with table := Function.update m.table k v, copy := Function.update m.copy k v }
  | .load => { m with copy := m.table, running := true }
  | .clear => { m with copy := fun _ => none, running := false }

structure Faithful (m : Mirror κ ν) : Prop where
  copied : ∀ k v, m.copy k = some v → m.table k = some v
  complete : m.running = true → m.copy = m.table

theorem faithful_stopped (table : κ → Option ν) : Faithful ⟨table, fun _ => none, false⟩ where
  copied := by simp
  complete := by simp

theorem Faithful.apply [DecidableEq κ] {m : Mirror κ ν} (hm : m.Faithful) (o : Op κ ν) :
    (m.apply o).Faithful := by
  cases o with
  | write k v =>
    constructor
    · intro j w h
      change Function.update m.copy k v j = some w at h
      show Function.update m.table k v j = some w
      by_cases hj : j = k
      · rw [hj, Function.update_self] at h ⊢
        exact h
      · rw [Function.update_of_ne hj] at h ⊢
        exact hm.copied j w h
    · intro h
      exact congrArg (Function.update · k v) (hm.complete h)
  | load => exact ⟨fun _ _ h => h, fun _ => rfl⟩
  | clear => exact faithful_stopped m.table

theorem Faithful.copy_eq_none {m : Mirror κ ν} (hm : m.Faithful) {k : κ} (h : m.table k = none) :
    m.copy k = none := by
  cases hc : m.copy k with
  | none => rfl
  | some v => simpa [h] using hm.copied k v hc

end Mirror
