import Mathlib.Data.List.Induction
import Mathlib.Logic.Function.Basic
import ChaosLoris.Lib.Runs

/-!
# Writers of shared cells

Writers join one after another, each with a list of writes to cells, and do their writes at any
later time, interleaved in any way. A run reports each write with the position of its writer.

1. `account`: the writes that are left are a suffix of those a writer joined with, and once the
   writer that wrote a cell last has no write of it left, the cell holds what this writer gives it.
2. `cells_of_finished`: when nothing is left, each cell is decided by the writer that wrote it last.
3. `serial_of_inOrder`: if each cell was written in the order in which the writers joined, the
   outcome is that of the writers one after another.
-/

namespace Writers

open Runs

variable {κ ν : Type*}

structure State (κ ν : Type*) where
  cells : κ → ν
  /-- The writes each writer has left. -/
  writers : List (List (κ × ν))

inductive Label (κ ν : Type*)
  | join (ws : List (κ × ν))
  | write (i : ℕ)

/-- A writer joins, or a writer does its next write. -/
def step [DecidableEq κ] (s : State κ ν) : Label κ ν → Option (State κ ν × List (ℕ × κ))
  | .join ws => some ({ s with writers := s.writers ++ [ws] }, [])
  | .write i =>
    match s.writers[i]? with
    | some ((k, v) :: ws) =>
      some (⟨Function.update s.cells k v, s.writers.set i ws⟩, [(i, k)])
    | _ => none

/-- What the writers of a run joined with, in order. -/
def programs (xs : List (Label κ ν)) : List (List (κ × ν)) :=
  xs.filterMap fun
    | .join ws => some ws
    | .write _ => none

/-- The last value a list of writes gives a cell. -/
def final [DecidableEq κ] : List (κ × ν) → κ → Option ν
  | [], _ => none
  | (j, v) :: ws, k => (final ws k).or (if j = k then some v else none)

/-- The writer that wrote a cell last. -/
def lastWriter [DecidableEq κ] (log : List (ℕ × κ)) (k : κ) : Option ℕ :=
  ((log.filter fun p => p.2 = k).map Prod.fst).getLast?

/-- The cells after the writers one after another. -/
def serial [DecidableEq κ] (cells : κ → ν) (ps : List (List (κ × ν))) : κ → ν :=
  ps.foldl (fun c ws k => (final ws k).getD (c k)) cells

/-- Each cell was written in the order in which its writers joined. -/
def InOrder [DecidableEq κ] (log : List (ℕ × κ)) : Prop :=
  ∀ k, ((log.filter fun p => p.2 = k).map Prod.fst).Pairwise (· ≤ ·)

/-! ## Small facts -/

theorem programs_append (xs ys : List (Label κ ν)) :
    programs (xs ++ ys) = programs xs ++ programs ys := List.filterMap_append

section Facts

variable [DecidableEq κ] {k : κ} {ws : List (κ × ν)}

@[simp] theorem final_nil : final ([] : List (κ × ν)) k = none := rfl

theorem final_cons (j : κ) (v : ν) (ws : List (κ × ν)) (k : κ) :
    final ((j, v) :: ws) k = (final ws k).or (if j = k then some v else none) := rfl

theorem final_append {vs : List (κ × ν)} {v : ν} (h : final ws k = some v) :
    final (vs ++ ws) k = some v := by
  induction vs with
  | nil => exact h
  | cons p vs ih => rw [List.cons_append, final_cons, ih, Option.some_or]

theorem lastWriter_snoc (log : List (ℕ × κ)) (i : ℕ) (j k : κ) :
    lastWriter (log ++ [(i, j)]) k = if j = k then some i else lastWriter log k := by
  unfold lastWriter
  by_cases h : j = k
  · simp [h]
  · simp [h]

theorem lastWriter_ne_none {log : List (ℕ × κ)} {i : ℕ} (h : (i, k) ∈ log) :
    lastWriter log k ≠ none := by
  unfold lastWriter
  rw [Ne, List.getLast?_eq_none_iff, List.map_eq_nil_iff]
  intro hnil
  have hmem : (i, k) ∈ log.filter fun p => p.2 = k := List.mem_filter.mpr ⟨h, by simp⟩
  rw [hnil] at hmem
  exact absurd hmem List.not_mem_nil

/-- In order, the last writer of a cell joined after the others. -/
theorem InOrder.le_lastWriter {log : List (ℕ × κ)} (hlog : InOrder log) {i j : ℕ}
    (hj : (j, k) ∈ log) (hi : lastWriter log k = some i) : j ≤ i := by
  obtain ⟨l, hl⟩ := List.getLast?_eq_some_iff.mp hi
  have hmem : j ∈ l ++ [i] :=
    hl ▸ List.mem_map.mpr ⟨(j, k), List.mem_filter.mpr ⟨hj, by simp⟩, rfl⟩
  have hsorted := hlog k
  rw [hl, List.pairwise_append] at hsorted
  rcases List.mem_append.mp hmem with hmem | hmem
  · exact hsorted.2.2 j hmem i (List.mem_singleton_self i)
  · exact Nat.le_of_eq (List.mem_singleton.mp hmem)

theorem inOrder_iff {log : List (ℕ × κ)} : InOrder log ↔
    ∀ q ∈ log, ((log.filter fun p => p.2 = q.2).map Prod.fst).Pairwise (· ≤ ·) := by
  constructor
  · intro h q _
    exact h q.2
  · intro h k
    by_cases hk : ∃ q ∈ log, q.2 = k
    · obtain ⟨q, hq, rfl⟩ := hk
      exact h q hq
    · rw [List.filter_eq_nil_iff.mpr fun q hq => by simpa using fun e => hk ⟨q, hq, e⟩]
      exact List.Pairwise.nil

instance (log : List (ℕ × κ)) : Decidable (InOrder log) := decidable_of_iff' _ inOrder_iff

theorem serial_of_none {cells : κ → ν} {ps : List (List (κ × ν))}
    (h : ∀ ws ∈ ps, final ws k = none) : serial cells ps k = cells k := by
  unfold serial
  induction ps generalizing cells with
  | nil => rfl
  | cons ws ps ih =>
    rw [List.foldl_cons, ih fun w hw => h w (List.mem_cons_of_mem _ hw), h ws List.mem_cons_self]
    rfl

theorem serial_snoc (cells : κ → ν) (ps : List (List (κ × ν))) (ws : List (κ × ν)) (k : κ) :
    serial cells (ps ++ [ws]) k = (final ws k).getD (serial cells ps k) := by
  unfold serial
  rw [List.foldl_append]
  rfl

/-- The last of the writers of a cell decides it. -/
theorem serial_of_last {cells : κ → ν} {ps : List (List (κ × ν))} {i : ℕ} {v : ν}
    (hi : ps[i]? = some ws) (hv : final ws k = some v)
    (hlater : ∀ j : ℕ, i < j → ∀ w, ps[j]? = some w → final w k = none) :
    serial cells ps k = v := by
  obtain ⟨hlt, rfl⟩ := List.getElem?_eq_some_iff.mp hi
  have hsplit : ps = ps.take i ++ [ps[i]] ++ ps.drop (i + 1) := by
    rw [List.append_assoc, List.singleton_append, List.getElem_cons_drop, List.take_append_drop]
  rw [hsplit]
  unfold serial
  rw [List.foldl_append]
  refine (serial_of_none fun w hw => ?_).trans ?_
  · obtain ⟨n, hn⟩ := List.mem_iff_getElem?.mp hw
    rw [List.getElem?_drop] at hn
    exact hlater _ (by omega) w hn
  · rw [List.foldl_append]
    show (final ps[i] k).getD _ = v
    rw [hv]
    rfl

end Facts

/-! ## Accounting -/

section Account

variable [DecidableEq κ] {cells : κ → ν} {s t : State κ ν}

/-- The books of a run whose writers joined with `ps`. -/
structure Account (cells : κ → ν) (ps : List (List (κ × ν))) (s : State κ ν)
    (log : List (ℕ × κ)) : Prop where
  length_eq : s.writers.length = ps.length
  suffix : ∀ (i : ℕ) ws rest, ps[i]? = some ws → s.writers[i]? = some rest → rest <:+ ws
  unwritten : ∀ k, lastWriter log k = none → s.cells k = cells k
  written : ∀ k i, lastWriter log k = some i → ∃ ws rest, ps[i]? = some ws ∧
    s.writers[i]? = some rest ∧ (final rest k = none → final ws k = some (s.cells k))
  done : ∀ k (i : ℕ) ws rest, ps[i]? = some ws → s.writers[i]? = some rest →
    final ws k ≠ none → final rest k ≠ none ∨ (i, k) ∈ log

theorem account_init : Account cells [] (⟨cells, []⟩ : State κ ν) [] where
  length_eq := rfl
  suffix := by simp
  unwritten := fun _ _ => rfl
  written := by simp [lastWriter]
  done := by simp

theorem account_join {ps : List (List (κ × ν))} {log : List (ℕ × κ)} (ws : List (κ × ν))
    (hs : Account cells ps s log) :
    Account cells (ps ++ [ws]) { s with writers := s.writers ++ [ws] } log := by
  have hget : ∀ (i : ℕ) w rest, (ps ++ [ws])[i]? = some w → (s.writers ++ [ws])[i]? = some rest →
      ps[i]? = some w ∧ s.writers[i]? = some rest ∨ rest = w := by
    intro i w rest hw hrest
    by_cases hi : i < ps.length
    · rw [List.getElem?_append_left hi] at hw
      rw [List.getElem?_append_left (hs.length_eq ▸ hi)] at hrest
      exact Or.inl ⟨hw, hrest⟩
    · rw [List.getElem?_append_right (Nat.le_of_not_lt hi), List.getElem?_singleton] at hw
      rw [List.getElem?_append_right (hs.length_eq ▸ Nat.le_of_not_lt hi), List.getElem?_singleton]
        at hrest
      split_ifs at hw hrest
      exact Or.inr (Option.some.inj (hrest.symm.trans hw))
  constructor
  · simp [hs.length_eq]
  · intro i w rest hw hrest
    rcases hget i w rest hw hrest with ⟨hw, hrest⟩ | rfl
    · exact hs.suffix i w rest hw hrest
    · exact List.suffix_refl _
  · exact hs.unwritten
  · intro k i hi
    obtain ⟨w, rest, hw, hrest, hfinal⟩ := hs.written k i hi
    refine ⟨w, rest, ?_, ?_, hfinal⟩
    · rw [List.getElem?_append_left (List.getElem?_eq_some_iff.mp hw).1, hw]
    · show (s.writers ++ [ws])[i]? = some rest
      rw [List.getElem?_append_left (List.getElem?_eq_some_iff.mp hrest).1, hrest]
  · intro k i w rest hw hrest hne
    rcases hget i w rest hw hrest with ⟨hw, hrest⟩ | rfl
    · exact hs.done k i w rest hw hrest hne
    · exact Or.inl hne

theorem account_write {ps : List (List (κ × ν))} {log : List (ℕ × κ)} {i : ℕ} {k : κ} {v : ν}
    {rest : List (κ × ν)} (hi : s.writers[i]? = some ((k, v) :: rest))
    (hs : Account cells ps s log) :
    Account cells ps ⟨Function.update s.cells k v, s.writers.set i rest⟩ (log ++ [(i, k)]) := by
  have hlt : i < s.writers.length := (List.getElem?_eq_some_iff.mp hi).1
  have hself : (s.writers.set i rest)[i]? = some rest := List.getElem?_set_self hlt
  have hother : ∀ j : ℕ, j ≠ i → (s.writers.set i rest)[j]? = s.writers[j]? :=
    fun j hj => List.getElem?_set_ne (Ne.symm hj)
  constructor
  · simp [hs.length_eq]
  · intro j ws rest' hw hrest'
    by_cases hj : j = i
    · subst hj
      obtain rfl : rest = rest' := Option.some.inj (hself.symm.trans hrest')
      exact (List.suffix_cons _ _).trans (hs.suffix j ws _ hw hi)
    · exact hs.suffix j ws rest' hw ((hother j hj).symm.trans hrest')
  · intro j hj
    rw [lastWriter_snoc] at hj
    split_ifs at hj with hkj
    show Function.update s.cells k v j = cells j
    rw [Function.update_of_ne (Ne.symm hkj)]
    exact hs.unwritten j hj
  · intro j m hm
    rw [lastWriter_snoc] at hm
    by_cases hkj : k = j
    · -- the cell just written: the value is the last one the writer gives it, or more will come
      subst hkj
      rw [if_pos rfl] at hm
      obtain rfl : i = m := Option.some.inj hm
      obtain ⟨ws, hws⟩ : ∃ ws, ps[i]? = some ws :=
        ⟨_, List.getElem?_eq_getElem (hs.length_eq ▸ hlt)⟩
      refine ⟨ws, rest, hws, hself, fun hnone => ?_⟩
      obtain ⟨vs, rfl⟩ := hs.suffix i ws _ hws hi
      show final _ k = some (Function.update s.cells k v k)
      rw [Function.update_self]
      exact final_append (by rw [final_cons, hnone, if_pos rfl, Option.none_or])
    · rw [if_neg hkj] at hm
      obtain ⟨ws, rest', hws, hrest', hfinal⟩ := hs.written j m hm
      have hcell : Function.update s.cells k v j = s.cells j :=
        Function.update_of_ne (Ne.symm hkj) ..
      by_cases hmi : m = i
      · subst hmi
        obtain rfl : (k, v) :: rest = rest' := Option.some.inj (hi.symm.trans hrest')
        refine ⟨ws, rest, hws, hself, fun hnone => ?_⟩
        rw [hfinal (by rw [final_cons, hnone, if_neg hkj, Option.none_or])]
        exact congrArg some hcell.symm
      · refine ⟨ws, rest', hws, (hother m hmi).trans hrest', fun hnone => ?_⟩
        rw [hfinal hnone]
        exact congrArg some hcell.symm
  · intro j m ws rest' hws hrest' hne
    rw [List.mem_append, List.mem_singleton]
    by_cases hmi : m = i
    · subst hmi
      obtain rfl : rest = rest' := Option.some.inj (hself.symm.trans hrest')
      by_cases hkj : k = j
      · exact Or.inr (Or.inr (by rw [hkj]))
      · rcases hs.done j m ws _ hws hi hne with h | h
        · left
          intro hnone
          exact h (by rw [final_cons, hnone, if_neg hkj, Option.none_or])
        · exact Or.inr (Or.inl h)
    · exact (hs.done j m ws rest' hws ((hother m hmi).symm.trans hrest') hne).imp_right Or.inl

/-- **Accounting.** The books hold in every state a run reaches. -/
theorem account {xs : List (Label κ ν)} {log : List (ℕ × κ)}
    (hrun : run (logged step) (⟨cells, []⟩, []) xs = some (s, log)) :
    Account cells (programs xs) s log := by
  induction xs using List.reverseRecOn generalizing s log with
  | nil =>
    obtain ⟨rfl, rfl⟩ : (⟨cells, []⟩ : State κ ν) = s ∧ [] = log := by simpa using hrun
    exact account_init
  | append_singleton xs x ih =>
    obtain ⟨u, l, es, hpre, hx, rfl⟩ := run_logged_snoc.mp hrun
    rw [programs_append]
    cases x with
    | join ws =>
      obtain ⟨rfl, rfl⟩ : { u with writers := u.writers ++ [ws] } = s ∧ [] = es := by
        simpa [step] using hx
      rw [List.append_nil]
      exact account_join ws (ih hpre)
    | write i =>
      rw [show programs [(Label.write i : Label κ ν)] = [] from rfl, List.append_nil]
      cases hi : u.writers[i]? with
      | none => simp [step, hi] at hx
      | some ws =>
        cases ws with
        | nil => simp [step, hi] at hx
        | cons p rest =>
          obtain ⟨k, v⟩ := p
          simp only [step, hi, Option.some.injEq, Prod.mk.injEq] at hx
          obtain ⟨rfl, rfl⟩ := hx
          exact account_write hi (ih hpre)

/-! ## When all writers have finished -/

/-- Each cell is decided by the writer that wrote it last. -/
theorem Account.cells_of_finished {ps : List (List (κ × ν))} {log : List (ℕ × κ)}
    (hs : Account cells ps s log) (hfin : ∀ rest ∈ s.writers, rest = []) (k : κ) :
    s.cells k = match lastWriter log k with
      | none => cells k
      | some i => ((ps[i]?.bind fun ws => final ws k).getD (cells k)) := by
  cases hk : lastWriter log k with
  | none => exact hs.unwritten k hk
  | some i =>
    obtain ⟨ws, rest, hws, hrest, hfinal⟩ := hs.written k i hk
    obtain rfl : rest = [] := hfin rest (List.mem_of_getElem? hrest)
    simp [hws, hfinal final_nil]

/-- **Serial outcome.** If each cell was written in the order of the writers, the cells are as if
the writers had come one after another. -/
theorem Account.serial_of_inOrder {ps : List (List (κ × ν))} {log : List (ℕ × κ)}
    (hs : Account cells ps s log) (hfin : ∀ rest ∈ s.writers, rest = []) (hlog : InOrder log) :
    s.cells = serial cells ps := by
  ext k : 1
  have hdone : ∀ (i : ℕ) ws, ps[i]? = some ws → final ws k ≠ none → (i, k) ∈ log := by
    intro i ws hws hne
    obtain ⟨rest, hrest⟩ : ∃ rest, s.writers[i]? = some rest :=
      ⟨_, List.getElem?_eq_getElem (hs.length_eq ▸ (List.getElem?_eq_some_iff.mp hws).1)⟩
    refine (hs.done k i ws rest hws hrest hne).resolve_left ?_
    rw [hfin rest (List.mem_of_getElem? hrest)]
    simp
  cases hk : lastWriter log k with
  | none =>
    rw [hs.unwritten k hk, serial_of_none]
    intro ws hws
    obtain ⟨i, hi⟩ := List.mem_iff_getElem?.mp hws
    by_contra hne
    exact lastWriter_ne_none (hdone i ws hi hne) hk
  | some i =>
    obtain ⟨ws, rest, hws, hrest, hfinal⟩ := hs.written k i hk
    obtain rfl : rest = [] := hfin rest (List.mem_of_getElem? hrest)
    refine (serial_of_last hws (hfinal final_nil) fun j hij w hw => ?_).symm
    by_contra hne
    have := hlog.le_lastWriter (hdone j w hw hne) hk
    omega

end Account

end Writers
