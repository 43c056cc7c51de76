import ChaosLoris.Lib.Transactions
import ChaosLoris.Requests

/-!
# Concurrent updates of a schedule

A `PATCH` reads the row of its schedule, sets the fields it is given, and writes the whole row back
when it commits. The entity has no version, so nobody notices a row that has changed in between.

`two_updates` says what two requests for one schedule make of its row, and
`partial_updates_survive` when a request for the expression and one for the name both leave their
mark; two that have read the same row lose one of them (`partial_update_lost`).
-/

namespace ChaosLoris

open Runs Transactions

section Updates

variable {κ : Type*} {id : Id} {st st' : Store} {row : ScheduleRow}

/-- `PATCH` requests for the schedule `id`. A handler flushes nothing, and its commit writes what it
has left pending. -/
def updates (id : Id) (input : κ → ScheduleUpdateInput) : System κ Store (List Statement) where
  prepare k st :=
    match ScheduleController.update id (input k) st with
    | .error _ => none
    | .ok tx => some (if tx.pending = [] then none else some tx.pending)
  exec := execAll

variable {input : κ → ScheduleUpdateInput} {k : κ} {w : Option (List Statement)}

theorem commits_iff : (Request.updateSchedule id (input k)).Commits st st' ↔
    ∃ w, (updates id input).prepare k st = some w ∧ (updates id input).execute w st = some st' := by
  cases hid : st.schedule.find id with
  | none =>
    simp [Request.Commits, Request.handle, updates, ScheduleController.update, hid]
  | some row =>
    by_cases hrow : (input k).apply row = row
    · simp [Request.Commits, Request.handle, updates, ScheduleController.update, hid, hrow,
        execAll, System.execute]
    · simp [Request.Commits, Request.handle, updates, ScheduleController.update, hid, hrow,
        System.execute]

theorem prepare_updates (h : st.schedule.find id = some row) :
    (updates id input).prepare k st = some (if (input k).apply row = row then none
      else some [.updateSchedule id ((input k).apply row)]) := by
  by_cases hrow : (input k).apply row = row
  · simp [updates, ScheduleController.update, h, hrow]
  · simp [updates, ScheduleController.update, h, hrow]

/-- A request that has read `row` overwrites whatever the row has become. -/
theorem find_of_execute {now : ScheduleRow} (h : st.schedule.find id = some now)
    (hw : w = if (input k).apply row = row then none
      else some [.updateSchedule id ((input k).apply row)])
    (hexec : (updates id input).execute w st = some st') :
    st'.schedule.find id = some (if (input k).apply row = row then now else (input k).apply row) := by
  subst hw
  split_ifs at hexec ⊢ with hrow
  · obtain rfl : st = st' := Option.some.inj hexec
    exact h
  · change execAll [.updateSchedule id ((input k).apply row)] st = some st' at hexec
    rw [execAll_singleton, exec_eq_some] at hexec
    cases hexec
    show (st.schedule.set id ((input k).apply row)).find id = _
    rw [Keyed.Table.find_set, if_pos ⟨rfl, by rw [h]; rfl⟩]

theorem find_of_update (h : st.schedule.find id = some row)
    (hw : (updates id input).prepare k st = some w)
    (hexec : (updates id input).execute w st = some st') :
    st'.schedule.find id = some ((input k).apply row) := by
  rw [find_of_execute h (Option.some.inj (hw.symm.trans (prepare_updates h))) hexec]
  split_ifs with hrow
  · rw [hrow]
  · rfl

/-- What two committed requests have made of a row. -/
theorem two_updates [DecidableEq κ] {a b : κ} {s : State κ Store (List Statement)}
    {xs : List (Label κ)} {l : List (Entry κ (List Statement))}
    (htwo : ∀ m, m = a ∨ m = b) (hab : a ≠ b) (hrow : st.schedule.find id = some row)
    (hrun : run (logged (updates id input).step) (.init st, []) xs = some (s, l))
    (ha : s.phase a = .committed) (hb : s.phase b = .committed) :
    ∃ j k, (j = a ∧ k = b ∨ j = b ∧ k = a) ∧ ¬ ReadsAfter l k j ∧
      (ReadsAfter l j k ∧
          s.store.schedule.find id = some ((input k).apply ((input j).apply row)) ∨
        ¬ ReadsAfter l j k ∧ s.store.schedule.find id =
          some (if (input k).apply row = row then (input j).apply row
            else (input k).apply row)) := by
  obtain ⟨hist, hdesc⟩ := System.run_history hrun
  have hcommitted : ∀ m, s.phase m = .committed → ∃ w, Entry.commit m w ∈ l := by
    intro m hm
    have := hdesc m
    rwa [hm] at this
  obtain ⟨j, k, v, w, u, hjk, hprep, hexec, hlast, hnot, hafter⟩ :=
    hist.outcome_of_two htwo hab (hcommitted a ha) (hcommitted b hb)
  have hfirst := find_of_update hrow hprep hexec
  refine ⟨j, k, hjk, hnot, ?_⟩
  rcases hafter with ⟨hread, hw⟩ | ⟨hread, hw⟩
  · exact Or.inl ⟨hread, find_of_update hfirst hw hlast⟩
  · have hw' := Option.some.inj (hw.symm.trans (prepare_updates hrow))
    exact Or.inr ⟨hread, find_of_execute hfirst hw' hlast⟩

end Updates

/-! ## A request for the expression and one for the name -/

inductive Patch
  | expression
  | name
  deriving DecidableEq, Repr

def Patch.input (expression name : String) : Patch → ScheduleUpdateInput
  | .expression => { expression := some expression, name := none }
  | .name => { expression := none, name := some name }

/-- **Partial updates.** Of two committed requests, one for the expression of a schedule and one
for its name, both fields are in the final row if and only if one of the two has read the row after
the other had committed, or one of them has asked for what was stored already. In every case one of
the fields is, and the rest of the row is as it was. -/
theorem partial_updates_survive {id : Id} {st : Store} {row : ScheduleRow}
    {expression name : String} {s : State Patch Store (List Statement)}
    {xs : List (Label Patch)} {l : List (Entry Patch (List Statement))}
    (hrow : st.schedule.find id = some row)
    (hrun : run (logged (updates id (Patch.input expression name)).step) (.init st, []) xs =
      some (s, l))
    (hexpression : s.phase .expression = .committed) (hname : s.phase .name = .committed) :
    ∃ final, s.store.schedule.find id = some final ∧
      (final = ⟨name, expression⟩ ↔
        ReadsAfter l .expression .name ∨ ReadsAfter l .name .expression ∨
          row.expression = expression ∨ row.name = name) ∧
      (final = ⟨name, expression⟩ ∨ final = ⟨row.name, expression⟩ ∨
        final = ⟨name, row.expression⟩) := by
  obtain ⟨oldName, oldExpression⟩ := row
  have htwo : ∀ m : Patch, m = .expression ∨ m = .name := fun m => by cases m <;> simp
  obtain ⟨j, k, ⟨rfl, rfl⟩ | ⟨rfl, rfl⟩, hnot, ⟨hread, hfind⟩ | ⟨hread, hfind⟩⟩ :=
    two_updates htwo (by decide) hrow hrun hexpression hname
  · exact ⟨_, hfind, by simp [hread, Patch.input, ScheduleUpdateInput.apply]⟩
  · refine ⟨_, hfind, ?_⟩
    by_cases hsame : name = oldName
    · simp [Patch.input, ScheduleUpdateInput.apply, hsame]
    · simp [Patch.input, ScheduleUpdateInput.apply, hsame, hnot, hread, eq_comm]
  · exact ⟨_, hfind, by simp [hread, Patch.input, ScheduleUpdateInput.apply]⟩
  · refine ⟨_, hfind, ?_⟩
    by_cases hsame : expression = oldExpression
    · simp [Patch.input, ScheduleUpdateInput.apply, hsame]
    · simp [Patch.input, ScheduleUpdateInput.apply, hsame, hnot, hread, eq_comm]

/-- One request after the other. -/
def inSequence : List (Label Patch) :=
  [.read .expression, .write .expression, .commit .expression,
    .read .name, .write .name, .commit .name]

/-- Both requests read before the first one commits. -/
def overlapping : List (Label Patch) :=
  [.read .expression, .read .name, .write .expression, .commit .expression,
    .write .name, .commit .name]

/-- What the requests of `inSequence` write. -/
def halfHourly : List Statement := [.updateSchedule 1 ⟨"hourly", "0 30 * * * *"⟩]

def renamed : List Statement := [.updateSchedule 1 ⟨"half-hourly", "0 30 * * * *"⟩]

theorem partial_updates_survive_inSequence :
    ∃ s l, run (logged (updates 1 (Patch.input "0 30 * * * *" "half-hourly")).step)
        (.init hourlyStore, []) inSequence = some (s, l) ∧
      s.store.schedule.find 1 = some ⟨"half-hourly", "0 30 * * * *"⟩ := by
  have hrun : run (logged (updates 1 (Patch.input "0 30 * * * *" "half-hourly")).step)
      (.init hourlyStore, []) inSequence =
        some (_, [.read .expression (some halfHourly), .commit .expression (some halfHourly),
          .read .name (some renamed), .commit .name (some renamed)]) := rfl
  have hrow : hourlyStore.schedule.find 1 = some ⟨"hourly", "0 0 * * * *"⟩ := rfl
  obtain ⟨final, hfind, hboth, -⟩ := partial_updates_survive hrow hrun rfl rfl
  have hafter : ReadsAfter [.read .expression (some halfHourly),
      .commit .expression (some halfHourly), .read .name (some renamed),
      .commit .name (some renamed)] Patch.expression .name :=
    ⟨some halfHourly, some renamed, .cons _ (.cons_cons _ (.cons_cons _ (List.nil_sublist _)))⟩
  exact ⟨_, _, hrun, hfind.trans (congrArg some (hboth.mpr (Or.inl hafter)))⟩

/-- Two requests that overlap: the expression of the first is lost. -/
theorem partial_update_lost :
    ¬ ∀ (id : Id) (st : Store) (row : ScheduleRow) (expression name : String)
        (s : State Patch Store (List Statement)) (xs : List (Label Patch))
        (l : List (Entry Patch (List Statement))),
      st.schedule.find id = some row →
      run (logged (updates id (Patch.input expression name)).step) (.init st, []) xs =
        some (s, l) →
      s.phase .expression = .committed → s.phase .name = .committed →
      s.store.schedule.find id = some ⟨name, expression⟩ := by
  intro h
  have hlost := h 1 hourlyStore ⟨"hourly", "0 0 * * * *"⟩ "0 30 * * * *" "half-hourly" _ overlapping _
    rfl rfl rfl rfl
  exact absurd hlost (by decide)

end ChaosLoris
