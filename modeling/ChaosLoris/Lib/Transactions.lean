import Mathlib.Logic.Function.Basic
import ChaosLoris.Lib.Runs

/-!
# Transactions that read, write and commit

Each client of a store reads it once, decides by what it has read on one write, and commits. What
it has read may be out of date when it writes: nothing is compared. A write takes the lock that all
writes of the store share, is checked against the store as it is then, and becomes visible when its
client commits and gives up the lock. A client with nothing to write takes no lock.

1. `History`: a list of reads and commits, and the store that it leads to. Each read sees what has
   been committed before it; each commit carries out the write its client decided on.
2. `run_history`: the reads and commits of a run, in their order, are a history.
3. `History.outcome_of_two`: what two clients can make of a store. Either one of them reads after
   the other has committed, and the outcome is that of the two in sequence, or both have read the
   initial store, and the outcome is that of their writes in the order of the commits.
-/

namespace Transactions

open Runs

variable {κ σ ω : Type*} [DecidableEq κ]

structure System (κ σ ω : Type*) where
  /-- What a client is going to write, if anything, judging by the store; `none` if it gives up. -/
  prepare : κ → σ → Option (Option ω)
  /-- Carry out a write; `none` if the store does not admit it. -/
  exec : ω → σ → Option σ

/-- How far a client has come. -/
inductive Phase (σ ω : Type*)
  | idle
  | loaded (write : Option ω)
  | written (write : ω) (store : σ)
  | committed
  | refused

structure State (κ σ ω : Type*) where
  store : σ
  lock : Option κ
  phase : κ → Phase σ ω

inductive Label (κ : Type*)
  | read (k : κ)
  | write (k : κ)
  | commit (k : κ)
  | rollback (k : κ)

/-- What a step shows of itself: the write that a read led to, or that a commit made visible. -/
inductive Entry (κ ω : Type*)
  | read (k : κ) (write : Option ω)
  | commit (k : κ) (write : Option ω)

def Entry.client : Entry κ ω → κ
  | .read k _ => k
  | .commit k _ => k

def State.init (st : σ) : State κ σ ω := ⟨st, none, fun _ => .idle⟩

def State.setPhase (s : State κ σ ω) (k : κ) (p : Phase σ ω) : State κ σ ω :=
  { s with phase := Function.update s.phase k p }

def State.release (s : State κ σ ω) (k : κ) : State κ σ ω :=
  { s with lock := if s.lock = some k then none else s.lock }

namespace System

variable (sys : System κ σ ω)

/-- Carry out what a client has decided on. -/
def execute : Option ω → σ → Option σ
  | none, st => some st
  | some w, st => sys.exec w st

def step (s : State κ σ ω) : Label κ → Option (State κ σ ω × List (Entry κ ω))
  | .read k =>
    match s.phase k, sys.prepare k s.store with
    | .idle, some w => some (s.setPhase k (.loaded w), [.read k w])
    | .idle, none => some (s.setPhase k .refused, [])
    | _, _ => none
  | .write k =>
    match s.phase k, s.lock with
    | .loaded (some w), none =>
      match sys.exec w s.store with
      | some st => some ({ s with lock := some k }.setPhase k (.written w st), [])
      | none => some (s.setPhase k .refused, [])
    | _, _ => none
  | .commit k =>
    match s.phase k with
    | .loaded none => some (s.setPhase k .committed, [.commit k none])
    | .written w st =>
      some ({ s with store := st, lock := none }.setPhase k .committed, [.commit k (some w)])
    | _ => none
  | .rollback k =>
    match s.phase k with
    | .committed => none
    | .refused => none
    | _ => some ((s.release k).setPhase k .refused, [])

/-- The reads and commits of clients, from the store `st`. -/
inductive History (st : σ) : List (Entry κ ω) → σ → Prop
  | nil : History st [] st
  | read {l : List (Entry κ ω)} {t : σ} {k : κ} {w : Option ω} (h : History st l t)
      (hnew : ∀ v, .read k v ∉ l) (hw : sys.prepare k t = some w) : History st (l ++ [.read k w]) t
  | commit {l : List (Entry κ ω)} {t u : σ} {k : κ} {w : Option ω} (h : History st l t)
      (hread : .read k w ∈ l) (hnew : ∀ v, .commit k v ∉ l) (hw : sys.execute w t = some u) :
      History st (l ++ [.commit k w]) u

/-! ## The history of a run -/

/-- What a client in a phase has done so far. -/
def Describes (l : List (Entry κ ω)) (s : State κ σ ω) (k : κ) : Phase σ ω → Prop
  | .idle => (∀ v, .read k v ∉ l) ∧ ∀ v, .commit k v ∉ l
  | .loaded w => .read k w ∈ l ∧ ∀ v, .commit k v ∉ l
  | .written w st => (.read k (some w) ∈ l ∧ ∀ v, .commit k v ∉ l) ∧ s.lock = some k ∧
      sys.exec w s.store = some st
  | .committed => ∃ w, .commit k w ∈ l
  | .refused => ∀ v, .commit k v ∉ l

/-- What a step can be, and whose it is. -/
inductive Move (s t : State κ σ ω) (es : List (Entry κ ω)) (k : κ) : Prop
  | read (w : Option ω) (hk : s.phase k = .idle) (hw : sys.prepare k s.store = some w)
      (ht : t = s.setPhase k (.loaded w)) (hes : es = [.read k w])
  | write (w : ω) (st : σ) (hk : s.phase k = .loaded (some w)) (hlock : s.lock = none)
      (hw : sys.exec w s.store = some st)
      (ht : t = { s with lock := some k }.setPhase k (.written w st)) (hes : es = [])
  | pass (hk : s.phase k = .loaded none) (ht : t = s.setPhase k .committed)
      (hes : es = [.commit k none])
  | commit (w : ω) (st : σ) (hk : s.phase k = .written w st)
      (ht : t = { s with store := st, lock := none }.setPhase k .committed)
      (hes : es = [.commit k (some w)])
  | refuse (lock : Option κ) (hk : s.phase k ≠ .committed)
      (hlock : lock = s.lock ∨ s.lock = some k)
      (ht : t = { s with lock := lock }.setPhase k .refused) (hes : es = [])

variable {sys : System κ σ ω} {s t : State κ σ ω} {x : Label κ} {es l : List (Entry κ ω)} {j k : κ}
  {st : σ}

theorem step_cases (h : sys.step s x = some (t, es)) : ∃ k, sys.Move s t es k := by
  cases x with
  | read k =>
    refine ⟨k, ?_⟩
    simp only [step] at h
    split at h
    next w hk hw =>
      simp only [Option.some.injEq, Prod.mk.injEq] at h
      exact .read w hk hw h.1.symm h.2.symm
    next hk hw =>
      simp only [Option.some.injEq, Prod.mk.injEq] at h
      exact .refuse s.lock (by simp [hk]) (Or.inl rfl) h.1.symm h.2.symm
    next => cases h
  | write k =>
    refine ⟨k, ?_⟩
    simp only [step] at h
    split at h
    next w hk hlock =>
      split at h
      next st hw =>
        simp only [Option.some.injEq, Prod.mk.injEq] at h
        exact .write w st hk hlock hw h.1.symm h.2.symm
      next hw =>
        simp only [Option.some.injEq, Prod.mk.injEq] at h
        exact .refuse s.lock (by simp [hk]) (Or.inl rfl) h.1.symm h.2.symm
    next => cases h
  | commit k =>
    refine ⟨k, ?_⟩
    simp only [step] at h
    split at h
    next hk =>
      simp only [Option.some.injEq, Prod.mk.injEq] at h
      exact .pass hk h.1.symm h.2.symm
    next w st hk =>
      simp only [Option.some.injEq, Prod.mk.injEq] at h
      exact .commit w st hk h.1.symm h.2.symm
    next => cases h
  | rollback k =>
    refine ⟨k, ?_⟩
    simp only [step] at h
    split at h
    next => cases h
    next => cases h
    next hk _ =>
      simp only [Option.some.injEq, Prod.mk.injEq] at h
      refine .refuse (s.release k).lock hk ?_ h.1.symm h.2.symm
      unfold State.release
      dsimp only
      split_ifs with hlock
      · exact Or.inr hlock
      · exact Or.inl rfl

omit [DecidableEq κ] in
/-- Steps of other clients leave a client where it is. -/
theorem Describes.frame {p : Phase σ ω} (h : sys.Describes l s j p)
    (hes : ∀ e ∈ es, e.client ≠ j) (hlock : s.lock = some j → t.lock = some j ∧ t.store = s.store) :
    sys.Describes (l ++ es) t j p := by
  have hread : ∀ v, .read j v ∈ l ++ es ↔ .read j v ∈ l := fun v => by
    rw [List.mem_append]
    exact or_iff_left fun hv => hes _ hv rfl
  have hcommit : ∀ v, .commit j v ∈ l ++ es ↔ .commit j v ∈ l := fun v => by
    rw [List.mem_append]
    exact or_iff_left fun hv => hes _ hv rfl
  cases p with
  | written w st =>
    obtain ⟨hl, hs, hw⟩ := h
    obtain ⟨ht, hstore⟩ := hlock hs
    refine ⟨?_, ht, hstore ▸ hw⟩
    simpa only [hread, hcommit] using hl
  | _ => simpa only [Describes, hread, hcommit] using h

omit [DecidableEq κ] in
theorem Describes.not_committed {p : Phase σ ω} (h : sys.Describes l s k p) (hp : p ≠ .committed)
    (v : Option ω) : .commit k v ∉ l := by
  cases p with
  | idle => exact h.2 v
  | loaded w => exact h.2 v
  | written w st => exact h.1.2 v
  | committed => exact absurd rfl hp
  | refused => exact h v

/-- If the client `k` is described in its new phase, all clients are, as long as the lock of no
other client is touched. -/
theorem describes_setPhase {u : State κ σ ω} (es : List (Entry κ ω)) (k : κ) (p : Phase σ ω)
    (h : ∀ j, sys.Describes l s j (s.phase j)) (hphase : u.phase = s.phase)
    (hes : ∀ e ∈ es, e.client = k)
    (hlock : ∀ j, j ≠ k → s.lock = some j → u.lock = some j ∧ u.store = s.store)
    (hp : sys.Describes (l ++ es) (u.setPhase k p) k p) (j : κ) :
    sys.Describes (l ++ es) (u.setPhase k p) j ((u.setPhase k p).phase j) := by
  by_cases hj : j = k
  · subst hj
    rw [show (u.setPhase j p).phase j = p from Function.update_self ..]
    exact hp
  · rw [show (u.setPhase k p).phase j = s.phase j from
      (Function.update_of_ne hj ..).trans (congrFun hphase j)]
    exact (h j).frame (fun e he => (hes e he).trans_ne (Ne.symm hj)) (hlock j hj)

theorem step_history (hist : sys.History st l s.store)
    (hdesc : ∀ j, sys.Describes l s j (s.phase j)) (h : sys.step s x = some (t, es)) :
    sys.History st (l ++ es) t.store ∧ ∀ j, sys.Describes (l ++ es) t j (t.phase j) := by
  obtain ⟨k, hmove⟩ := step_cases h
  have hself := hdesc k
  cases hmove with
  | read w hk hw ht hes =>
    subst ht hes
    rw [hk] at hself
    refine ⟨.read hist hself.1 hw, describes_setPhase [.read k w] k (.loaded w) hdesc rfl ?_
      (fun j _ hj => ⟨hj, rfl⟩) ?_⟩
    · simp [Entry.client]
    · exact ⟨by simp, by simpa using hself.2⟩
  | write w v hk hlock hw ht hes =>
    subst ht hes
    rw [hk] at hself
    refine ⟨(List.append_nil l).symm ▸ hist,
      describes_setPhase [] k (.written w v) hdesc rfl (by simp) (fun j _ hj => ?_) ⟨?_, rfl, hw⟩⟩
    · rw [hlock] at hj
      cases hj
    · rw [List.append_nil]
      exact hself
  | pass hk ht hes =>
    subst ht hes
    rw [hk] at hself
    refine ⟨.commit hist hself.1 hself.2 rfl,
      describes_setPhase [.commit k none] k .committed hdesc rfl ?_ (fun j _ hj => ⟨hj, rfl⟩) ?_⟩
    · simp [Entry.client]
    · exact ⟨none, by simp⟩
  | commit w v hk ht hes =>
    subst ht hes
    rw [hk] at hself
    obtain ⟨hl, hlock, hw⟩ := hself
    refine ⟨.commit hist hl.1 hl.2 hw,
      describes_setPhase [.commit k (some w)] k .committed hdesc rfl ?_ (fun j hjk hj => ?_) ?_⟩
    · simp [Entry.client]
    · exact absurd (Option.some.inj (hj.symm.trans hlock)) hjk
    · exact ⟨some w, by simp⟩
  | refuse lock hk hlock ht hes =>
    subst ht hes
    refine ⟨(List.append_nil l).symm ▸ hist,
      describes_setPhase [] k .refused hdesc rfl (by simp) (fun j hjk hj => ?_) ?_⟩
    · rcases hlock with rfl | hlock
      · exact ⟨hj, rfl⟩
      · exact absurd (Option.some.inj (hj.symm.trans hlock)) hjk
    · rw [List.append_nil]
      exact hself.not_committed hk

/-- **The history of a run.** -/
theorem run_history {xs : List (Label κ)}
    (hrun : run (logged sys.step) (.init st, []) xs = some (s, l)) :
    sys.History st l s.store ∧ ∀ k, sys.Describes l s k (s.phase k) := by
  refine run_inv (P := fun p : State κ σ ω × List (Entry κ ω) =>
    sys.History st p.2 p.1.store ∧ ∀ k, sys.Describes p.2 p.1 k (p.1.phase k)) ?_ hrun
    ⟨.nil, fun k => ⟨by simp, by simp⟩⟩
  rintro ⟨u, m⟩ x ⟨v, n⟩ hstep ⟨hist, hdesc⟩
  obtain ⟨es, hx, rfl⟩ := logged_eq_some.mp hstep
  exact step_history hist hdesc hx

end System

/-! ## Two clients -/

section Two

variable {sys : System κ σ ω} {l : List (Entry κ ω)} {st t u : σ} {i j k : κ} {v w : Option ω}

omit [DecidableEq κ]

/-- The client `k` reads after the client `j` has committed. -/
def ReadsAfter (l : List (Entry κ ω)) (j k : κ) : Prop :=
  ∃ v w, [.commit j v, .read k w].Sublist l

theorem ReadsAfter.committed (h : ReadsAfter l j k) : ∃ v, .commit j v ∈ l := by
  obtain ⟨v, w, h⟩ := h
  exact ⟨v, h.subset (by simp)⟩

theorem readsAfter_commit :
    ReadsAfter (l ++ [.commit i v]) j k ↔ ReadsAfter l j k := by
  constructor
  · rintro ⟨v', w, h⟩
    obtain ⟨l₁, l₂, hl, h₁, h₂⟩ := List.sublist_append_iff.mp h
    rcases List.sublist_singleton.mp h₂ with rfl | rfl
    · rw [List.append_nil] at hl
      exact ⟨v', w, hl ▸ h₁⟩
    · have := congrArg List.getLast? hl
      simp at this
  · rintro ⟨v', w, h⟩
    exact ⟨v', w, h.trans (List.sublist_append_left l _)⟩

theorem readsAfter_read : ReadsAfter (l ++ [.read i w]) j k ↔
    ReadsAfter l j k ∨ i = k ∧ ∃ v, .commit j v ∈ l := by
  constructor
  · rintro ⟨v, w', h⟩
    obtain ⟨l₁, l₂, hl, h₁, h₂⟩ := List.sublist_append_iff.mp h
    rcases List.sublist_singleton.mp h₂ with rfl | rfl
    · rw [List.append_nil] at hl
      exact Or.inl ⟨v, w', hl ▸ h₁⟩
    · obtain ⟨rfl, hlast⟩ := List.append_inj' (show [_] ++ [_] = _ from hl) rfl
      obtain ⟨rfl, -⟩ : k = i ∧ w' = w := by simpa using hlast
      exact Or.inr ⟨rfl, v, h₁.subset (by simp)⟩
  · rintro (⟨v, w', h⟩ | ⟨rfl, v, hv⟩)
    · exact ⟨v, w', h.trans (List.sublist_append_left l _)⟩
    · exact ⟨v, w, (List.singleton_sublist.mpr hv).append (List.Sublist.refl [Entry.read i w])⟩

namespace System.History

theorem of_no_commit (h : sys.History st l t) (hno : ∀ k v, .commit k v ∉ l) :
    t = st ∧ ∀ k w, .read k w ∈ l → sys.prepare k st = some w := by
  induction h with
  | nil => exact ⟨rfl, by simp⟩
  | read h hnew hw ih =>
    obtain ⟨rfl, hprep⟩ := ih fun k v hv => hno k v (List.mem_append_left _ hv)
    refine ⟨rfl, fun k w hk => ?_⟩
    rcases List.mem_append.mp hk with hk | hk
    · exact hprep k w hk
    · obtain ⟨rfl, rfl⟩ : k = _ ∧ w = _ := by simpa using hk
      exact hw
  | @commit l t u i v h hread hnew hw ih =>
    exact absurd (List.mem_append_right l List.mem_cons_self) (hno i v)

theorem read_of_commit (h : sys.History st l t) (hk : .commit k v ∈ l) : .read k v ∈ l := by
  induction h with
  | nil => simp at hk
  | read h hnew hw ih => exact List.mem_append_left _ (ih (by simpa using hk))
  | commit h hread hnew hw ih =>
    rcases List.mem_append.mp hk with hk | hk
    · exact List.mem_append_left _ (ih hk)
    · obtain ⟨rfl, rfl⟩ : k = _ ∧ v = _ := by simpa using hk
      exact List.mem_append_left _ hread

theorem alone (h : sys.History st l t) (htwo : ∀ m, m = j ∨ m = k) (hk : ∀ w, .read k w ∉ l)
    (hj : .commit j v ∈ l) : sys.prepare j st = some v ∧ sys.execute v st = some t := by
  cases h with
  | nil => simp at hj
  | @read l t i w h hnew hw =>
    have hread := h.read_of_commit (k := j) (v := v) (by simpa using hj)
    rcases htwo i with rfl | rfl
    · exact absurd hread (hnew v)
    · exact absurd (List.mem_append_right l List.mem_cons_self) (hk w)
  | @commit l u t i w h hread hnew hw =>
    rcases htwo i with rfl | rfl
    · have hno : ∀ m x, Entry.commit m x ∉ l := by
        intro m x hm
        rcases htwo m with rfl | rfl
        · exact hnew x hm
        · exact hk x (List.mem_append_left _ (h.read_of_commit hm))
      obtain ⟨rfl, hprep⟩ := h.of_no_commit hno
      obtain rfl : v = w := by simpa [hnew] using hj
      exact ⟨hprep _ _ hread, hw⟩
    · exact absurd (List.mem_append_left _ hread) (hk w)

/-- What there is when one of two clients has committed and the other has read. -/
theorem first_commit (h : sys.History st l t) (htwo : ∀ m, m = j ∨ m = k) (hjk : j ≠ k)
    (hj : .commit j v ∈ l) (hread : .read k w ∈ l) (hk : ∀ x, .commit k x ∉ l) :
    sys.prepare j st = some v ∧ sys.execute v st = some t ∧ ¬ ReadsAfter l k j ∧
      (ReadsAfter l j k ∧ sys.prepare k t = some w ∨
        ¬ ReadsAfter l j k ∧ sys.prepare k st = some w) := by
  have hkj : ¬ ReadsAfter l k j := fun hafter => by
    obtain ⟨x, hx⟩ := hafter.committed
    exact hk x hx
  cases h with
  | nil => simp at hj
  | @read l t i x h hnew hw =>
    have hj' : Entry.commit j v ∈ l := by simpa using hj
    rcases htwo i with rfl | rfl
    · exact absurd (h.read_of_commit hj') (hnew v)
    · obtain rfl : w = x := by simpa [hnew] using hread
      obtain ⟨hprep, hexec⟩ := h.alone htwo hnew hj'
      exact ⟨hprep, hexec, hkj, Or.inl ⟨readsAfter_read.mpr (Or.inr ⟨rfl, v, hj'⟩), hw⟩⟩
  | @commit l u t i x h hread' hnew hw =>
    rcases htwo i with rfl | rfl
    · have hno : ∀ m x, Entry.commit m x ∉ l := by
        intro m y hm
        rcases htwo m with rfl | rfl
        · exact hnew y hm
        · exact hk y (List.mem_append_left _ hm)
      obtain ⟨rfl, hprep⟩ := h.of_no_commit hno
      obtain rfl : v = x := by simpa [hnew] using hj
      refine ⟨hprep _ _ hread', hw, hkj, Or.inr ⟨?_, hprep k w (by simpa using hread)⟩⟩
      rw [readsAfter_commit]
      rintro ⟨y, z, hsub⟩
      exact hno _ _ (hsub.subset List.mem_cons_self)
    · exact absurd (List.mem_append_right l List.mem_cons_self) (hk x)

/-- **The outcome of two transactions.** Of two clients that have committed, one was first, with
what it had prepared on the initial store. The other has prepared its write on the outcome of
that, if it has read after the commit, and else on the initial store as well. -/
theorem outcome_of_two {a b : κ} (h : sys.History st l t) (htwo : ∀ m, m = a ∨ m = b)
    (hab : a ≠ b) (ha : ∃ w, .commit a w ∈ l) (hb : ∃ w, .commit b w ∈ l) :
    ∃ j k v w u, (j = a ∧ k = b ∨ j = b ∧ k = a) ∧
      sys.prepare j st = some v ∧ sys.execute v st = some u ∧ sys.execute w u = some t ∧
      ¬ ReadsAfter l k j ∧
      (ReadsAfter l j k ∧ sys.prepare k u = some w ∨
        ¬ ReadsAfter l j k ∧ sys.prepare k st = some w) := by
  obtain ⟨x, ha⟩ := ha
  obtain ⟨y, hb⟩ := hb
  cases h with
  | nil => simp at ha
  | @read l t i w h hnew hw =>
    rcases htwo i with rfl | rfl
    · exact absurd (h.read_of_commit (by simpa using ha)) (hnew x)
    · exact absurd (h.read_of_commit (by simpa using hb)) (hnew y)
  | @commit l u t i w h hread hnew hw =>
    simp only [readsAfter_commit]
    rcases htwo i with rfl | rfl
    · have hb' : Entry.commit b y ∈ l := by simpa [hab.symm] using hb
      obtain ⟨hprep, hexec, hnot, hafter⟩ :=
        h.first_commit (fun m => (htwo m).symm) hab.symm hb' hread hnew
      exact ⟨b, i, y, w, u, Or.inr ⟨rfl, rfl⟩, hprep, hexec, hw, hnot, hafter⟩
    · have ha' : Entry.commit a x ∈ l := by simpa [hab] using ha
      obtain ⟨hprep, hexec, hnot, hafter⟩ := h.first_commit htwo hab ha' hread hnew
      exact ⟨a, i, x, w, u, Or.inl ⟨rfl, rfl⟩, hprep, hexec, hw, hnot, hafter⟩

end System.History

end Two

end Transactions
