import Mathlib.Data.List.Infix
import Mathlib.Data.List.Nodup
import Mathlib.Data.List.Perm.Basic
import ChaosLoris.Lib.Runs

/-!
# Linearizable runs

Clients begin operations on a shared state, and each is finished some time later, when others have
been finished in between. An operation that is acknowledged has taken effect in one of two ways: it
has done, on the state in which it is finished, what a sequential specification says, or it has
changed nothing, as the specification says of the state in which it began. Between the operations
the state may change on its own, in the background.

`exists_linearization`: then the acknowledged operations can be put in one order in which, alone
and one after another, they make the same of the state and are given the same answers. The order
is that of time. At every moment of the run it can be cut in two, such that all that has been
acknowledged is before the cut, nothing that has not begun is, and the state is what the part before
the cut makes of the first state.

The proof keeps a list of entries, with a mark where an operation has begun. An operation that
changes nothing takes the place of its mark.
-/

namespace Linearizable

open Runs

variable {σ ω ρ : Type*}

/-- An operation that has been acknowledged. The operations are numbered as they begin. -/
structure Call (ω ρ : Type*) where
  number : ℕ
  operation : ω
  answer : ρ

/-- What there is to be seen of a system: its state, how many operations have begun, and those in
flight, with their numbers and the states in which they began. -/
structure View (σ ω : Type*) where
  state : σ
  begun : ℕ
  inFlight : List (ℕ × ω × σ)

/-- A step, with the operations that it acknowledges. -/
inductive View.Step (spec : σ → ω → σ → ρ → Prop) (background : σ → σ → Prop) (v : View σ ω) :
    List (Call ω ρ) → View σ ω → Prop
  | begin (o : ω) :
      Step spec background v [] ⟨v.state, v.begun + 1, v.inFlight ++ [(v.begun, o, v.state)]⟩
  /-- An operation has its effect when it is finished. -/
  | effect {n : ℕ} {o : ω} {u t : σ} {a : ρ} {rest : List (ℕ × ω × σ)}
      (hrest : v.inFlight.Perm ((n, o, u) :: rest)) (h : spec v.state o t a) :
      Step spec background v [⟨n, o, a⟩] ⟨t, v.begun, rest⟩
  /-- An operation is finished that had nothing to change when it began. -/
  | noEffect {n : ℕ} {o : ω} {u : σ} {a : ρ} {rest : List (ℕ × ω × σ)}
      (hrest : v.inFlight.Perm ((n, o, u) :: rest)) (h : spec u o u a) :
      Step spec background v [⟨n, o, a⟩] ⟨v.state, v.begun, rest⟩
  /-- Something else happens. Operations may be given up. -/
  | background {t : σ} {rest : List (ℕ × ω × σ)} (hrest : rest.Sublist v.inFlight)
      (h : background v.state t) :
      Step spec background v [] ⟨t, v.begun, rest⟩

/-- The calls one after another, and the background between them, lead from one state to another. -/
inductive Replays (spec : σ → ω → σ → ρ → Prop) (background : σ → σ → Prop) :
    σ → List (Call ω ρ) → σ → Prop
  | nil {s : σ} : Replays spec background s [] s
  | background {s u t : σ} {es : List (Call ω ρ)} (h : background s u)
      (hrest : Replays spec background u es t) : Replays spec background s es t
  | call {s u t : σ} {c : Call ω ρ} {es : List (Call ω ρ)}
      (h : spec s c.operation u c.answer) (hrest : Replays spec background u es t) :
      Replays spec background s (c :: es) t

/-! ## Entries -/

/-- An operation has begun in the state `u`, or it has taken effect. -/
inductive Entry (σ ω ρ : Type*)
  | mark (n : ℕ) (o : ω) (u : σ)
  | call (c : Call ω ρ)

def Entry.number : Entry σ ω ρ → ℕ
  | .mark n _ _ => n
  | .call c => c.number

def Entry.mark? : Entry σ ω ρ → Option (ℕ × ω × σ)
  | .mark n o u => some (n, o, u)
  | .call _ => none

def Entry.call? : Entry σ ω ρ → Option (Call ω ρ)
  | .mark _ _ _ => none
  | .call c => some c

/-- The call takes the place of its mark. -/
def Entry.settle (c : Call ω ρ) : Entry σ ω ρ → Entry σ ω ρ
  | .mark n o u => if n = c.number then .call c else .mark n o u
  | .call d => .call d

def marks (es : List (Entry σ ω ρ)) : List (ℕ × ω × σ) := es.filterMap Entry.mark?

def calls (es : List (Entry σ ω ρ)) : List (Call ω ρ) := es.filterMap Entry.call?

section Entries

variable {n : ℕ} {o : ω} {u : σ} {c : Call ω ρ} {e : Entry σ ω ρ} {es : List (Entry σ ω ρ)}

@[simp] theorem marks_append (es es' : List (Entry σ ω ρ)) :
    marks (es ++ es') = marks es ++ marks es' := List.filterMap_append

@[simp] theorem calls_append (es es' : List (Entry σ ω ρ)) :
    calls (es ++ es') = calls es ++ calls es' := List.filterMap_append

@[simp] theorem marks_nil : marks ([] : List (Entry σ ω ρ)) = [] := rfl

@[simp] theorem calls_nil : calls ([] : List (Entry σ ω ρ)) = [] := rfl

@[simp] theorem marks_cons_mark : marks (.mark n o u :: es) = (n, o, u) :: marks es := rfl

@[simp] theorem marks_cons_call : marks (.call c :: es) = marks es := rfl

@[simp] theorem calls_cons_mark : calls (.mark n o u :: es) = calls es := rfl

@[simp] theorem calls_cons_call : calls (.call c :: es) = c :: calls es := rfl

theorem mem_marks : (n, o, u) ∈ marks es ↔ .mark n o u ∈ es := by
  refine List.mem_filterMap.trans ⟨?_, fun h => ⟨_, h, rfl⟩⟩
  rintro ⟨_ | _, h, heq⟩
  · obtain ⟨rfl, rfl, rfl⟩ := Option.some.inj heq
    exact h
  · cases heq

theorem mem_calls : c ∈ calls es ↔ .call c ∈ es := by
  refine List.mem_filterMap.trans ⟨?_, fun h => ⟨_, h, rfl⟩⟩
  rintro ⟨_ | _, h, heq⟩
  · cases heq
  · obtain rfl := Option.some.inj heq
    exact h

@[simp] theorem settle_mark : (Entry.mark n o u : Entry σ ω ρ).settle c =
    if n = c.number then .call c else .mark n o u := rfl

@[simp] theorem settle_call {d : Call ω ρ} : (Entry.call d : Entry σ ω ρ).settle c = .call d := rfl

theorem number_settle (c : Call ω ρ) (e : Entry σ ω ρ) : (e.settle c).number = e.number := by
  cases e with
  | mark n o u =>
    rw [settle_mark]
    split_ifs with h
    · exact h.symm
    · rfl
  | call d => rfl

theorem marks_settle (c : Call ω ρ) (es : List (Entry σ ω ρ)) :
    marks (es.map (Entry.settle c)) = (marks es).filter fun p => p.1 ≠ c.number := by
  induction es with
  | nil => rfl
  | cons e es ih =>
    cases e with
    | mark n o u =>
      rw [List.map_cons, settle_mark]
      split_ifs with h
      · simp [h, ih]
      · simp [h, ih]
    | call d => simpa using ih

theorem settle_of_notMem (h : ∀ p ∈ marks es, p.1 ≠ c.number) : es.map (Entry.settle c) = es := by
  refine (List.map_congr_left fun e he => ?_).trans (List.map_id es)
  cases e with
  | mark n o u => exact if_neg (h _ (mem_marks.mpr he))
  | call d => rfl

theorem calls_settle (hnodup : ((marks es).map Prod.fst).Nodup)
    (hmem : (c.number, o, u) ∈ marks es) :
    (calls (es.map (Entry.settle c))).Perm (c :: calls es) := by
  induction es with
  | nil => cases hmem
  | cons e es ih =>
    cases e with
    | mark n o' u' =>
      rw [marks_cons_mark, List.map_cons, List.nodup_cons] at hnodup
      rw [List.map_cons, settle_mark]
      split_ifs with h
      · have hrest : ∀ p ∈ marks es, p.1 ≠ c.number := fun p hp hpc =>
          hnodup.1 (List.mem_map.mpr ⟨p, hp, hpc.trans h.symm⟩)
        rw [calls_cons_call, calls_cons_mark, settle_of_notMem hrest]
      · rw [calls_cons_mark, calls_cons_mark]
        refine ih hnodup.2 ((List.mem_cons.mp hmem).resolve_left fun heq => ?_)
        exact h (Prod.mk.inj heq).1.symm
    | call d =>
      rw [List.map_cons, settle_call, calls_cons_call, calls_cons_call]
      exact ((ih hnodup hmem).cons d).trans (.swap c d _)

end Entries

/-! ## Histories with marks -/

variable {spec : σ → ω → σ → ρ → Prop} {background : σ → σ → Prop}

variable (spec background) in
/-- The entries lead from one state to another. A mark stands in the state it names. -/
inductive Traces : σ → List (Entry σ ω ρ) → σ → Prop
  | nil {s : σ} : Traces s [] s
  | background {s u t : σ} {es : List (Entry σ ω ρ)} (h : background s u) (hrest : Traces u es t) :
      Traces s es t
  | mark {s t : σ} {n : ℕ} {o : ω} {es : List (Entry σ ω ρ)} (hrest : Traces s es t) :
      Traces s (.mark n o s :: es) t
  | call {s u t : σ} {c : Call ω ρ} {es : List (Entry σ ω ρ)}
      (h : spec s c.operation u c.answer) (hrest : Traces u es t) : Traces s (.call c :: es) t

namespace Traces

variable {s u t : σ} {es es' : List (Entry σ ω ρ)} {c : Call ω ρ}

theorem append (h : Traces spec background s es u) (h' : Traces spec background u es' t) :
    Traces spec background s (es ++ es') t := by
  induction h with
  | nil => exact h'
  | background h _ ih => exact .background h (ih h')
  | mark _ ih => exact .mark (ih h')
  | call h _ ih => exact .call h (ih h')

theorem replays (h : Traces spec background s es t) :
    Replays spec background s (calls es) t := by
  induction h with
  | nil => exact .nil
  | background h _ ih => exact .background h ih
  | mark _ ih => exact ih
  | call h _ ih => exact .call h ih

/-- A call without effect can take the place of its mark. -/
theorem settle (h : Traces spec background s es t)
    (hc : ∀ p ∈ marks es, p.1 = c.number → spec p.2.2 c.operation p.2.2 c.answer) :
    Traces spec background s (es.map (Entry.settle c)) t := by
  induction h with
  | nil => exact .nil
  | background h _ ih => exact .background h (ih hc)
  | @mark s t n o es _ ih =>
    have hrest := ih fun p hp => hc p (List.mem_cons_of_mem _ hp)
    rw [List.map_cons, settle_mark]
    split_ifs with hn
    · exact .call (hc (n, o, s) List.mem_cons_self hn) hrest
    · exact .mark hrest
  | call h _ ih => exact .call h (ih hc)

end Traces

variable (spec background) in
/-- The entries account for a view and for all that has been acknowledged. -/
structure Explains (s₀ : σ) (v : View σ ω) (l : List (Call ω ρ)) (es : List (Entry σ ω ρ)) :
    Prop where
  traces : Traces spec background s₀ es v.state
  calls : (calls es).Perm l
  marked : ∀ p ∈ v.inFlight, p ∈ marks es
  nodup_marks : ((marks es).map Prod.fst).Nodup
  nodup_inFlight : (v.inFlight.map Prod.fst).Nodup
  number_lt : ∀ e ∈ es, e.number < v.begun

variable (spec background) in
/-- The entries can be cut where the view `u` was. -/
def Cut (s₀ : σ) (u : View σ ω) (m : List (Call ω ρ)) (t : σ) (es : List (Entry σ ω ρ)) : Prop :=
  ∃ es₁ es₂, es = es₁ ++ es₂ ∧ Traces spec background s₀ es₁ u.state ∧
    Traces spec background u.state es₂ t ∧ (∀ c ∈ m, c ∈ Linearizable.calls es₁) ∧
    ∀ e ∈ es₁, e.number < u.begun

section Step

variable {s₀ t x : σ} {u v w : View σ ω} {l l' m : List (Call ω ρ)} {es es' : List (Entry σ ω ρ)}
  {c : Call ω ρ} {n : ℕ} {o : ω} {a : ρ} {rest : List (ℕ × ω × σ)}

theorem Explains.cut (h : Explains spec background s₀ v l es) :
    Cut spec background s₀ v l v.state es :=
  ⟨es, [], (List.append_nil es).symm, h.traces, .nil, fun _ hc => h.calls.mem_iff.mpr hc,
    h.number_lt⟩

theorem Cut.append (h : Cut spec background s₀ u m v.state es)
    (h' : Traces spec background v.state es' t) :
    Cut spec background s₀ u m t (es ++ es') := by
  obtain ⟨es₁, es₂, rfl, h₁, h₂, hcalls, hlt⟩ := h
  exact ⟨es₁, es₂ ++ es', List.append_assoc .., h₁, h₂.append h', hcalls, hlt⟩

theorem Cut.settle (h : Cut spec background s₀ u m t es)
    (hc : ∀ p ∈ marks es, p.1 = c.number → spec p.2.2 c.operation p.2.2 c.answer) :
    Cut spec background s₀ u m t (es.map (Entry.settle c)) := by
  obtain ⟨es₁, es₂, rfl, h₁, h₂, hcalls, hlt⟩ := h
  rw [marks_append] at hc
  refine ⟨es₁.map (Entry.settle c), es₂.map (Entry.settle c), List.map_append ..,
    h₁.settle fun p hp => hc p (List.mem_append_left _ hp),
    h₂.settle fun p hp => hc p (List.mem_append_right _ hp), fun d hd => ?_, fun e he => ?_⟩
  · exact mem_calls.mpr (List.mem_map.mpr ⟨_, mem_calls.mp (hcalls d hd), rfl⟩)
  · obtain ⟨e', he', rfl⟩ := List.mem_map.mp he
    rw [number_settle]
    exact hlt e' he'

theorem Explains.mark (h : Explains spec background s₀ v l es) (o : ω) :
    Explains spec background s₀ ⟨v.state, v.begun + 1, v.inFlight ++ [(v.begun, o, v.state)]⟩ l
      (es ++ [.mark v.begun o v.state]) := by
  have hfresh : ∀ p ∈ marks es, p.1 ≠ v.begun := by
    rintro ⟨n, o, u⟩ hp
    exact (h.number_lt _ (mem_marks.mp hp)).ne
  refine ⟨h.traces.append (.mark .nil), ?_, ?_, ?_, ?_, ?_⟩
  · simpa using h.calls
  · intro p hp
    rw [marks_append]
    rcases List.mem_append.mp hp with hp | hp
    · exact List.mem_append_left _ (h.marked p hp)
    · exact List.mem_append_right _ hp
  · rw [marks_append, List.map_append, List.nodup_append]
    refine ⟨h.nodup_marks, List.nodup_singleton _, ?_⟩
    rintro n hn - (_ | ⟨_, ⟨⟩⟩)
    obtain ⟨p, hp, rfl⟩ := List.mem_map.mp hn
    exact hfresh p hp
  · rw [List.map_append, List.nodup_append]
    refine ⟨h.nodup_inFlight, List.nodup_singleton _, ?_⟩
    rintro n hn - (_ | ⟨_, ⟨⟩⟩)
    obtain ⟨p, hp, rfl⟩ := List.mem_map.mp hn
    exact hfresh p (h.marked p hp)
  · intro e he
    rcases List.mem_append.mp he with he | he
    · exact (h.number_lt e he).trans (Nat.lt_succ_self _)
    · rw [List.mem_singleton.mp he]
      exact Nat.lt_succ_self _

/-- An operation that has an effect goes to the end; its mark stays. -/
theorem Explains.call (h : Explains spec background s₀ v l es)
    (hrest : v.inFlight.Perm ((n, o, x) :: rest)) (hspec : spec v.state o t a) :
    Explains spec background s₀ ⟨t, v.begun, rest⟩ (l ++ [⟨n, o, a⟩])
      (es ++ [.call ⟨n, o, a⟩]) := by
  have hin := h.marked _ (hrest.mem_iff.mpr List.mem_cons_self)
  have hnodup := (hrest.map Prod.fst).nodup_iff.mp h.nodup_inFlight
  refine ⟨h.traces.append (.call hspec .nil), ?_, ?_, ?_, hnodup.of_cons, ?_⟩
  · rw [calls_append]
    exact h.calls.append_right _
  · intro p hp
    rw [marks_append]
    exact List.mem_append_left _ (h.marked p (hrest.mem_iff.mpr (List.mem_cons_of_mem _ hp)))
  · simpa using h.nodup_marks
  · intro e he
    rcases List.mem_append.mp he with he | he
    · exact h.number_lt e he
    · rw [List.mem_singleton.mp he]
      exact h.number_lt (.mark n o x) (mem_marks.mp hin)

/-- What is answered as in the state `x`, in which the operation began, holds at its mark. -/
theorem Explains.spec_mark (h : Explains spec background s₀ v l es)
    (hrest : v.inFlight.Perm ((n, o, x) :: rest)) (hspec : spec x o x a) :
    ∀ p ∈ marks es, p.1 = n → spec p.2.2 o p.2.2 a := by
  intro p hp hn
  have hin := h.marked _ (hrest.mem_iff.mpr List.mem_cons_self)
  obtain rfl := List.inj_on_of_nodup_map h.nodup_marks hp hin hn
  exact hspec

/-- An operation without effect takes the place of its mark. -/
theorem Explains.settle (h : Explains spec background s₀ v l es)
    (hrest : v.inFlight.Perm ((n, o, x) :: rest)) (hspec : spec x o x a) :
    Explains spec background s₀ ⟨v.state, v.begun, rest⟩ (l ++ [⟨n, o, a⟩])
      (es.map (Entry.settle ⟨n, o, a⟩)) := by
  have hin := h.marked _ (hrest.mem_iff.mpr List.mem_cons_self)
  have hnodup := (hrest.map Prod.fst).nodup_iff.mp h.nodup_inFlight
  refine ⟨h.traces.settle (h.spec_mark hrest hspec), ?_, ?_, ?_, hnodup.of_cons, ?_⟩
  · refine (calls_settle h.nodup_marks hin).trans ?_
    exact ((h.calls.cons _).trans (List.perm_append_singleton _ l).symm)
  · intro p hp
    rw [marks_settle, List.mem_filter]
    refine ⟨h.marked p (hrest.mem_iff.mpr (List.mem_cons_of_mem _ hp)), decide_eq_true ?_⟩
    exact fun hn => (List.nodup_cons.mp hnodup).1 (List.mem_map.mpr ⟨p, hp, hn⟩)
  · rw [marks_settle]
    exact h.nodup_marks.sublist (List.filter_sublist.map _)
  · intro e he
    obtain ⟨e', he', rfl⟩ := List.mem_map.mp he
    rw [number_settle]
    exact h.number_lt e' he'

/-- The background leaves no entry. -/
theorem Explains.move (h : Explains spec background s₀ v l es)
    (hrest : rest.Sublist v.inFlight) (hmove : background v.state t) :
    Explains spec background s₀ ⟨t, v.begun, rest⟩ l es := by
  refine ⟨?_, h.calls, fun p hp => h.marked p (hrest.subset hp), h.nodup_marks,
    h.nodup_inFlight.sublist (hrest.map _), h.number_lt⟩
  simpa using h.traces.append (.background hmove .nil : Traces spec background v.state [] t)

/-- **A step is accounted for**, and where the entries could be cut before they still can be. -/
theorem Explains.step (h : Explains spec background s₀ v l es)
    (hstep : v.Step spec background l' w) :
    ∃ es', Explains spec background s₀ w (l ++ l') es' ∧
      ∀ u m, Cut spec background s₀ u m v.state es → Cut spec background s₀ u m w.state es' := by
  cases hstep with
  | begin o =>
    rw [List.append_nil]
    exact ⟨_, h.mark o, fun u m hcut => hcut.append (.mark .nil)⟩
  | effect hrest hspec =>
    exact ⟨_, h.call hrest hspec, fun u m hcut => hcut.append (.call hspec .nil)⟩
  | noEffect hrest hspec =>
    exact ⟨_, h.settle hrest hspec, fun u m hcut => hcut.settle (h.spec_mark hrest hspec)⟩
  | background hrest hmove =>
    rw [List.append_nil]
    refine ⟨es, h.move hrest hmove, fun u m hcut => ?_⟩
    simpa using hcut.append (.background hmove .nil : Traces spec background v.state [] _)

end Step

/-! ## Runs -/

/-- **Linearizability.** If every step of a run is one of those above, the acknowledged calls can
be put in one order that leads to the state, and that can be cut in two at every moment of the
run. -/
theorem exists_linearization {τ ι : Type*} {step : τ → ι → Option (τ × List (Call ω ρ))}
    {view : τ → View σ ω} {s t : τ} {xs : List ι} {l : List (Call ω ρ)}
    (hs : (view s).inFlight = [])
    (hsteps : ∀ ys x zs u m v es, xs = ys ++ x :: zs → run (logged step) (s, []) ys = some (u, m) →
      step u x = some (v, es) → (view u).Step spec background es (view v))
    (hrun : run (logged step) (s, []) xs = some (t, l)) :
    ∃ cs : List (Call ω ρ), cs.Perm l ∧ Replays spec background (view s).state cs (view t).state ∧
      ∀ ys u m, ys <+: xs → run (logged step) (s, []) ys = some (u, m) →
        ∃ cs₁ cs₂, cs = cs₁ ++ cs₂ ∧ Replays spec background (view s).state cs₁ (view u).state ∧
          Replays spec background (view u).state cs₂ (view t).state ∧
          (∀ c ∈ m, c ∈ cs₁) ∧ ∀ c ∈ cs₁, c.number < (view u).begun := by
  have hexplains : ∃ es, Explains spec background (view s).state (view t) l es ∧
      ∀ ys u m, ys <+: xs → run (logged step) (s, []) ys = some (u, m) →
        Cut spec background (view s).state (view u) m (view t).state es := by
    induction xs using List.reverseRecOn generalizing t l with
    | nil =>
      obtain ⟨rfl, rfl⟩ : s = t ∧ [] = l := by simpa using hrun
      have h : Explains spec background (view s).state (view s) ([] : List (Call ω ρ)) [] :=
        ⟨.nil, .refl _, by simp [hs], List.nodup_nil, by simp [hs], by simp⟩
      refine ⟨[], h, fun ys u m hys hu => ?_⟩
      obtain rfl := List.prefix_nil.mp hys
      obtain ⟨rfl, rfl⟩ : s = u ∧ [] = m := by simpa using hu
      exact h.cut
    | append_singleton xs x ih =>
      obtain ⟨u, m, es, hpre, hx, rfl⟩ := run_logged_snoc.mp hrun
      obtain ⟨es', h, hcut⟩ := ih (fun ys y zs v m w fs heq => hsteps ys y (zs ++ [x]) v m w fs
        (by rw [heq, List.append_assoc, List.cons_append])) hpre
      obtain ⟨es'', h', hcut'⟩ := h.step (hsteps xs x [] u m t es rfl hpre hx)
      refine ⟨es'', h', fun ys v n hys hv => ?_⟩
      rcases List.prefix_concat_iff.mp hys with rfl | hys
      · obtain ⟨rfl, rfl⟩ : t = v ∧ m ++ es = n := by
          simpa using Option.some.inj (hrun.symm.trans hv)
        exact h'.cut
      · exact hcut' _ _ (hcut ys v n hys hv)
  obtain ⟨es, h, hcut⟩ := hexplains
  refine ⟨calls es, h.calls, h.traces.replays, fun ys u m hys hu => ?_⟩
  obtain ⟨es₁, es₂, rfl, h₁, h₂, hcalls, hlt⟩ := hcut ys u m hys hu
  refine ⟨calls es₁, calls es₂, calls_append .., h₁.replays, h₂.replays, hcalls, fun c hc => ?_⟩
  exact hlt _ (mem_calls.mp hc)

end Linearizable
