import Mathlib.Data.List.Basic
import Mathlib.Tactic.Common

/-!
# Optional fields in a fixed order

A text is a sequence of fields, each a value and the symbol of a unit behind it. The units have an
order, and any field may be missing. The reader asks for one unit after another and goes on from
the same place if a field is not there.

`readFields_iff`: what is read to the end is what is written, if no unit is asked for twice.
-/

namespace Fields

/-- How a value is read at the head of a text, and which symbols stand for which unit. -/
structure Reader (α β υ : Type*) where
  read : List α → Option (β × List α)
  isUnit : υ → α → Bool
  /-- The texts of a value. -/
  Writes : β → List α → Prop
  read_nil : read [] = none
  writes_of_read : ∀ text b rest, read text = some (b, rest) → ∃ t, Writes b t ∧ text = t ++ rest
  /-- A value ends where the symbol of a unit is. -/
  read_of_writes : ∀ b t u c rest, Writes b t → isUnit u c = true →
    read (t ++ c :: rest) = some (b, c :: rest)
  unit_unique : ∀ u u' c, isUnit u c = true → isUnit u' c = true → u = u'

namespace Reader

variable {α β υ : Type*} (R : Reader α β υ)

/-- The field of the unit, if it is at the head of the text, and the rest. -/
def readField (u : υ) (text : List α) : Option β × List α :=
  match R.read text with
  | some (b, c :: rest) => if R.isUnit u c then (some b, rest) else (none, text)
  | _ => (none, text)

def readFields : List υ → List α → List (Option β) × List α
  | [], text => ([], text)
  | u :: us, text =>
    let field := R.readField u text
    let fields := readFields us field.2
    (field.1 :: fields.1, fields.2)

/-- The text of some fields. -/
inductive Written : List υ → List (Option β) → List α → Prop
  | nil : Written [] [] []
  | absent {u : υ} {us : List υ} {bs : List (Option β)} {t : List α} (h : Written us bs t) :
      Written (u :: us) (none :: bs) t
  | present {u : υ} {us : List υ} {b : β} {bs : List (Option β)} {t t' : List α} {c : α}
      (hb : R.Writes b t) (hc : R.isUnit u c = true) (h : Written us bs t') :
      Written (u :: us) (some b :: bs) (t ++ c :: t')

section Facts

variable {R} {u : υ} {us : List υ} {o : Option β} {bs : List (Option β)} {text rest t : List α}

theorem readField_cases (h : R.readField u text = (o, rest)) :
    (o = none ∧ rest = text) ∨
      ∃ b t c, o = some b ∧ R.Writes b t ∧ R.isUnit u c = true ∧ t ++ c :: rest = text := by
  unfold readField at h
  split at h
  next b c rest' hread =>
    split_ifs at h with hc
    · obtain ⟨rfl, rfl⟩ := Prod.mk.inj h
      obtain ⟨t, hb, htext⟩ := R.writes_of_read _ _ _ hread
      exact Or.inr ⟨b, t, c, rfl, hb, hc, htext.symm⟩
    · obtain ⟨rfl, rfl⟩ := Prod.mk.inj h
      exact Or.inl ⟨rfl, rfl⟩
  next =>
    obtain ⟨rfl, rfl⟩ := Prod.mk.inj h
    exact Or.inl ⟨rfl, rfl⟩

theorem readFields_cons : R.readFields (u :: us) text =
    ((R.readField u text).1 :: (R.readFields us (R.readField u text).2).1,
      (R.readFields us (R.readField u text).2).2) := rfl

theorem written_of_readFields (h : R.readFields us text = (bs, rest)) :
    ∃ t, R.Written us bs t ∧ text = t ++ rest := by
  induction us generalizing text bs with
  | nil =>
    obtain ⟨rfl, rfl⟩ := Prod.mk.inj h
    exact ⟨[], .nil, rfl⟩
  | cons u us ih =>
    obtain ⟨o, text', hfield⟩ : ∃ o text', R.readField u text = (o, text') := ⟨_, _, rfl⟩
    rw [readFields_cons, hfield] at h
    obtain ⟨rfl, rfl⟩ := Prod.mk.inj h
    obtain ⟨t, ht, hrest⟩ := ih rfl
    obtain ⟨rfl, rfl⟩ | ⟨b, t₁, c, rfl, hb, hc, rfl⟩ := readField_cases hfield
    · exact ⟨t, .absent ht, hrest⟩
    · refine ⟨t₁ ++ c :: t, .present hb hc ht, ?_⟩
      rw [List.append_assoc, List.cons_append, ← hrest]

theorem readField_of_writes {b : β} {c : α} (hb : R.Writes b t) (hc : R.isUnit u c = true) :
    R.readField u (t ++ c :: rest) = (some b, rest) := by
  unfold readField
  simp only [R.read_of_writes b t u c rest hb hc, hc, if_true]

theorem readField_of_notMem (h : R.Written us bs text) (hu : u ∉ us) :
    R.readField u text = (none, text) := by
  induction h with
  | nil =>
    unfold readField
    rw [R.read_nil]
  | absent h ih => exact ih fun hmem => hu (List.mem_cons_of_mem _ hmem)
  | @present u' us b bs t t' c hb hc h ih =>
    have hne : ¬ R.isUnit u c = true := by
      intro hsame
      obtain rfl := R.unit_unique _ _ _ hsame hc
      exact hu List.mem_cons_self
    unfold readField
    simp only [R.read_of_writes b t u' c t' hb hc, if_neg hne]

theorem readFields_of_written (hus : us.Nodup) (h : R.Written us bs text) :
    R.readFields us text = (bs, []) := by
  induction h with
  | nil => rfl
  | absent h ih =>
    obtain ⟨hu, hus⟩ := List.nodup_cons.mp hus
    rw [readFields_cons, readField_of_notMem h hu, ih hus]
  | present hb hc h ih =>
    rw [readFields_cons, readField_of_writes hb hc, ih (List.nodup_cons.mp hus).2]

/-- **What is read to the end is what is written.** -/
theorem readFields_iff (hus : us.Nodup) :
    R.readFields us text = (bs, []) ↔ R.Written us bs text := by
  constructor
  · intro h
    obtain ⟨t, ht, rfl⟩ := written_of_readFields h
    rwa [List.append_nil]
  · exact readFields_of_written hus

end Facts

end Reader

end Fields
