import ChaosLoris.EventReaper
import ChaosLoris.Lib.Fields
import ChaosLoris.References

/-!
# The history of the reaper

`loris.reaper.history` is a text. The constructor of `EventReaper` parses it once, as a
`java.time.Period`, and each run takes the period from the present. `parse_eq_some` says which
texts are accepted: a sign, `P`, and years, months, weeks and days, each of them optional and
with a sign of its own. Weeks and days are added up, years and months stay apart.

An instant has no years and months, so the limit can be computed only if these come to nothing
(`history_reapable_iff`).
-/

namespace ChaosLoris

open Fields

/-! ## Numbers -/

/-- `[-+]?`. -/
inductive Sign
  | none
  | plus
  | minus
  deriving DecidableEq, Repr

def Sign.text : Sign → List Char
  | none => []
  | plus => ['+']
  | minus => ['-']

def Sign.factor : Sign → ℤ
  | none => 1
  | plus => 1
  | minus => -1

def readSign : List Char → Sign × List Char
  | '+' :: text => (.plus, text)
  | '-' :: text => (.minus, text)
  | text => (.none, text)

/-- `[-+]?[0-9]+`. -/
structure Number where
  sign : Sign
  digits : List Char
  deriving DecidableEq, Repr

def Number.value (n : Number) : ℤ := n.sign.factor * digitsValue n.digits

def readNumber (text : List Char) : Option (Number × List Char) :=
  match (readSign text).2.takeWhile isDigit with
  | [] => none
  | d :: ds => some (⟨(readSign text).1, d :: ds⟩, (readSign text).2.dropWhile isDigit)

inductive PeriodUnit
  | years
  | months
  | weeks
  | days
  deriving DecidableEq, Repr

/-- The letter of a unit, in either case. -/
def PeriodUnit.isLetter : PeriodUnit → Char → Bool
  | years, c => c = 'Y' || c = 'y'
  | months, c => c = 'M' || c = 'm'
  | weeks, c => c = 'W' || c = 'w'
  | days, c => c = 'D' || c = 'd'

section Numbers

variable {text rest ds : List Char} {sign : Sign} {n : Number} {c d : Char}

theorem readSign_spec (text : List Char) :
    text = (readSign text).1.text ++ (readSign text).2 := by
  unfold readSign
  split <;> rfl

theorem readSign_append (hplus : c ≠ '+') (hminus : c ≠ '-') :
    readSign (sign.text ++ c :: rest) = (sign, c :: rest) := by
  cases sign with
  | plus => rfl
  | minus => rfl
  | none =>
    show readSign (c :: rest) = _
    unfold readSign
    split
    next h => exact absurd (List.cons.inj h).1 hplus
    next h => exact absurd (List.cons.inj h).1 hminus
    next => rfl

theorem not_isDigit_of_isLetter {u : PeriodUnit} (h : u.isLetter c = true) : isDigit c = false := by
  cases u <;> simp only [PeriodUnit.isLetter, Bool.or_eq_true, decide_eq_true_eq] at h <;>
    rcases h with rfl | rfl <;> rfl

theorem isLetter_unique {u u' : PeriodUnit} (h : u.isLetter c = true) (h' : u'.isLetter c = true) :
    u = u' := by
  cases u <;> simp only [PeriodUnit.isLetter, Bool.or_eq_true, decide_eq_true_eq] at h <;>
    rcases h with rfl | rfl <;> cases u' <;> first | rfl | exact absurd h' (by decide)

/-- The number that a text is. -/
structure Number.Writes (n : Number) (text : List Char) : Prop where
  text_eq : text = n.sign.text ++ n.digits
  nonempty : n.digits ≠ []
  digits : ∀ d ∈ n.digits, isDigit d = true

theorem writes_of_readNumber (h : readNumber text = some (n, rest)) :
    ∃ t, n.Writes t ∧ text = t ++ rest := by
  unfold readNumber at h
  split at h
  next => cases h
  next d ds hdigits =>
    obtain ⟨rfl, rfl⟩ := Prod.mk.inj (Option.some.inj h)
    refine ⟨_, ⟨rfl, by simp, fun e he => ?_⟩, ?_⟩
    · rw [← hdigits] at he
      exact List.mem_takeWhile_imp he
    · rw [← hdigits, List.append_assoc, List.takeWhile_append_dropWhile]
      exact readSign_spec text

theorem readNumber_of_writes {t : List Char} (h : n.Writes t) (hc : isDigit c = false) :
    readNumber (t ++ c :: rest) = some (n, c :: rest) := by
  obtain ⟨rfl, hne, hdigits⟩ := h
  obtain ⟨sign, ds⟩ := n
  cases ds with
  | nil => exact absurd rfl hne
  | cons d ds =>
    have hd := hdigits d List.mem_cons_self
    have hsign : readSign (sign.text ++ (d :: ds) ++ c :: rest) = (sign, d :: ds ++ c :: rest) := by
      rw [List.append_assoc]
      refine readSign_append ?_ ?_
      · rintro rfl
        cases hd
      · rintro rfl
        cases hd
    have htail : ∀ e ∈ (c :: rest).head?, isDigit e = false := by
      rintro e he
      obtain rfl := Option.some.inj he
      exact hc
    unfold readNumber
    simp only [hsign, takeWhile_digits hdigits htail]
    rw [List.dropWhile_append_of_pos hdigits, List.dropWhile_cons_of_neg (by simp [hc])]

end Numbers

/-- Numbers with a letter behind them. -/
def numberReader : Reader Char Number PeriodUnit where
  read := readNumber
  isUnit := PeriodUnit.isLetter
  Writes := Number.Writes
  read_nil := rfl
  writes_of_read _ _ _ h := writes_of_readNumber h
  read_of_writes _ _ _ _ _ h hc := readNumber_of_writes h (not_isDigit_of_isLetter hc)
  unit_unique _ _ _ h h' := isLetter_unique h h'

/-! ## Periods -/

/-- The units of a period, in the order of their fields. -/
def periodUnits : List PeriodUnit := [.years, .months, .weeks, .days]

/-- The groups of
`([-+]?)P(?:([-+]?[0-9]+)Y)?(?:([-+]?[0-9]+)M)?(?:([-+]?[0-9]+)W)?(?:([-+]?[0-9]+)D)?`, if it
matches the text. Letters count in either case. -/
def matchPeriod (text : List Char) : Option (Sign × List (Option Number)) :=
  match readSign text with
  | (sign, c :: text) =>
    if c = 'P' ∨ c = 'p' then
      match numberReader.readFields periodUnits text with
      | (fields, []) => some (sign, fields)
      | _ => none
    else none
  | _ => none

/-- An `int`. -/
def IsInt (n : ℤ) : Prop := -2 ^ 31 ≤ n ∧ n < 2 ^ 31

instance (n : ℤ) : Decidable (IsInt n) := inferInstanceAs (Decidable (_ ∧ _))

/-- `Integer.parseInt`, `Math.addExact` and `Math.multiplyExact` throw an exception when the result
is no `int`. -/
def exactInt (n : ℤ) : Option ℤ := if IsInt n then some n else none

def parseNumber (field : Option Number) (negate : ℤ) : Option ℤ :=
  match field with
  | none => some 0
  | some n => (exactInt n.value).bind fun val => exactInt (val * negate)

/-- `Period.parse`; `none` is an exception. -/
def Period.parse (text : String) : Option Period :=
  match matchPeriod text.toList with
  | some (sign, [yearMatch, monthMatch, weekMatch, dayMatch]) =>
    if yearMatch.isSome || monthMatch.isSome || weekMatch.isSome || dayMatch.isSome then do
      let years ← parseNumber yearMatch sign.factor
      let months ← parseNumber monthMatch sign.factor
      let weeks ← parseNumber weekMatch sign.factor
      let days ← parseNumber dayMatch sign.factor
      let weekDays ← exactInt (weeks * 7)
      let days ← exactInt (days + weekDays)
      some ⟨years, months, days⟩
    else none
  | _ => none

/-- The value of a field, with the sign of the whole. -/
def component (sign : Sign) (field : Option Number) : ℤ :=
  match field with
  | none => 0
  | some n => n.value * sign.factor

/-- The text is a period with these fields. -/
structure Spells (text : String) (sign : Sign) (years months weeks days : Option Number) :
    Prop where
  written : ∃ c t, (c = 'P' ∨ c = 'p') ∧ text.toList = sign.text ++ c :: t ∧
    numberReader.Written periodUnits [years, months, weeks, days] t
  nonempty : (years.isSome || months.isSome || weeks.isSome || days.isSome) = true

/-- What is computed on the way is an `int`. -/
structure Computable (sign : Sign) (years months weeks days : Option Number) : Prop where
  numbers : ∀ field ∈ [years, months, weeks, days], ∀ n ∈ field, IsInt n.value
  components : ∀ field ∈ [years, months, weeks, days], IsInt (component sign field)
  weekDays : IsInt (component sign weeks * 7)
  days : IsInt (component sign days + component sign weeks * 7)

section Periods

variable {text : String} {sign : Sign} {years months weeks days field : Option Number}
  {fields : List (Option Number)} {period : Period} {v : ℤ}

theorem exactInt_eq_some {n : ℤ} : exactInt n = some v ↔ IsInt n ∧ n = v := by
  unfold exactInt
  rw [Option.ite_none_right_eq_some, Option.some.injEq]

theorem parseNumber_eq_some : parseNumber field sign.factor = some v ↔
    ((∀ n ∈ field, IsInt n.value) ∧ IsInt (component sign field)) ∧ component sign field = v := by
  cases field with
  | none =>
    have hzero : IsInt 0 := by decide
    simp [parseNumber, component, hzero]
  | some n =>
    simp only [parseNumber, component, Option.bind_eq_some_iff, exactInt_eq_some]
    constructor
    · rintro ⟨_, ⟨hn, rfl⟩, hv, rfl⟩
      refine ⟨⟨fun m hm => ?_, hv⟩, rfl⟩
      obtain rfl := Option.some.inj hm
      exact hn
    · rintro ⟨⟨hn, hv⟩, rfl⟩
      exact ⟨_, ⟨hn n rfl, rfl⟩, hv, rfl⟩

theorem nodup_periodUnits : periodUnits.Nodup := by decide

theorem matchPeriod_eq_some {text : List Char} : matchPeriod text = some (sign, fields) ↔
    ∃ c t, (c = 'P' ∨ c = 'p') ∧ text = sign.text ++ c :: t ∧
      numberReader.Written periodUnits fields t := by
  constructor
  · intro h
    have htext := readSign_spec text
    unfold matchPeriod at h
    split at h
    next sign' c t hsign =>
      rw [hsign] at htext
      obtain ⟨hc, h⟩ := Option.ite_none_right_eq_some.mp h
      split at h
      next fields' hfields =>
        obtain ⟨rfl, rfl⟩ := Prod.mk.inj (Option.some.inj h)
        exact ⟨c, t, hc, htext, (Reader.readFields_iff nodup_periodUnits).mp hfields⟩
      next => cases h
    next => cases h
  · rintro ⟨c, t, hc, rfl, hwritten⟩
    have hplus : c ≠ '+' := by
      rintro rfl
      exact absurd hc (by decide)
    have hminus : c ≠ '-' := by
      rintro rfl
      exact absurd hc (by decide)
    unfold matchPeriod
    simp only [readSign_append hplus hminus, if_pos hc,
      (Reader.readFields_iff nodup_periodUnits).mpr hwritten]

/-- **What is accepted**, and the period that it denotes. -/
theorem parse_eq_some : Period.parse text = some period ↔
    ∃ sign years months weeks days, Spells text sign years months weeks days ∧
      Computable sign years months weeks days ∧
      period = ⟨component sign years, component sign months,
        component sign days + component sign weeks * 7⟩ := by
  constructor
  · intro h
    unfold Period.parse at h
    split at h
    next sign years months weeks days hmatch =>
      obtain ⟨hsome, h⟩ := Option.ite_none_right_eq_some.mp h
      simp only [Option.bind_eq_bind, Option.bind_eq_some_iff, parseNumber_eq_some,
        exactInt_eq_some, Option.some.injEq] at h
      obtain ⟨_, ⟨hyears, rfl⟩, _, ⟨hmonths, rfl⟩, _, ⟨hweeks, rfl⟩, _, ⟨hdays, rfl⟩, _,
        ⟨hweekDays, rfl⟩, _, ⟨hall, rfl⟩, rfl⟩ := h
      refine ⟨sign, years, months, weeks, days, ⟨matchPeriod_eq_some.mp hmatch, hsome⟩,
        ⟨?_, ?_, hweekDays, hall⟩, rfl⟩
      · simp only [List.forall_mem_cons]
        exact ⟨hyears.1, hmonths.1, hweeks.1, hdays.1, by simp⟩
      · simp only [List.forall_mem_cons]
        exact ⟨hyears.2, hmonths.2, hweeks.2, hdays.2, by simp⟩
    next => cases h
  · rintro ⟨sign, years, months, weeks, days, hspells, hcomputable, rfl⟩
    have hnumber : ∀ field ∈ [years, months, weeks, days],
        parseNumber field sign.factor = some (component sign field) := fun field hfield =>
      parseNumber_eq_some.mpr
        ⟨⟨hcomputable.numbers field hfield, hcomputable.components field hfield⟩, rfl⟩
    unfold Period.parse
    rw [matchPeriod_eq_some.mpr hspells.written]
    simp only [hspells.nonempty, if_true]
    rw [hnumber years (by simp), hnumber months (by simp), hnumber weeks (by simp),
      hnumber days (by simp)]
    simp [exactInt, hcomputable.weekDays, hcomputable.days]

theorem Spells.unique {sign' : Sign} {years' months' weeks' days' : Option Number}
    (h : Spells text sign years months weeks days)
    (h' : Spells text sign' years' months' weeks' days') :
    sign = sign' ∧ years = years' ∧ months = months' ∧ weeks = weeks' ∧ days = days' := by
  have hmatch := (matchPeriod_eq_some.mpr h.written).symm.trans
    (matchPeriod_eq_some.mpr h'.written)
  simpa using hmatch

end Periods

/-! ## The limit -/

/-- `Instant.MIN`, which is `-1000000000-01-01T00:00Z`. -/
def minInstant : Instant := -31557014167219200 * 10 ^ 9

/-- `Instant.MAX`, which is `1000000000-12-31T23:59:59.999999999Z`. -/
def maxInstant : Instant := 31556889864403199 * 10 ^ 9 + 999999999

def Instant.InRange (t : Instant) : Prop := minInstant ≤ t ∧ t ≤ maxInstant

instance (t : Instant) : Decidable (Instant.InRange t) := inferInstanceAs (Decidable (_ ∧ _))

/-- Why there is no limit. -/
inductive DateTimeFailure
  | unsupportedTemporalType
  | outOfRange
  deriving DecidableEq, Repr

/-- The limit of `doReap()`. -/
def EventReaper.limit (period : Period) (now : Instant) : Except DateTimeFailure Instant :=
  match Instant.minus now period with
  | none => .error .unsupportedTemporalType
  | some limit => if Instant.InRange limit then .ok limit else .error .outOfRange

/-- No component of the history is negative. -/
def NoNegativeComponent (history : String) : Prop :=
  ∀ sign years months weeks days, Spells history sign years months weeks days →
    ∀ field ∈ [years, months, weeks, days], 0 ≤ component sign field

/-- The years and months of the history come to nothing. -/
def YearsAndMonthsCancel (history : String) : Prop :=
  ∃ sign years months weeks days, Spells history sign years months weeks days ∧
    12 * component sign years + component sign months = 0

/-- At the time `now` there is a limit, with which `doReap()` goes on, and which is not in the
future if no component of the history is negative. -/
def Reapable (history : String) (period : Period) (now : Instant) : Prop :=
  ∃ limit, EventReaper.limit period now = .ok limit ∧
    (∀ deletes events st, events.Perm (st.findByExecutedAtBefore limit) →
      EventReaper.doReapAt period now deletes events st =
        some (EventReaper.doReap deletes events st)) ∧
    (NoNegativeComponent history → limit ≤ now)

section Limit

variable {history : String} {period : Period} {now limit : Instant}

theorem minus_eq_some : Instant.minus now period = some limit ↔
    12 * period.years + period.months = 0 ∧ limit = now - period.days * nanosPerDay := by
  unfold Instant.minus
  rw [Option.ite_none_right_eq_some, Option.some.injEq, eq_comm (a := limit)]
  refine and_congr_left fun _ => ?_
  split_ifs with hmonths <;> omega

theorem limit_eq_ok : EventReaper.limit period now = .ok limit ↔
    Instant.minus now period = some limit ∧ Instant.InRange limit := by
  unfold EventReaper.limit
  cases h : Instant.minus now period with
  | none => simp
  | some limit' =>
    dsimp only
    split_ifs with hrange
    · simp only [Except.ok.injEq, Option.some.injEq]
      constructor
      · rintro rfl
        exact ⟨rfl, hrange⟩
      · exact And.left
    · simp only [Option.some.injEq, false_iff]
      rintro ⟨rfl, h⟩
      exact hrange h

theorem doReapAt_of_minus (h : Instant.minus now period = some limit) {deletes : Id → Bool}
    {events : List Id} {st : Store} (hquery : events.Perm (st.findByExecutedAtBefore limit)) :
    EventReaper.doReapAt period now deletes events st =
      some (EventReaper.doReap deletes events st) := by
  unfold EventReaper.doReapAt
  rw [h]
  exact if_pos hquery

end Limit

/-- **Some histories cannot be reaped with.** Take any history that the constructor accepts, and
any time at which what is left is in the range of an `Instant`. The limit is computed, and is not
in the future if no component is negative, if and only if the years and months of the history come
to nothing. -/
theorem history_reapable_iff {history : String} {period : Period}
    (hparse : Period.parse history = some period) {now : Instant}
    (hrange : ∀ limit, Instant.minus now period = some limit → Instant.InRange limit) :
    Reapable history period now ↔ YearsAndMonthsCancel history := by
  obtain ⟨sign, years, months, weeks, days, hspells, -, rfl⟩ := parse_eq_some.mp hparse
  constructor
  · rintro ⟨limit, hlimit, -⟩
    obtain ⟨hcancel, -⟩ := minus_eq_some.mp (limit_eq_ok.mp hlimit).1
    exact ⟨sign, years, months, weeks, days, hspells, hcancel⟩
  · rintro ⟨sign', years', months', weeks', days', hspells', hcancel⟩
    obtain ⟨rfl, rfl, rfl, rfl, rfl⟩ := hspells.unique hspells'
    have hminus : Instant.minus now ⟨component sign years, component sign months,
        component sign days + component sign weeks * 7⟩ =
          some (now - (component sign days + component sign weeks * 7) * nanosPerDay) :=
      minus_eq_some.mpr ⟨hcancel, rfl⟩
    refine ⟨_, limit_eq_ok.mpr ⟨hminus, hrange _ hminus⟩,
      fun deletes events st hquery => doReapAt_of_minus hminus hquery, fun hpositive => ?_⟩
    have hcomponents := hpositive sign years months weeks days hspells
    have hweeks := hcomponents weeks (by simp)
    have hdays := hcomponents days (by simp)
    have hnanos : 0 ≤ nanosPerDay := by decide
    exact Int.sub_le_self _ (Int.mul_nonneg (by omega) hnanos)

/-- With any other history no run gets to its query, at whatever time. -/
theorem never_reaped {history : String} {period : Period}
    (hparse : Period.parse history = some period) (h : ¬ YearsAndMonthsCancel history)
    (now : Instant) (deletes : Id → Bool) (events : List Id) (st : Store) :
    EventReaper.doReapAt period now deletes events st = none := by
  obtain ⟨sign, years, months, weeks, days, hspells, -, rfl⟩ := parse_eq_some.mp hparse
  unfold EventReaper.doReapAt
  rw [Option.bind_eq_none_iff]
  intro limit hminus
  exact absurd ⟨sign, years, months, weeks, days, hspells, (minus_eq_some.mp hminus).1⟩ h

/-- A week, as it is configured. -/
theorem history_reapable_iff_week : Reapable "P1W" ⟨0, 0, 7⟩ 0 := by
  refine (history_reapable_iff rfl fun limit h => ?_).mpr
    ⟨.none, none, none, some ⟨.none, ['1']⟩, none, ⟨matchPeriod_eq_some.mp rfl, rfl⟩, rfl⟩
  obtain rfl := Option.some.inj h
  decide

/-- A month is accepted, and there is never a limit. -/
theorem month_not_reapable :
    ¬ ∀ (history : String) (period : Period) (now : Instant),
      Period.parse history = some period →
      (∀ limit, Instant.minus now period = some limit → Instant.InRange limit) →
      Reapable history period now := by
  intro h
  obtain ⟨limit, hlimit, -⟩ := h "P1M" ⟨0, 1, 0⟩ 0 rfl fun limit hminus => by cases hminus
  cases hlimit

end ChaosLoris
