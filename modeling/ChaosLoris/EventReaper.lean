import ChaosLoris.Database

/-!
# `EventReaper`

A reaper run deletes the events before a limit, each in a transaction of its own. The merge of
`doReap` ends with the first delete that fails. The limit is the present less the period that was
configured, in nanoseconds.
-/

namespace ChaosLoris

/-- `findByExecutedAtBefore`, as ids. -/
def Store.findByExecutedAtBefore (st : Store) (limit : Instant) : List Id :=
  (st.event.toList.filter fun p => p.2.executedAt < limit).map Prod.fst

/-- A `java.time.Period`. -/
structure Period where
  years : ℤ
  months : ℤ
  days : ℤ
  deriving DecidableEq, Repr

def Period.ofDays (days : ℤ) : Period := ⟨0, 0, days⟩

def nanosPerDay : ℤ := 86400 * 10 ^ 9

/-- `Instant.minus(Period)`. An instant has days and no longer units; `none` is the
`UnsupportedTemporalTypeException` for years or months. -/
def Instant.minus (t : Instant) (period : Period) : Option Instant :=
  let totalMonths := if period.months = 0 then period.years else 12 * period.years + period.months
  if totalMonths = 0 then some (t - period.days * nanosPerDay) else none

namespace EventReaper

/-- The merge over the events that were found; `deletes` tells which deletes succeed. The result
is `false` if one of them failed. -/
def reapAll (deletes : Id → Bool) : List Id → Store → Store × Bool
  | [], st => (st, true)
  | event :: events, st =>
    if deletes event then
      match (Statement.deleteEvent event).exec st with
      | some st => reapAll deletes events st
      | none => (st, false)
    else (st, false)

/-- `doReap()` on the events it has found, with the count it emits. -/
def doReap (deletes : Id → Bool) (events : List Id) (st : Store) : Store × Option ℕ :=
  match reapAll deletes events st with
  | (st, true) => (st, some events.length)
  | (st, false) => (st, none)

/-- `doReap()` at the time `now`, when the query returns `events`. -/
def doReapAt (period : Period) (now : Instant) (deletes : Id → Bool) (events : List Id)
    (st : Store) : Option (Store × Option ℕ) :=
  (Instant.minus now period).bind fun limit =>
    if events.Perm (st.findByExecutedAtBefore limit) then some (doReap deletes events st) else none

end EventReaper

end ChaosLoris
