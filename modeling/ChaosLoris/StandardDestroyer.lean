import ChaosLoris.Data
import ChaosLoris.Lib.FlatMap

/-!
# `StandardDestroyer`

`run` merges one publisher per chaos of the schedule, and the publisher of a chaos
(`terminate(Chaos, …)`) merges one publisher per instance index (`terminate(Application, …)`).
Both merges are `flatMap`s with Reactor's default concurrency, so both are `FlatMap` here: the
signals of a chaos are the answer to `getInstanceCount`, the signals of its range and the outcome
of `save`.

Every call a run makes is an `Effect`, in the order the calls are made.
-/

namespace ChaosLoris

open FlatMap

/-- `SMALL_BUFFER_SIZE`, the concurrency of a Reactor `flatMap`. -/
def concurrency : ℕ := 256

/-- How the platform, the fate engine and the clock treat one chaos. -/
structure Behaviour where
  /-- What `getInstanceCount` answers; `none` is an error. -/
  instanceCount : Option ℕ
  /-- Whether `terminateInstance` completes without an error. -/
  terminates : ℕ → Bool
  /-- The answers of `getFate`, in the order of the questions. -/
  fate : ℕ → Fate
  /-- `Instant.now()` when the event is created. -/
  now : Instant

/-- The calls of a destroyer. `getFate` carries the index it is asked for, which the engine does
not see; `save` carries its outcome. -/
inductive Effect
  | getInstanceCount (application : Application)
  | getFate (chaos : Chaos) (index : ℕ)
  | terminateInstance (application : Application) (index : ℕ)
  | save (event : Event) (ok : Bool)
  deriving DecidableEq, Repr

/-- The publisher of one index. -/
inductive Call
  | spared
  | inFlight
  | terminated (index : ℕ)
  | refused
  deriving DecidableEq, Repr

/-- The mapper of the range: ask for a fate and on `THUMBS_DOWN` call `terminateInstance`, whose
completion becomes the index and whose error becomes an empty publisher. -/
def terminateIndex (chaos : Chaos) (b : Behaviour) : Inner ℕ Call Unit Effect ℕ where
  subscribe asked index :=
    match b.fate asked with
    | .thumbsDown =>
      (.inFlight, [.getFate chaos index, .terminateInstance chaos.application index])
    | .thumbsUp => (.spared, [.getFate chaos index])
  step index c _ :=
    match c with
    | .inFlight => some (if b.terminates index then .terminated index else .refused, [])
    | _ => none
  verdict
    | .spared => .completed none
    | .inFlight => .running
    | .terminated index => .completed (some index)
    | .refused => .completed none

/-- The range of a chaos between two signals. -/
abbrev Range := FlatMap.State ℕ Call ℕ

/-- How far the publisher of a chaos has come. -/
inductive Phase
  | counting
  | terminating (instanceCount : ℕ) (range : Range)
  | saving (event : Event)
  | saved (event : Event)
  | failed
  deriving DecidableEq, Repr

/-- The signals for the publisher of a chaos: the instance count arrives, the range moves, or
`eventRepository.save` returns or throws. -/
inductive ChaosSignal
  | instanceCount
  | range (x : Signal Unit)
  | save (ok : Bool)
  deriving DecidableEq, Repr

/-- `collectList` and `map`: the event of a range that has completed. -/
def collectList (chaos : Chaos) (b : Behaviour) (instanceCount : ℕ) (range : Range) : Phase :=
  if range.Complete (terminateIndex chaos b) then
    .saving (Event.new chaos b.now range.emitted instanceCount)
  else .terminating instanceCount range

/-- One signal for the publisher of a chaos. -/
def terminateStep (chaos : Chaos) (b : Behaviour) :
    Phase → ChaosSignal → Option (Phase × List Effect)
  | .counting, .instanceCount =>
    match b.instanceCount with
    | none => some (.failed, [])
    | some n => some (collectList chaos b n (State.init (List.range n)), [])
  | .terminating n range, .range x =>
    (FlatMap.step (terminateIndex chaos b) concurrency range x).map fun q =>
      (collectList chaos b n q.1, q.2.map Prod.snd)
  | .saving event, .save ok => some (if ok then .saved event else .failed, [.save event ok])
  | _, _ => none

/-- Subscribing to the publisher of a chaos asks for its instance count. -/
def terminateStart (chaos : Chaos) : Phase × List Effect :=
  (.counting, [.getInstanceCount chaos.application])

def Phase.verdict : Phase → Verdict Event
  | .saved event => .completed (some event)
  | .failed => .failed
  | _ => .running

/-- The publishers `run` merges. -/
def terminate (behave : Chaos → Behaviour) : Inner Chaos Phase ChaosSignal Effect Event where
  subscribe _ chaos := terminateStart chaos
  step chaos := terminateStep chaos (behave chaos)
  verdict := Phase.verdict

/-- A run of the destroyer between two signals. -/
abbrev Destroyer := FlatMap.State Chaos Phase Event

def Phase.isSaving : Phase → Bool
  | .saving _ => true
  | _ => false

/-- An event is about to be saved. -/
def Destroyer.isSaving (s : Destroyer) : Bool := s.inners.any fun p => p.2.isSaving

def isSave : Signal ChaosSignal → Bool
  | .inner _ (.save _) => true
  | _ => false

/-- One signal of a run. A save is taken as one step with the signal that completes its range: what
other threads receive in the meantime commutes with one of the two, so an order in which no signal
of the run comes in between leads to the same calls and the same saves. -/
def Destroyer.step (behave : Chaos → Behaviour) (s : Destroyer) (x : Signal ChaosSignal) :
    Option (Destroyer × List (ℕ × Effect)) :=
  if s.isSaving = false ∨ isSave x = true then FlatMap.step (terminate behave) concurrency s x
  else none

/-- `run()` on what `findByScheduleId` returned. -/
def Destroyer.start (chaoses : List Chaos) : Destroyer := State.init chaoses

end ChaosLoris
