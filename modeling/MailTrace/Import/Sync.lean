import MailTrace.Import.Progress
import MailTrace.Task

/-!
# Announcing no earlier than others have read

Steps of an import are held back until a probe has seen a later moment in the log, or has stood still
for too long. The finished step then waits for a second probe in the same way. A run makes a number
of moves, each the receipt of a step or one reading of a probe, and is cancelled after the last.
-/

namespace MailTrace.Import

open MailTrace.Time

/-- What a probe answers: the latest moment that it knows of, or why it cannot tell. Until the answer
the clock moves, and backwards where it is set anew. -/
structure Answer where
  value : Except String (Option Instant)
  moved : Int

/-- The answers of a probe, by how often it was read before. -/
abbrev Probe := Nat → Answer

/-- A probe that gives some values in turn, at once, and then repeats the last. -/
def Probe.ofReadings (rs : List (Except String (Option Instant))) : Probe := fun n =>
  match rs[n]? with
  | some r => ⟨r, 0⟩
  | none => ⟨rs.getLast?.getD (.ok none), 0⟩

/-- How long is slept between two readings, and how long a probe may stand still. -/
structure SyncSettings where
  sleep : Duration
  primaryTimeout : Duration
  secondaryTimeout : Duration
deriving DecidableEq, Repr

/-- Half a second between readings, and 40 and 80 seconds for a probe to stand still. -/
def SyncSettings.default : SyncSettings :=
  ⟨.ofMilliseconds 500, .ofSeconds 40, .ofSeconds 80⟩

/-! ## Waiting for one probe -/

/-- How a wait ended. -/
inductive WaitResult where
  /-- The last reading is later than the target. -/
  | passed
  /-- The readings stood still for the timeout. -/
  | stalled
  /-- A reading failed. -/
  | failed (cause : String)
  /-- The run was cancelled. -/
  | cancelled
deriving DecidableEq, Repr

/-- A reading of a probe and the time of the clock after it. -/
structure Reading where
  clock : Instant
  value : Except String (Option Instant)

/-- A wait for a probe: what was read, the clock after it and the moves left. -/
structure Wait where
  readings : List Reading
  clock : Instant
  moves : Nat
  result : WaitResult

/-- The wait with a reading before all others. -/
def Wait.before (r : Reading) (w : Wait) : Wait := { w with readings := r :: w.readings }

/-- The reading is later than the target. -/
def isPast (target : Instant) (value : Option Instant) : Bool := value.any (target < ·)

/-- Readings of a probe until one is past the target or they have stood still for the timeout. The
probe was read `calls` times before, `seen` is the last reading of this wait, and `since` the time
at which it was first seen. -/
def waitPast (probe : Probe) (sleep timeout : Duration) (target : Instant) :
    (moves calls : Nat) → (seen : Option (Option Instant)) → (since clock : Instant) → Wait
  | 0, _, _, _, clock => ⟨[], clock, 0, .cancelled⟩
  | moves + 1, calls, seen, since, clock =>
    let now := clock + (probe calls).moved
    let reading : Reading := ⟨now, (probe calls).value⟩
    match (probe calls).value with
    | .error cause => ⟨[reading], now, moves, .failed cause⟩
    | .ok value =>
      if isPast target value then ⟨[reading], now, moves, .passed⟩
      else if seen ≠ some value then
        (waitPast probe sleep timeout target moves (calls + 1) (some value) now
          (now + sleep)).before reading
      else if now - since ≥ (timeout : Int) then ⟨[reading], now, moves, .stalled⟩
      else
        (waitPast probe sleep timeout target moves (calls + 1) seen since
          (now + sleep)).before reading

/-! ## The announcer -/

/-- One of the two probes. -/
inductive ProbeName where
  | primary | secondary
deriving DecidableEq, Repr

/-- What the announcer does. -/
inductive SyncEvent where
  | read (probe : ProbeName) (r : Reading)
  | forwarded (s : Step)

/-- The announcer between two steps. -/
structure Sync where
  clock : Instant
  moves : Nat
  primaryCalls : Nat
  secondaryCalls : Nat

/-- How the announcer ends. -/
inductive SyncResult where
  | done
  | cancelled
  | failed (probe : ProbeName) (cause : String)
deriving DecidableEq, Repr

/-- The name of the task of the announcer. -/
def syncTask : String := "synchronizing announcer"

/-- The result of the task. A cancelled announcer ends well. -/
def SyncResult.toTask : SyncResult → Except TaskFault Unit
  | done | cancelled => .ok ()
  | failed .primary cause => .error (.failed syncTask ("primary log time probe failed: " ++ cause))
  | failed .secondary cause =>
    .error (.failed syncTask ("secondary log time probe failed: " ++ cause))

/-- The surroundings of an announcer. -/
structure SyncContext where
  primary : Probe
  secondary : Probe
  settings : SyncSettings

namespace Sync

/-- The wait for the first probe. -/
def waitPrimary (c : SyncContext) (s : Sync) (target : Instant) : Sync × Wait :=
  let w := waitPast c.primary c.settings.sleep c.settings.primaryTimeout target s.moves
    s.primaryCalls none s.clock s.clock
  ({ s with clock := w.clock, moves := w.moves,
            primaryCalls := s.primaryCalls + w.readings.length }, w)

/-- The wait for the second probe. -/
def waitSecondary (c : SyncContext) (s : Sync) (target : Instant) : Sync × Wait :=
  let w := waitPast c.secondary c.settings.sleep c.settings.secondaryTimeout target s.moves
    s.secondaryCalls none s.clock s.clock
  ({ s with clock := w.clock, moves := w.moves,
            secondaryCalls := s.secondaryCalls + w.readings.length }, w)

/-- The result that a wait forces on the announcer, if it does. -/
def stop? (probe : ProbeName) : WaitResult → Option SyncResult
  | .passed | .stalled => none
  | .failed cause => some (.failed probe cause)
  | .cancelled => some .cancelled

/-- The wait for the right to forward a step. A step without a moment does not wait. -/
def hold (c : SyncContext) (s : Sync) (step : Step) : Sync × List SyncEvent × Option SyncResult :=
  match step.time with
  | none => (s, [], none)
  | some target =>
    let (s, w) := s.waitPrimary c target
    let events := w.readings.map (.read .primary)
    match stop? .primary w.result with
    | some r => (s, events, some r)
    | none =>
      if step.finished && w.result = .stalled then
        let (s, w) := s.waitSecondary c target
        (s, events ++ w.readings.map (.read .secondary), stop? .secondary w.result)
      else (s, events, none)

/-- The run over the steps still to come. The finished step ends it, and so does the end of the
steps. -/
def run (c : SyncContext) : Sync → List Step → Sync × List SyncEvent × SyncResult
  | s, [] => (s, [], .done)
  | s, step :: steps =>
    if s.moves = 0 then (s, [], .cancelled)
    else
      let (s, held, stopped) := { s with moves := s.moves - 1 }.hold c step
      match stopped with
      | some r => (s, held, r)
      | none =>
        if step.finished then (s, held ++ [.forwarded step], .done)
        else
          let (s, later, r) := run c s steps
          (s, held ++ [.forwarded step] ++ later, r)

end Sync

/-- The steps that were forwarded. -/
def forwarded (events : List SyncEvent) : List Step :=
  events.filterMap fun e => match e with
    | .forwarded s => some s
    | .read .. => none

/-- The most readings of a wait for a probe whose value changes at most `changes` times. -/
def maxReadings (changes : Nat) (sleep timeout : Duration) : Nat :=
  (changes + 1) * (max 1 ((timeout + sleep - 1) / sleep) + 1)

/-- Moves enough for some steps, if each probe changes at most as often as its readings are given. -/
def enoughMoves (settings : SyncSettings) (primary secondary steps : Nat) : Nat :=
  steps * (1 + maxReadings primary settings.sleep settings.primaryTimeout +
    maxReadings secondary settings.sleep settings.secondaryTimeout)

end MailTrace.Import
