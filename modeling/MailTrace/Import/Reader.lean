import MailTrace.Format.Transformer
import MailTrace.Import.Progress
import MailTrace.Source.Lines

/-!
# Reading lines as they come

Lines arrive over time. Each is transformed and its record published, and the import is announced as
it goes: it also ends when no record came for a while. A run is a trace of moments, counted from its
start, with what was published and announced at them.
-/

namespace MailTrace.Import

open MailTrace.Time

/-- A line and how long it lets wait for itself once the one before it is dealt with. -/
structure Arrival where
  delay : Duration
  line : SourceLine
deriving DecidableEq, Repr

/-- How a source ends. -/
inductive Ending where
  | exhausted
  | failed (cause : String)
deriving DecidableEq, Repr

/-- The lines of a source, and how and how long after the last one it ends. -/
structure Feed where
  arrivals : List Arrival
  delay : Duration
  ending : Ending
deriving DecidableEq, Repr

/-- Lines that are all there from the start. -/
def Feed.ofLines (lines : List SourceLine) : Feed := ⟨lines.map (⟨0, ·⟩), 0, .exhausted⟩

/-- How long a silence ends the import, and when the reading is cancelled. -/
structure ReadSettings where
  idleTimeout : Duration
  cancelAt : Option Duration
deriving DecidableEq, Repr

/-- What a run does. -/
inductive Event where
  | published (r : Record)
  | announced (a : Announcement)
deriving DecidableEq, Repr

/-- The moments since the start of a run, and what happened at them. -/
abbrev Trace := List (Duration × Event)

namespace Trace

/-- The records that were published. -/
def records (t : Trace) : List Record :=
  t.filterMap fun e => match e.2 with
    | .published r => some r
    | .announced _ => none

/-- What was announced. -/
def announcements (t : Trace) : List Announcement :=
  t.filterMap fun e => match e.2 with
    | .published _ => none
    | .announced a => some a

end Trace

/-- Announcements of one moment. -/
def announce (now : Duration) (as : List Announcement) : Trace := as.map fun a => (now, .announced a)

/-- The reader between two lines. -/
structure Reader where
  transformer : Transformer
  progress : Progress
  now : Duration
  /-- When the last record was published. -/
  lastRecord : Option Duration
deriving DecidableEq, Repr

/-- Why a run does not end well. -/
inductive ReadFault where
  /-- No line could be read at all. -/
  | noLine (cause : String)
  /-- A line broke the reading off, and nothing was announced any more. -/
  | brokenOff
deriving DecidableEq, Repr

/-- The wording of a fault. -/
def ReadFault.message : ReadFault → String
  | noLine cause => "failed to read any line: " ++ cause
  | brokenOff => "reading broken off"

namespace Reader

/-- A reader before its first line, at a time of the clock. -/
def start (transformer : Transformer) (clock : Instant) : Reader :=
  ⟨transformer, .start clock, 0, none⟩

/-- The moment at which silence ends the import, while it is going on. -/
def deadline? (timeout : Duration) (r : Reader) : Option Duration :=
  if r.progress.first.isSome && !r.progress.ended then r.lastRecord.map (· + timeout) else none

/-- Nothing comes until a moment. The import ends if its deadline is before it. -/
def waitUntil (timeout : Duration) (moment : Duration) (r : Reader) : Reader × Trace :=
  match r.deadline? timeout with
  | some deadline =>
    if deadline < moment then
      let (progress, as) := r.progress.finishAt r.progress.endTime
      ({ r with progress, now := moment }, announce deadline as)
    else ({ r with now := moment }, [])
  | none => ({ r with now := moment }, [])

/-- A record found at the place its source tells, unless the line itself names its file. -/
def place (r : Record) (location : Option Location) : Record :=
  match location with
  | some l => if r.location.file = Location.unknownFile then { r with location := l } else r
  | none => r

/-- A line comes. One that is refused changes only the state of the transformer, unless it breaks
the reading off. -/
def take? (r : Reader) (line : SourceLine) : Option (Reader × Trace) :=
  match r.transformer.transform line.text.toList with
  | (.error fault, transformer) =>
    if fault.breaksOff then none else some ({ r with transformer }, [])
  | (.ok record, transformer) =>
    let record := place record line.location
    let (progress, as) := r.progress.record record.time
    some ({ r with transformer, progress, lastRecord := some r.now },
      (r.now, .published record) :: announce r.now as)

/-- The source ends. A failure after some record ends the import like the end of the input. -/
def close (r : Reader) : Ending → Trace × Except ReadFault Unit
  | .exhausted => (announce r.now r.progress.finish.2, .ok ())
  | .failed cause =>
    if r.progress.first.isSome then (announce r.now r.progress.finish.2, .ok ())
    else ([], .error (.noLine cause))

/-- The reading is cancelled by a moment, and when. -/
def cancelled? (s : ReadSettings) (moment : Duration) : Option Duration :=
  s.cancelAt.filter (· ≤ moment)

/-- The run over the lines still to come. -/
def run (s : ReadSettings) (delay : Duration) (ending : Ending) :
    Reader → List Arrival → Trace × Except ReadFault Unit
  | r, [] =>
    let moment := r.now + delay
    match cancelled? s moment with
    | some c => ((r.waitUntil s.idleTimeout c).2, .ok ())
    | none =>
      let (r, waited) := r.waitUntil s.idleTimeout moment
      let (closing, result) := r.close ending
      (waited ++ closing, result)
  | r, a :: rest =>
    let moment := r.now + a.delay
    match cancelled? s moment with
    | some c => ((r.waitUntil s.idleTimeout c).2, .ok ())
    | none =>
      let (r, waited) := r.waitUntil s.idleTimeout moment
      match r.take? a.line with
      | none => (waited, .error .brokenOff)
      | some (r, taken) =>
        let (later, result) := run s delay ending r rest
        (waited ++ taken ++ later, result)

end Reader

/-- The run over a source, at a time of the clock. -/
def read (s : ReadSettings) (transformer : Transformer) (clock : Instant) (feed : Feed) :
    Trace × Except ReadFault Unit :=
  (Reader.start transformer clock).run s feed.delay feed.ending feed.arrivals

end MailTrace.Import
