import MailTrace.Import.Handshake
import MailTrace.Source.Socket
import MailTrace.Source.Stream
import MailTrace.Task

/-!
# Connections that are read at the same time

Every connection that is accepted is read by two tasks of its own, with a transformer of its own. Their
records go to one publisher, and only those of the first connection tell the announcer how the import
goes. Octets arrive whenever they do, and the moves of all tasks come in any order.
-/

namespace MailTrace

open MailTrace.Time

/-- The records among some events of a connection, each with its number. -/
def Import.numbered (i : Nat) (events : List Import.Event) : List (Nat × Record) :=
  events.filterMap fun e => match e with
    | .published r => some (i, r)
    | .announced _ => none

/-- The announcements among some events. -/
def Import.announced (events : List Import.Event) : List Import.Announcement :=
  events.filterMap fun e => match e with
    | .published _ => none
    | .announced a => some a

/-! ## One connection -/

/-- A connection and the two tasks that read it. -/
structure Connection where
  /-- The transformer before the first line. -/
  transformer : Transformer
  /-- The time of the clock when the reading began. -/
  clock : Instant
  /-- What the other side sends. -/
  pieces : List Chunk
  /-- How the connection ends once everything was sent. -/
  ending : Import.Ending
  /-- What the reading announces goes to the announcer of the service. -/
  announces : Bool
  /-- The pieces that did not arrive yet. -/
  arriving : List Chunk
  /-- The connection is at its end. -/
  closed : Bool
  /-- What arrived and was not asked for yet. -/
  stream : LineStream
  /-- The two tasks. The scanner asks the stream and not a source of its own. -/
  reading : Import.Handshake

namespace Connection

/-- A connection that was just accepted. -/
def start (transformer : Transformer) (clock : Instant) (pieces : List Chunk)
    (ending : Import.Ending) (announces : Bool) (cancelled : Bool) : Connection where
  transformer := transformer
  clock := clock
  pieces := pieces
  ending := ending
  announces := announces
  arriving := pieces
  closed := false
  stream := .start none [] (ending ≠ .exhausted)
  reading := { Import.Handshake.start transformer clock [] ending with cancelled }

/-- The stream can tell what comes next: a line is whole, or nothing follows what is there. -/
def Ready (c : Connection) : Prop := Lines.lineFeed ∈ c.stream.octets ∨ c.closed = true

/-- The taker is at its end. -/
def Over (c : Connection) : Prop := c.reading.taker.result?.isSome = true

/-- One move. Those of the two tasks are moves of a reader, except that the scanner asks the stream,
which lets it wait. -/
inductive Step : Connection → Connection → Prop where
  | arrive {c : Connection} {piece : Chunk} {rest : List Chunk}
      (harriving : c.arriving = piece :: rest) :
      Step c { c with
        arriving := rest, stream := { c.stream with coming := c.stream.coming ++ [piece] } }
  | close {c : Connection} (harriving : c.arriving = []) : Step c { c with closed := true }
  | scanLine {c : Connection} {stream : LineStream} {line : SourceLine}
      (hscanner : c.reading.scanner = .asking) (hready : c.Ready)
      (hnext : c.stream.next = (stream, .line line)) :
      Step c { c with stream, reading := { c.reading with scanner := .sending line } }
  | scanEnd {c : Connection} {stream : LineStream} {pull : Pull}
      (hscanner : c.reading.scanner = .asking) (hready : c.Ready)
      (hnext : c.stream.next = (stream, pull)) (hend : pull = .ended ∨ pull = .failed) :
      Step c { c with stream, reading := { c.reading with scanner := .ended c.ending } }
  | scanStopped {c : Connection} (hscanner : c.reading.scanner = .asking)
      (hstop : c.reading.cancelled = true ∨ c.reading.taker = .stopping) :
      Step c { c with reading := { c.reading with scanner := .ended .exhausted } }
  | work {c : Connection} {reading : Import.Handshake} (hstep : c.reading.Step reading)
      (hwaits : c.reading.scanner = .asking → reading.scanner = .asking)
      (hcancelled : reading.cancelled = c.reading.cancelled) :
      Step c { c with reading }

/-- What happened between two states of a connection. -/
def news (c c' : Connection) : List Import.Event := c'.reading.events.drop c.reading.events.length

/-- The reading is cancelled. -/
def cancel (c : Connection) : Connection := { c with reading := { c.reading with cancelled := true } }

end Connection

/-! ## All connections -/

/-- The task that accepts connections, those that it accepted, and what was published and announced. -/
structure Serving where
  format : Format
  /-- The year of the first lines, where one is set. -/
  year : Option Int
  phase : Task.Phase
  cancelled : Bool
  /-- No connection was accepted yet. -/
  first : Bool
  connections : List Connection
  /-- The records that were published, in order, each with the number of its connection. -/
  published : List (Nat × Record)
  announced : List Import.Announcement

namespace Serving

/-- Before the first connection. -/
def start (format : Format) (year : Option Int) : Serving :=
  ⟨format, year, .working, false, true, [], [], []⟩

/-- A connection is accepted and read with a new transformer, built at one moment and read with from
another one on. -/
def accept (s : Serving) (now clock : Instant) (pieces : List Chunk) (ending : Import.Ending) :
    Serving :=
  { s with
    first := false
    connections := s.connections ++
      [.start (.start s.format s.year now) clock pieces ending s.first s.cancelled] }

/-- A connection moved on. Its records are published, and what it announces is told the announcer or
nobody. -/
def move (s : Serving) (i : Nat) (c c' : Connection) : Serving :=
  { s with
    connections := s.connections.set i c'
    published := s.published ++ Import.numbered i (c.news c')
    announced := s.announced ++ if c.announces then Import.announced (c.news c') else [] }

/-- One move. Cancelling comes to all connections at once; after it no more are accepted, and those that
are there are waited for. Where accepting fails they are all broken off. -/
inductive Step : Serving → Serving → Prop where
  | accept {s : Serving} (now clock : Instant) (pieces : List Chunk) (ending : Import.Ending)
      (hphase : s.phase = .working) : Step s (s.accept now clock pieces ending)
  | move {s : Serving} {i : Nat} {c c' : Connection} (hphase : s.phase.Active)
      (hconnection : s.connections[i]? = some c) (hstep : c.Step c') : Step s (s.move i c c')
  | cancel {s : Serving} (hcancelled : s.cancelled = false) :
      Step s { s with cancelled := true, connections := s.connections.map (·.cancel) }
  | stop {s : Serving} (hphase : s.phase = .working) (hcancelled : s.cancelled = true) :
      Step s { s with phase := .draining }
  | finish {s : Serving} (hphase : s.phase = .draining) (hover : ∀ c ∈ s.connections, c.Over) :
      Step s { s with phase := .ended }
  | fail {s : Serving} (hphase : s.phase = .working) : Step s { s with phase := .failed }

end Serving

end MailTrace
