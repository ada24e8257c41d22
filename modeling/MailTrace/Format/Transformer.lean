import MailTrace.Format.Envelope
import MailTrace.Line.Reading
import MailTrace.Record

/-!
# Formats of log lines

Four formats of lines, and the reader of a stream of lines in one of them. The reader numbers the
lines and carries the year along.
-/

namespace MailTrace

open MailTrace.Text MailTrace.Time

/-- A format of log lines. -/
inductive Format where
  /-- A time without a year, then the line. -/
  | classic
  /-- A time with a year, then the line. -/
  | dated
  /-- A timestamp, then a classic line. -/
  | stamped
  /-- A classic line in an envelope. -/
  | enveloped
deriving DecidableEq, Repr, Inhabited

namespace Format

/-- The name of a format in a configuration. -/
def name : Format → String
  | classic => "default"
  | dated => "rfc3339"
  | stamped => "prepend-rfc3339"
  | enveloped => "logstash"

/-- The formats in the order of their names. -/
def all : List Format := [classic, enveloped, stamped, dated]

theorem mem_all (f : Format) : f ∈ all := by cases f <;> decide

/-- The format of a name among some formats. -/
def find? (formats : List Format) (name : String) : Option Format := formats.find? (·.name == name)

end Format

/-- Why a line gives no record. -/
inductive FormatFault where
  /-- No format has this name. -/
  | unknownFormat (name : String)
  /-- There is no timestamp before the line. -/
  | missingTimestamp
  /-- The envelope cannot be read. -/
  | invalidEnvelope
  /-- The line itself is refused. -/
  | line (fault : LineFault)
deriving DecidableEq, Repr

/-- The wording of a fault. -/
def FormatFault.message : FormatFault → String
  | unknownFormat name => "unknown log format: " ++ name
  | missingTimestamp => "line has no timestamp prefix"
  | invalidEnvelope => "invalid json envelope"
  | line fault => fault.message

/-- Nothing is read after such a fault: the timestamp before a line, moved to universal time, leaves
the calendar. -/
def FormatFault.breaksOff (f : FormatFault) : Bool := f = .line .outsideCalendar

/-- The reader of a stream of lines: their format, how many were numbered, and the year. -/
structure Transformer where
  format : Format
  count : Nat
  years : YearTracker
deriving DecidableEq, Repr

namespace Transformer

/-- The first year of the lines: the given one, or that of the clock if none or 0 is given. -/
def firstYear (year : Option Int) (now : Instant) : Int :=
  match year with
  | some y => if y = 0 then now.year else y
  | none => now.year

/-- A reader before its first line. The year never passes the one after the clock's. -/
def start (format : Format) (year : Option Int) (now : Instant) : Transformer :=
  ⟨format, 0, .start (firstYear year now) (now.year + 1)⟩

/-- The reader with one more line numbered. -/
def advance (t : Transformer) : Transformer := { t with count := t.count + 1 }

/-- The event of a record. A text that is not understood gives a record without an event. -/
def keep : Except LineFault Payload → Except LineFault Payload
  | .ok p => .ok p
  | .error f => if f.IsRecoverable then .ok .unsupported else .error f

/-- The record of a line that was read. -/
def record (time : Instant) (body : Line.Body) (line : List Char) (location : Location) :
    Except LineFault Record := do
  return ⟨time, body.header, ← keep body.payload, String.ofList line, location⟩

/-- A classic line as a record of another moment. -/
def wrapped (timestamp line : List Char) (location : Location) : Except LineFault Record := do
  let time ← Line.readTimestamp timestamp
  let (_, body) ← Line.readSyslog line
  record time body line location

/-- The record of a classic line, with the years after it. -/
def classic (years : YearTracker) (line : List Char) (location : Location) :
    Except LineFault Record × YearTracker :=
  match Line.readSyslog line with
  | .error fault => (.error fault, years)
  | .ok (time, body) =>
    match years.place time with
    | (none, years) => (.error .impossibleTime, years)
    | (some instant, years) => (record instant body line location, years)

/-- The record of a line with a time with a year. -/
def dated (line : List Char) (location : Location) : Except LineFault Record := do
  let (time, body) ← Line.readClock line
  record time body line location

/-- The record of a line after a timestamp. -/
def stamped (line : List Char) (location : Location) : Except FormatFault Record :=
  match cutAt ' ' line with
  | none => .error .missingTimestamp
  | some (timestamp, rest) => (wrapped timestamp rest location).mapError .line

/-- The next line. An envelope that cannot be read is not numbered; every other line is. -/
def transform (t : Transformer) (line : List Char) : Except FormatFault Record × Transformer :=
  let next := t.advance
  let location : Location := ⟨Location.unknownFile, next.count⟩
  match t.format with
  | .classic =>
    let (result, years) := classic t.years line location
    (result.mapError .line, { next with years })
  | .dated => ((dated line location).mapError .line, next)
  | .stamped => (stamped line location, next)
  | .enveloped =>
    match Envelope.read? line with
    | none => (.error .invalidEnvelope, t)
    | some e =>
      let location := { location with file := e.file.getD Location.unknownFile }
      ((wrapped e.timestamp.toList e.message.toList location).mapError .line, next)

theorem format_transform (t : Transformer) (line : List Char) :
    (t.transform line).2.format = t.format := by
  obtain ⟨format, count, years⟩ := t
  cases format with
  | classic | dated | stamped => rfl
  | enveloped =>
    unfold transform
    dsimp only
    cases Envelope.read? line <;> rfl

/-- The results of a stream of lines. -/
def transformAll (t : Transformer) : List String → List (Except FormatFault Record)
  | [] => []
  | line :: lines =>
    let (result, t) := t.transform line.toList
    result :: t.transformAll lines

end Transformer

end MailTrace
