import MailTrace.Line.Header
import MailTrace.Payload.Reading
import MailTrace.Text.Utf8
import MailTrace.Time.Syslog

/-!
# Reading a line

A line is a time, a header and a text. The time has one of two forms, with or without a year. A text
that is not understood does not spoil the line: its fault stands in place of the event.
-/

namespace MailTrace

open MailTrace.Text MailTrace.Time

namespace Line

/-- The time without a year at the start of a line, with the rest after it. Zero characters before
it, left by files that were cut short, are skipped. -/
def takeSyslogTime (line : List Char) : Except LineFault (SyslogTime × List Char) := do
  let (head, rest) ← require .header
    (Utf8.cut SyslogTime.width (line.dropWhile (· == '\x00')))
  let text ← require .header (before? [' '] head)
  return (← require (.time (String.ofList text)) (SyslogTime.read? text), rest)

/-- The octets of a date and a time of day. -/
def clockWidth : Nat := 19

/-- The time with a year at the start of a line, with the rest after it. What follows the seconds is
not looked at, so the time is read as universal whatever its offset. -/
def takeClockTime (line : List Char) : Except LineFault (Instant × List Char) := do
  let (token, rest) ← require .header (cutAt ' ' line)
  let (text, _) ← require (.time (String.ofList token)) (Utf8.cut clockWidth token)
  return ((← require .impossibleTime (Clock.read? text)).instant, rest)

/-- What a line says below its time. -/
structure Body where
  header : Header
  payload : Except LineFault Payload

/-- The header and the event of what follows the time. -/
def readBody (cs : List Char) : Except LineFault Body := do
  let (header, text) ← require .header (Header.take? cs)
  return ⟨header, Payload.read header text⟩

/-- A line with a time without a year. -/
def readSyslog (line : List Char) : Except LineFault (SyslogTime × Body) := do
  let (time, rest) ← takeSyslogTime line
  return (time, ← readBody rest)

/-- A line with a time with a year. -/
def readClock (line : List Char) : Except LineFault (Instant × Body) := do
  let (time, rest) ← takeClockTime line
  return (time, ← readBody rest)

/-- The moment of a timestamp of the internet. -/
def readTimestamp (token : List Char) : Except LineFault Instant :=
  match Rfc3339.read token with
  | .ok t => .ok t
  | .error .malformed => .error .impossibleTime
  | .error .outsideCalendar => .error .outsideCalendar

end Line

end MailTrace
