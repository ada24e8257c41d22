import MailTrace.Checksum
import MailTrace.Line.Header
import MailTrace.Payload.Types
import MailTrace.Time.Instant

/-!
# Records

A log line that was read: its moment, who wrote it, what it tells of, the line itself and where it
was found.
-/

namespace MailTrace

open MailTrace.Time

/-- Where a line was found. Lines are numbered from 1. -/
structure Location where
  file : String
  line : Nat
deriving DecidableEq, Repr, Inhabited

/-- The name in place of a file that is not known. -/
def Location.unknownFile : String := "unknown"

/-- A log line that was read. -/
structure Record where
  time : Instant
  header : Header
  payload : Payload
  line : String
  location : Location
deriving DecidableEq, Repr

namespace Record

/-- The checksum of the line. -/
def sum (r : Record) : Int := Checksum.ofText r.line

end Record

/-- A reference to a stored log line: its moment and its checksum. -/
structure LineRef where
  time : Instant
  sum : Int
deriving DecidableEq, Repr, Inhabited

/-- The reference to the line of a record. -/
def Record.ref (r : Record) : LineRef := ⟨r.time, r.sum⟩

end MailTrace
