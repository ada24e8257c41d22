import MailTrace.Record

/-!
# Deliveries

What became of a message at one recipient, as it is stored, and the later news that it bounced after
all.
-/

namespace MailTrace

open MailTrace.Net MailTrace.Text MailTrace.Time

/-- What became of a message at one recipient. -/
structure Delivery where
  host : String
  queue : String
  /-- The queue of the message that this one was made from. -/
  originQueue : Option String
  messageId : Option String
  status : Status
  direction : Direction
  queuedTime : Instant
  firstAttemptTime : Instant
  deliveryTime : Instant
  sender : Address
  recipient : Address
  origRecipient : Option Address
  relay : Relay
  dsn : String
  delay : Binary32
  extraMessage : String
  clientHost : Option String
  clientIp : Option IPAddress
  size : Option UInt64
  recipients : Option UInt32
  /-- The lines it was learnt from, oldest first. -/
  lines : List LineRef
deriving DecidableEq, Repr

/-- The news that a delivery reported as sent bounced at a later host. -/
structure BounceReport where
  time : Instant
  sender : Address
  recipient : Address
  dsn : String
  reportingMta : String
  message : String
  line : LineRef
deriving DecidableEq, Repr

/-- The news in a line, at the moment of the line. -/
def RelayedBounce.report (b : RelayedBounce) (line : LineRef) : BounceReport :=
  ⟨line.time, b.sender, b.recipient, b.dsn, b.reportingMta, b.message, line⟩

/-- A range of moments with both ends in it. -/
structure Interval where
  start : Instant
  stop : Instant
deriving DecidableEq, Repr

namespace Interval

/-- The moment lies in the range. -/
def contains (i : Interval) (t : Instant) : Bool := i.start ≤ t && t ≤ i.stop

/-- The second lies in the range, with the ends taken as whole seconds. -/
def containsSecond (i : Interval) (s : Int) : Bool := i.start.second ≤ s && s ≤ i.stop.second

end Interval

end MailTrace
