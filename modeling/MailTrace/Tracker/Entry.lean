import MailTrace.Delivery
import MailTrace.Table

/-!
# Open messages

What is known about a message while it is in a queue of a host: who sent it, its recipients and how
each of them stands, the lines that mention it, and the message it was made from.
-/

namespace MailTrace

open MailTrace.Net MailTrace.Time

/-- A queue id on a host. -/
structure QueueKey where
  host : String
  queue : String
deriving DecidableEq, Repr, Inhabited

/-- The queue id that a content filter on this host passed the message on to. -/
def Attempt.handOff? (a : Attempt) : Option String :=
  (a.requeued.filter (·.ip.isLoopback)).map (·.queue)

namespace Tracker

/-- The attempts so far at a recipient for whom each was put off. -/
structure Deferral where
  first : Instant
  last : Instant
  attempt : Attempt
  daemon : String
  lines : List LineRef
deriving DecidableEq, Repr

/-- One more attempt that was put off. -/
def Deferral.extend (d : Option Deferral) (attempt : Attempt) (daemon : String) (line : LineRef) :
    Deferral where
  first := (d.map (·.first)).getD line.time
  last := line.time
  attempt := attempt
  daemon := daemon
  lines := (d.map (·.lines)).getD [] ++ [line]

/-- How a recipient stands. -/
inductive Standing where
  /-- Every attempt was put off. -/
  | pending (d : Deferral)
  /-- The message went to another queue of this host, which carries on. -/
  | handedOff
  /-- A result was given. -/
  | done
deriving DecidableEq, Repr

/-- The attempts of a recipient who is still waiting. -/
def Standing.deferral? : Standing → Option Deferral
  | pending d => some d
  | handedOff | done => none

/-- A recipient who no longer waits. -/
def Standing.settle : Standing → Standing
  | pending _ => done
  | s => s

/-- An open message. -/
structure Entry where
  firstSeen : Instant
  lastActivity : Instant
  sender : Option Address
  messageId : Option String
  size : Option UInt64
  recipientCount : Option UInt32
  clientHost : Option String
  clientIp : Option IPAddress
  originQueue : Option String
  lines : List LineRef
  recipients : Table Address Standing
  /-- The message that this one was handed on from. -/
  parent : Option QueueKey
  /-- How many messages were handed on from this one. -/
  children : Nat
  /-- The message left its queue. -/
  removed : Bool

namespace Entry

/-- A message first seen at a moment. -/
def new (time : Instant) : Entry where
  firstSeen := time
  lastActivity := time
  sender := none
  messageId := none
  size := none
  recipientCount := none
  clientHost := none
  clientIp := none
  originQueue := none
  lines := []
  recipients := .empty
  parent := none
  children := 0
  removed := false

/-- The message is mentioned at a moment. -/
def seen (e : Entry) (time : Instant) : Entry :=
  { e with lastActivity := max e.lastActivity time, firstSeen := min e.firstSeen time }

/-- The message is active at a moment. -/
def active (e : Entry) (time : Instant) : Entry :=
  { e with lastActivity := max e.lastActivity time }

/-- A line belongs to the message. -/
def addLine (e : Entry) (line : LineRef) : Entry := { e with lines := e.lines ++ [line] }

/-- How a recipient stands, if one is known. -/
def standing? (e : Entry) (a : Address) : Option Standing := e.recipients.get? a

/-- A recipient stands in a new way. -/
def setStanding (e : Entry) (a : Address) (s : Standing) : Entry :=
  { e with recipients := e.recipients.upsert a s fun _ => s }

/-- The attempts at the recipients who are still waiting. -/
def pending (e : Entry) : List Deferral := e.recipients.rows.filterMap (·.2.deferral?)

/-- No recipient waits any longer. -/
def settle (e : Entry) : Entry :=
  { e with recipients := e.recipients.map fun _ s => s.settle }

/-- A message that was handed on from this one is gone. -/
def dropChildren (e : Entry) (n : Nat) : Entry := { e with children := e.children - n }

end Entry

end Tracker

end MailTrace
