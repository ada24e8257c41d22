import MailTrace.Mail.Address
import MailTrace.Mail.Status
import MailTrace.Net.IPAddress
import MailTrace.Text.Binary32

/-!
# Events of a mail log

The events that the programs of a mail server log: a message is accepted, queued, attempted,
expired, removed, bounced.
-/

namespace MailTrace

open MailTrace.Net MailTrace.Text

/-- The time spent before the queue manager, in it, in setting up the connection and in sending. -/
structure Delays where
  smtpd : Binary32
  cleanup : Binary32
  qmgr : Binary32
  smtp : Binary32
deriving DecidableEq, Repr, Inhabited

/-- The next hop of a delivery: a host with its address, a local path, a bare name, or none. -/
structure Relay where
  name : String
  ip : Option IPAddress
  path : Option String
  port : UInt16
deriving DecidableEq, Repr, Inhabited

/-- No next hop. -/
def Relay.none : Relay := ⟨"", .none, .none, 0⟩

/-- The answer of a content filter that queued the message again under another queue id. -/
structure Requeued where
  smtpCode : UInt16
  dsn : String
  ip : IPAddress
  port : UInt16
  queue : String
deriving DecidableEq, Repr

/-- One attempt to deliver to one recipient, with its outcome. -/
structure Attempt where
  queue : String
  recipient : Address
  origRecipient : Option Address
  relay : Relay
  delay : Binary32
  delays : Delays
  dsn : String
  status : Status
  extraMessage : String
  requeued : Option Requeued
deriving DecidableEq, Repr

/-- A message enters the active queue. -/
structure MailQueued where
  queue : String
  sender : Address
  size : UInt64
  recipients : UInt32
deriving DecidableEq, Repr

/-- A message stayed too long in the queue, or was made to expire. -/
structure MessageExpired where
  queue : String
  sender : Address
  forced : Bool
  message : String
deriving DecidableEq, Repr

/-- The host at the other end of a connection. -/
structure Client where
  host : String
  ip : Option IPAddress
deriving DecidableEq, Repr

/-- How often a command was used in a connection, and how often with success. -/
structure CommandCount where
  command : String
  success : UInt32
  total : UInt32
deriving DecidableEq, Repr

/-- A message id noted for a queued message. It is marked when the sender wrote it badly. -/
structure MessageIdNoted where
  queue : String
  messageId : String
  corrupted : Bool
deriving DecidableEq, Repr

/-- A message submitted on this host. -/
structure Pickup where
  queue : String
  uid : UInt32
  sender : Address
deriving DecidableEq, Repr

/-- A bounce reported by a later host after this one had sent the message. -/
structure RelayedBounce where
  queue : Option String
  dsn : String
  sender : Address
  recipient : Address
  reportingMta : String
  message : String
deriving DecidableEq, Repr

/-- What a log line says. -/
inductive Payload where
  /-- An attempt to deliver to one recipient. -/
  | attempt (a : Attempt)
  /-- A message enters the active queue. -/
  | queued (q : MailQueued)
  /-- A message leaves the queue. -/
  | removed (queue : String)
  /-- A message expires in the queue. -/
  | expired (e : MessageExpired)
  /-- A client connects. -/
  | connected (client : Client)
  /-- A client disconnects, with what it did. -/
  | disconnected (client : Client) (counts : List CommandCount)
  /-- A client is gone after a command. -/
  | lostConnection (after : String) (client : Client)
  /-- A message is accepted from a client. -/
  | accepted (queue : String) (client : Client)
  /-- A command is refused, before or after a message got its queue id. -/
  | rejected (queue : Option String) (extraMessage : String)
  /-- A message id is noted. -/
  | messageId (m : MessageIdNoted)
  /-- A filter refuses a message. -/
  | milterRejected (queue : String) (extraMessage : String)
  /-- A message is submitted on this host. -/
  | pickup (p : Pickup)
  /-- A bounce message is queued for the sender. -/
  | bounceCreated (queue child : String)
  /-- The mail system starts. -/
  | version (version configuration : String)
  /-- A later host reports a bounce. -/
  | relayedBounce (b : RelayedBounce)
  /-- Anything else. -/
  | unsupported
deriving DecidableEq, Repr

namespace Payload

/-- The name of the kind of event. -/
def kind : Payload → String
  | attempt _ => "smtp_sent_status"
  | queued _ => "mail_queued"
  | removed _ => "queue_removed"
  | expired _ => "message_expired"
  | connected _ => "smtpd_connect"
  | disconnected .. => "smtpd_disconnect"
  | lostConnection .. => "smtpd_lost_connection"
  | accepted .. => "mail_accepted"
  | rejected .. => "smtpd_reject"
  | messageId _ => "cleanup_message_accepted"
  | milterRejected .. => "cleanup_milter_reject"
  | pickup _ => "pickup"
  | bounceCreated .. => "bounce_created"
  | version .. => "version"
  | relayedBounce _ => "relayed_bounce"
  | unsupported => "unsupported"

/-- The queue id that the event is about. -/
def queue? : Payload → Option String
  | attempt a => some a.queue
  | queued q => some q.queue
  | removed queue => some queue
  | expired e => some e.queue
  | accepted queue _ => some queue
  | rejected queue _ => queue
  | messageId m => some m.queue
  | milterRejected queue _ => some queue
  | pickup p => some p.queue
  | bounceCreated queue _ => some queue
  | relayedBounce b => b.queue
  | connected _ | disconnected .. | lostConnection .. | version .. | unsupported => none

end Payload

end MailTrace
