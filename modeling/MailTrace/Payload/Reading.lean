import MailTrace.Line.Header
import MailTrace.Payload.Delivery
import MailTrace.Payload.Local
import MailTrace.Payload.QueueManager
import MailTrace.Payload.Relayed
import MailTrace.Payload.Server

/-!
# Reading a text

The program that wrote a line decides how its text is read.
-/

namespace MailTrace

open MailTrace.Text

namespace Agent

/-- A process of the mail server: the plain one, a named instance, or the one that a content filter
hands messages back to. -/
def isMailProcess (process : String) : Bool :=
  process == "postfix" || (after? "postfix-".toList process.toList).isSome ||
    process == "amavis-inject"

/-- The agent of a daemon of the mail server. -/
def ofDaemonName? (name : String) : Option Agent :=
  match name with
  | "smtp" | "lmtp" | "pipe" | "local" | "virtual" => some .delivery
  | "qmgr" => some .queueManager
  | "smtpd" => some .server
  | "cleanup" => some .cleanup
  | "pickup" => some .pickup
  | "bounce" => some .bounce
  | "master" => some .master
  | _ => none

/-- The agent that wrote a line. -/
def ofHeader? (h : Header) : Option Agent :=
  if h.process == "lightmeter" && h.daemon == "relayed-bounce" then some .relay
  else if isMailProcess h.process then ofDaemonName? h.daemonName
  else none

/-- The event that a text of the agent tells of. -/
def read (agent : Agent) (text : List Char) : Except LineFault Payload :=
  match agent with
  | .delivery => (Attempt.read text).map .attempt
  | .queueManager => QueueManager.read text
  | .server => Server.read text
  | .cleanup => Cleanup.read text
  | .pickup => Pickup.read text
  | .bounce => Bounce.read text
  | .master => Master.read text
  | .relay => (RelayedBounce.read text).map .relayedBounce

end Agent

/-- The event that a text under a header tells of. -/
def Payload.read (h : Header) (text : List Char) : Except LineFault Payload :=
  match Agent.ofHeader? h with
  | some agent => agent.read text
  | none => .error .unsupported

end MailTrace
