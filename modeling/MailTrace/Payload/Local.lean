import MailTrace.Line.Fault
import MailTrace.Line.Field

/-!
# Texts of the local programs

The programs that queue, submit and bounce messages on this host, and the one that starts them all.
-/

namespace MailTrace

open MailTrace.Text MailTrace.Field

namespace Cleanup

/-- The message id of a value, and whether the sender wrote it badly: it is empty, its bracket stays
open, or text follows the closing bracket. -/
def messageId (value : List Char) : List Char × Bool :=
  match value with
  | [] => ([], true)
  | '<' :: inner =>
    match cutAt '>' inner with
    | some (id, rest) => (id, !rest.isEmpty)
    | none => (inner, true)
  | _ => (value, false)

/-- A text of the program that queues messages. -/
def read (cs : List Char) : Except LineFault Payload := do
  let (queue, rest) ← require .unsupported (queue? cs)
  match after? "message-id=".toList rest with
  | some value =>
    let (id, corrupted) := messageId value
    return .messageId { queue, messageId := String.ofList id, corrupted }
  | none =>
    let reason ← require .unsupported (after? "milter-reject: ".toList rest)
    return .milterRejected queue (String.ofList reason)

end Cleanup

namespace Pickup

/-- A text of the program that takes messages submitted on this host. -/
def read (cs : List Char) : Except LineFault Payload := do
  let (queue, rest) ← require .unsupported (queue? cs)
  let rest ← require .unsupported (after? "uid=".toList rest)
  let (uid, rest) ← require .unsupported (cutAt ' ' rest)
  let (sender, _) ← require (.payload .pickup .invalidSender)
    ((after? "from=".toList rest).bind address?)
  let uid ← require (.payload .pickup (.invalid "uid" (String.ofList uid))) (unsigned32? uid)
  return .pickup { queue, uid, sender }

end Pickup

namespace Bounce

/-- A text of the program that writes bounce messages. -/
def read (cs : List Char) : Except LineFault Payload := do
  let (queue, rest) ← require .unsupported (queue? cs)
  let child ← require .unsupported (after? "sender non-delivery notification: ".toList rest)
  if isQueueId child then return .bounceCreated queue (String.ofList child)
  else .error (.payload .bounce (.invalid "queue" (String.ofList child)))

end Bounce

namespace Master

/-- A text of the program that starts all others. -/
def read (cs : List Char) : Except LineFault Payload := do
  let rest ← require .unsupported (after? "daemon started -- version ".toList cs)
  let (version, configuration) := (cutText ", configuration ".toList rest).getD (rest, [])
  if version.isEmpty then .error (.payload .master .emptyVersion)
  else return .version (String.ofList version) (String.ofList configuration)

end Master

end MailTrace
