import MailTrace.Line.Fault
import MailTrace.Line.Field

/-!
# Texts of the queue manager

A message enters the active queue, expires in it, or leaves it.
-/

namespace MailTrace.QueueManager

open MailTrace.Text MailTrace.Field

/-- The value of an option, or the defect of a text that began like one of the queue manager. -/
def need {α : Type} (defect : Defect) (value : Option α) : Except LineFault α :=
  require (.payload .queueManager defect) value

/-- The size and the number of recipients of a message that enters the active queue. -/
def queued (queue : String) (sender : Address) (size rest : List Char) :
    Except LineFault MailQueued := do
  let count ← require .unsupported
    ((after? "nrcpt=".toList rest).bind (before? " (queue active)".toList))
  return {
    queue
    sender
    size := ← need (.invalid "size" (String.ofList size)) (unsigned64? size)
    recipients := ← need (.invalid "nrcpt" (String.ofList count)) (unsigned32? count) }

/-- Whether a message was forced to expire, by the start of what is said about it. -/
def forced? (message : List Char) : Option Bool :=
  if (after? "force-expired, ".toList message).isSome then some true
  else if (after? "expired, ".toList message).isSome then some false
  else none

/-- A text of the queue manager. -/
def read (cs : List Char) : Except LineFault Payload := do
  let (queue, rest) ← require .unsupported (queue? cs)
  if rest = "removed".toList then return .removed queue
  let rest ← require .unsupported (after? "from=".toList rest)
  let (sender, rest) ← need .invalidSender (address? rest)
  let rest := skipComma rest
  match named? "size=" rest with
  | some (size, rest) => return .queued (← queued queue sender size rest)
  | none =>
    let message ← require .unsupported (after? "status=".toList rest)
    let forced ← require .unsupported (forced? message)
    return .expired { queue, sender, forced, message := String.ofList message }

end MailTrace.QueueManager
