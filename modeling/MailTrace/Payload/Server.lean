import MailTrace.Line.Fault
import MailTrace.Line.Field

/-!
# Texts of the server

Clients connect, hand over messages, are refused and disconnect.
-/

namespace MailTrace.Server

open MailTrace.Text MailTrace.Field

/-- The value of an option, or the defect of a text that began like one of the server. -/
def need {α : Type} (defect : Defect) (value : Option α) : Except LineFault α :=
  require (.payload .server defect) value

/-- The client that a text names. -/
def client (cs : List Char) : Except LineFault Client :=
  need (.invalid "client" (String.ofList cs)) (client? cs)

/-- A command with one number, or with a number of successes and a total. -/
def count (item : List Char) : Except LineFault CommandCount :=
  need (.invalid "counter" (String.ofList item)) do
    let (command, value) ← cutAt '=' item
    let (success, total) := (cutAt '/' value).getD (value, value)
    return ⟨String.ofList command, ← unsigned32? success, ← unsigned32? total⟩

/-- A client disconnects. Its name ends at the first blank. -/
def disconnected (cs : List Char) : Except LineFault Payload := do
  let (name, counts) := (cutAt ' ' cs).getD (cs, [])
  let client ← client name
  return .disconnected client (← (words counts).mapM count)

/-- A client is gone after a command. -/
def lostConnection (cs : List Char) : Except LineFault Payload := do
  let (after, name) ← require .unsupported (cutText " from ".toList cs)
  return .lostConnection (String.ofList after) (← client name)

/-- A text about a queued message. -/
def aboutQueue (queue : String) (cs : List Char) : Except LineFault Payload :=
  match after? "reject: ".toList cs with
  | some reason => .ok (.rejected (some queue) (String.ofList reason))
  | none => do
    let rest ← require .unsupported (after? "client=".toList cs)
    let name := ((cutText [',', ' '] rest).map (·.1)).getD rest
    return .accepted queue (← client name)

/-- A text of the server. -/
def read (cs : List Char) : Except LineFault Payload := do
  if let some rest := after? "connect from ".toList cs then
    return .connected (← client rest)
  if let some rest := after? "disconnect from ".toList cs then
    disconnected rest
  else if let some rest := after? "lost connection after ".toList cs then
    lostConnection rest
  else if let some reason := after? "NOQUEUE: reject: ".toList cs then
    return .rejected none (String.ofList reason)
  else
    let (queue, rest) ← require .unsupported (queue? cs)
    aboutQueue queue rest

end MailTrace.Server
