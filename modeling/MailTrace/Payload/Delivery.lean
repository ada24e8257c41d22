import MailTrace.Line.Fault
import MailTrace.Line.Field

/-!
# Texts of the delivery programs

One line for each attempt and recipient, as in
`Q: to=<r>, relay=host[ip]:25, delay=1, delays=0/0/0/1, dsn=2.0.0, status=sent (250 ok)`.
-/

namespace MailTrace.Attempt

open MailTrace.Net MailTrace.Text MailTrace.Field

/-- The refusal of a text that began like an attempt. -/
def refuse {α : Type} (defect : Defect) : Except LineFault α := .error (.payload .delivery defect)

/-- The value of an option, or the defect of a text that began like an attempt. -/
def need {α : Type} (defect : Defect) (value : Option α) : Except LineFault α :=
  require (.payload .delivery defect) value

/-- The address of a field, with an optional comma after it. -/
def takeRecipient (field : String) (cs : List Char) : Except LineFault (Address × List Char) := do
  let (address, rest) ← need (.missing field) (address? cs)
  return (address, skipComma rest)

/-- The named value of a field. -/
def takeValue (field : String) (cs : List Char) : Except LineFault (List Char × List Char) :=
  need (.missing field) (named? (field ++ "=") cs)

/-- The next hop with a name, with an address or a path in brackets and what follows them: a port, or
none. -/
def relayOf (name inner tail : List Char) : Except LineFault Relay := do
  let port ← match tail with
    | ':' :: port => need (.invalid "relay port" (String.ofList port)) (unsigned16? port)
    | _ => .ok 0
  match IPAddress.read? inner with
  | some ip => return ⟨String.ofList name, some ip, none, port⟩
  | none =>
    return ⟨String.ofList name, none, if inner.isEmpty then none else some (String.ofList inner),
      port⟩

/-- The next hop: the word none, a bare name, or a name with an address or a path in brackets and
an optional port. -/
def readRelay (cs : List Char) : Except LineFault Relay :=
  if cs = "none".toList then .ok Relay.none
  else
    match cutAt '[' cs with
    | none => .ok { Relay.none with name := String.ofList cs }
    | some (name, rest) => do
      let (inner, tail) ← need (.invalid "relay" (String.ofList cs)) (cutLast ']' rest)
      relayOf name inner tail

/-- A number of seconds. -/
def readSeconds (cs : List Char) : Except LineFault Binary32 :=
  need (.invalid "number" (String.ofList cs)) (Binary32.read? cs)

/-- Four numbers with slashes between them. -/
def readDelays (cs : List Char) : Except LineFault Delays := do
  match ← (pieces (· == '/') cs).mapM readSeconds with
  | [smtpd, cleanup, qmgr, smtp] => return ⟨smtpd, cleanup, qmgr, smtp⟩
  | _ => refuse (.invalid "delays" (String.ofList cs))

/-- The answer of a content filter on a port of its own that queued the message again. The answer
of a remote host, which names no address, is not one. -/
def requeued? (extra : List Char) : Option Requeued := do
  let inner ← before? [')'] (← after? ['('] extra)
  let (code, rest) ← cutAt ' ' inner
  let (dsn, rest) ← cutAt ' ' rest
  let rest ← after? "from MTA(smtp:[".toList rest
  let (ip, rest) ← cutText [']', ':'] rest
  let (port, rest) ← cutText [')', ':', ' '] rest
  let (_, queue) ← cutText "queued as ".toList rest
  if queue.isEmpty then none
  else
    return {
      smtpCode := ← unsigned16? code
      dsn := String.ofList dsn
      ip := ← IPAddress.read? ip
      port := ← unsigned16? port
      queue := String.ofList queue }

/-- The address of the original recipient, where it is given. -/
def takeOrigRecipient? (cs : List Char) : Except LineFault (Option Address × List Char) :=
  match after? "orig_to=".toList cs with
  | none => .ok (none, cs)
  | some rest => do
    let (address, rest) ← takeRecipient "orig_to" rest
    return (some address, rest)

/-- An attempt. -/
def read (cs : List Char) : Except LineFault Attempt := do
  let (queue, rest) ← require .unsupported (queue? cs)
  let rest ← require .unsupported (after? "to=".toList rest)
  let (recipient, rest) ← takeRecipient "to" rest
  let (origTo, rest) ← takeOrigRecipient? rest
  let (relayText, rest) ← takeValue "relay" rest
  let (delayText, rest) ← takeValue "delay" rest
  let (delaysText, rest) ← takeValue "delays" rest
  let (dsn, rest) ← takeValue "dsn" rest
  let rest ← need (.missing "status") (after? "status=".toList rest)
  let (name, extra) := (cutAt ' ' rest).getD (rest, [])
  let status ← need (.unknownStatus (String.ofList name)) (Status.ofName? (String.ofList name))
  let extra := trim extra
  return {
    queue
    recipient
    origRecipient := origTo
    relay := ← readRelay relayText
    delay := ← readSeconds delayText
    delays := ← readDelays delaysText
    dsn := String.ofList dsn
    status
    extraMessage := String.ofList extra
    requeued := requeued? extra }

end MailTrace.Attempt
