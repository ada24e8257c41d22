import MailTrace.Line.Fault
import MailTrace.Net.IPAddress
import MailTrace.Text.Blank

/-!
# Headers

The part of a line between the time and the text: the host, and the program with its daemon,
address and process number, as in `mail postfix-10.0.0.1/submission/smtpd[42]: `.
-/

namespace MailTrace

open MailTrace.Net MailTrace.Text

/-- Who wrote a line. -/
structure Header where
  host : String
  process : String
  daemon : String
  pid : Option UInt32
  processIp : Option IPAddress
deriving DecidableEq, Repr, Inhabited

namespace Header

/-- The last component of a daemon, which says what it does. -/
def lastComponent (daemon : List Char) : List Char :=
  match cutLast '/' daemon with
  | some (_, last) => last
  | none => daemon

/-- What the daemon does. -/
def daemonName (h : Header) : String := String.ofList (lastComponent h.daemon.toList)

/-- A tag with its process number in brackets taken off. -/
def splitPid (tag : List Char) : Option (List Char × Option UInt32) :=
  match before? [']'] tag with
  | none => some (tag, none)
  | some inner => do
    let (name, pid) ← cutLast '[' inner
    return (name, some (← unsigned32? pid))

/-- A process with the address after its last hyphen taken off, if it is one. -/
def splitAddress (process : List Char) : List Char × Option IPAddress :=
  match cutLast '-' process with
  | none => (process, none)
  | some (name, ip) =>
    match IPAddress.read? ip with
    | some ip => (name, some ip)
    | none => (process, none)

/-- The text after a header's colon: nothing, or what a blank precedes. -/
def textAfterColon? : List Char → Option (List Char)
  | [] => some []
  | ' ' :: text => some text
  | _ => none

/-- The program that a tag names, on a host. -/
def ofTag? (host tag : List Char) : Option Header := do
  if tag.isEmpty || tag.any isBlank then none
  else
    let (name, pid) ← splitPid tag
    let name := (after? ['/'] name).getD name
    let (process, daemon) := (cutAt '/' name).getD (name, [])
    let (process, ip) := splitAddress process
    if process.isEmpty then none
    else
      return ⟨String.ofList host, String.ofList process, String.ofList daemon, pid, ip⟩

/-- The header at the start of a text, with the text after it. -/
def take? (cs : List Char) : Option (Header × List Char) := do
  let (host, rest) ← cutAt ' ' cs
  if host.isEmpty then none
  else
    let (tag, rest) ← cutAt ':' rest
    let text ← textAfterColon? rest
    return (← ofTag? host tag, text)

end Header

end MailTrace
