import MailTrace.Import.Reader
import MailTrace.Source.Address

/-!
# Taking a log from connections

Every connection is read on its own, with a transformer of its own. Only the first one announces how
the import goes.
-/

namespace MailTrace

open MailTrace.Time

/-- Why nobody can connect to an address. Connections come from the host itself, which has no
network. -/
def SocketAddress.connectFault? : SocketAddress → Option String
  | unix _ => none
  | tcp _ => some "Network is unreachable (os error 101)"

/-- What connections lead to: what was announced, and the records of each. -/
structure Served where
  announcements : List Import.Announcement
  records : List (List Record)
deriving DecidableEq, Repr

/-- What one connection leads to. -/
def readConnection (timeout : Duration) (t : Transformer) (clock : Instant) (octets : List UInt8) :
    Import.Trace :=
  (Import.read ⟨timeout, none⟩ t clock (.ofLines (Lines.read none octets))).1

/-- What connections lead to that come one after the other. -/
def Served.ofConnections (timeout : Duration) (t : Transformer) (clock : Instant)
    (connections : List (List UInt8)) : Served :=
  let traces := connections.map (readConnection timeout t clock)
  ⟨((traces.head?).map (·.announcements)).getD [], traces.map (·.records)⟩

end MailTrace
