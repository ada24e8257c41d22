import MailTrace.Store.Archive
import MailTrace.Store.Facts
import MailTrace.Store.Ledger
import MailTrace.Task
import MailTrace.Tracker.State

/-!
# What records lead to

Every record goes to the tracker, whose findings are written to the ledger, and to the archive, and
tells facts. When all records are through, the tracker closes what is open, and the writers work off
their queues.
-/

namespace MailTrace

open MailTrace.Time

namespace Tracker

/-- What is found out from records in order, and when everything is closed after them. -/
def findings (settings : Settings) (records : List Record) : List Finding :=
  let (s, found) := State.empty.run settings records
  found ++ s.closeAll.2

/-- The write that a finding leads to. -/
def Finding.write : Finding → Ledger.Write
  | delivery d => .store d
  | replacement d => .replace d
  | relayedBounce b => .bounce b

end Tracker

/-- The stores, and the latest moment of a record. -/
structure Stores where
  archive : Archive
  ledger : Ledger
  facts : Facts
  latest : Option Instant

namespace Stores

/-- The name of the writer of the ledger. -/
def ledgerWriter : String := "deliverydb"

/-- The name of the writer of the archive. -/
def archiveWriter : String := "rawlogs"

/-- Nothing is kept. -/
def empty : Stores := ⟨.empty, .empty, .empty, none⟩

/-- The archive of the lines of records. -/
def archiveOf (records : List Record) : Archive :=
  ((Writer.start .empty).drain (records.map Archive.insertion)).1.committed

/-- The ledger that findings are written to, and the fault of its writer if one cannot be. -/
def ledgerOf (found : List Tracker.Finding) : Ledger × Except TaskFault Unit :=
  let (w, result) := (Writer.start .empty).drain (found.map fun f => f.write.action)
  (w.committed, result.mapError fun cause =>
    .failed ledgerWriter (WriteFault.failed ledgerWriter cause).message)

/-- What records lead to, and the first fault of a writer. -/
def ofRecords (settings : Tracker.Settings) (records : List Record) :
    Stores × Except TaskFault Unit :=
  let (ledger, result) := ledgerOf (Tracker.findings settings records)
  (⟨archiveOf records, ledger, records.foldl Facts.note .empty, (records.map (·.time)).max?⟩, result)

/-- The archived lines of a delivery, none for one that is not kept. -/
def textsOf (s : Stores) (d : KeptDelivery) : List (Option String) :=
  d.lines.map fun (second, sum) => s.archive.line? second sum

end Stores

end MailTrace
