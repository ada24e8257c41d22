import MailTrace.Config.Settings
import MailTrace.Service.Stores
import MailTrace.Store.Bounce
import MailTrace.Store.Keeper
import MailTrace.Tracker.Closing

/-!
# The flow of records

Records go from readers to the tracker and to the archive, and from the tracker findings go to the
ledger. Every one of these is a task of its own, and what it is sent waits in a queue. The service
stops them one after the other, each only when the one before is at its end. `Stores.ofRecords` says
what records lead to; here several moves can be possible at once, and the scheduler chooses among them.
-/

namespace MailTrace

open MailTrace.Time

/-! ## The tracker -/

/-- The task of the tracker. -/
structure TrackerTask where
  phase : Task.Phase
  /-- The records that wait. -/
  queue : List Record
  state : Tracker.State
  /-- The findings that are to be sent to the ledger yet. -/
  telling : List Tracker.Finding
  /-- Every message was closed. -/
  closed : Bool

namespace TrackerTask

/-- Before the first record. -/
def start : TrackerTask := ⟨.working, [], .empty, [], false⟩

/-- A record is sent. It is dropped if the tracker takes no more. -/
def receive (t : TrackerTask) (r : Record) : TrackerTask :=
  if t.phase = .working then { t with queue := t.queue ++ [r] } else t

end TrackerTask

/-! ## The keepers -/

namespace Ledger

/-- How often a bounce that matches no delivery is tried again. -/
def bounceRetries : Nat := 5

/-- A write to the ledger, and how often it is tried again if it is a bounce. -/
structure Job where
  write : Write
  retries : Nat
deriving DecidableEq, Repr

namespace Job

/-- The job that a finding leads to. -/
def ofFinding (f : Tracker.Finding) : Job := ⟨f.write, bounceRetries⟩

/-- The job that follows when a job is done. -/
def again? (l : Ledger) (j : Job) : Option Job :=
  match j.write with
  | .bounce b => (l.attempt ⟨b, j.retries⟩).2.map fun a => ⟨.bounce a.report, a.retries⟩
  | .store _ | .replace _ => none

end Job

/-- What the keeper of the ledger does. -/
def duties (c : Config) : Duties Ledger Job :=
  ⟨c.writer.queueCapacity, fun j => j.write.action, Job.again?, none⟩

end Ledger

/-- What the keeper of the archive does. -/
def Archive.duties (c : Config) : Duties Archive Record :=
  ⟨c.rawQueueCapacity, Archive.insertion, fun _ _ => none,
    some (Archive.cleaning c.retention.maxAge c.retention.batchSize)⟩

/-! ## The flow -/

/-- A reader of the log. A connection is a reader of its own. -/
structure Inlet where
  /-- The records that it has yet to read. -/
  coming : List Record
  /-- The record that it sent to the tracker and has yet to send to the archive. -/
  passing : Option Record

/-- The tasks of the service, in the order in which they are stopped. The announcer is stopped after
them, and nothing of it comes to a store. -/
inductive Component where
  | source | tracker | ledger | archive
deriving DecidableEq, Repr

/-- The place of a task in the order of stopping. -/
def Component.rank : Component → Nat
  | source => 0
  | tracker => 1
  | ledger => 2
  | archive => 3

/-- How far the stopping of the service is. -/
inductive Stage where
  | running
  /-- A task was asked to stop, and is waited for. -/
  | stopping (c : Component)
  | stopped
deriving DecidableEq, Repr

namespace Stage

/-- The task that is stopped after another. -/
def after : Component → Stage
  | .source => stopping .tracker
  | .tracker => stopping .ledger
  | .ledger => stopping .archive
  | .archive => stopped

/-- A task was asked to stop. -/
def Asks : Stage → Component → Prop
  | running, _ => False
  | stopping d, c => c.rank ≤ d.rank
  | stopped, _ => True

/-- A task was waited for. -/
def Past : Stage → Component → Prop
  | running, _ => False
  | stopping d, c => c.rank < d.rank
  | stopped, _ => True

end Stage

/-- The tasks, what is on its way between them, and what was published. -/
structure Flow where
  stage : Stage
  source : Task.Phase
  inlets : List Inlet
  tracker : TrackerTask
  ledger : Keeper Ledger Ledger.Job
  archive : Keeper Archive Record
  /-- The records that were published to the tracker, in order, each with the number of its reader. -/
  toTracker : List (Nat × Record)
  /-- The records that were published to the archive. -/
  toArchive : List (Nat × Record)

namespace Flow

/-- Before the first record. Each reader is given the records it has to read. -/
def start (given : List (List Record)) : Flow where
  stage := .running
  source := .working
  inlets := given.map fun records => ⟨records, none⟩
  tracker := .start
  ledger := .start .empty
  archive := .start .empty
  toTracker := []
  toArchive := []

/-- Where a task stands. -/
def phase (f : Flow) : Component → Task.Phase
  | .source => f.source
  | .tracker => f.tracker.phase
  | .ledger => f.ledger.phase
  | .archive => f.archive.phase

/-- Nobody can send to the ledger any more, and nothing waits. -/
def LedgerDeserted (f : Flow) : Prop :=
  f.tracker.phase.Over ∧ f.ledger.queue = [] ∧ f.ledger.later = []

/-- One move. A reader publishes a record to the tracker and then to the archive, for which it waits
if there is no room; stopping does not come in between. The source is at its end when all its readers
are, and one that fails breaks them off. The tracker looks at its queue again only when all it had to
tell is told. Stopping can begin at any moment. -/
inductive Step (c : Config) : Flow → Flow → Prop where
  | publish {f : Flow} {i : Nat} {inlet : Inlet} {r : Record} {rest : List Record}
      (hsource : f.source = .working) (hinlet : f.inlets[i]? = some inlet)
      (hfree : inlet.passing = none) (hcoming : inlet.coming = r :: rest) :
      Step c f { f with
        inlets := f.inlets.set i ⟨rest, some r⟩, tracker := f.tracker.receive r,
        toTracker := f.toTracker ++ [(i, r)] }
  | pass {f : Flow} {i : Nat} {inlet : Inlet} {r : Record} (hsource : f.source = .working)
      (hinlet : f.inlets[i]? = some inlet) (hpassing : inlet.passing = some r)
      (hroom : f.archive.HasRoom (Archive.duties c)) :
      Step c f { f with
        inlets := f.inlets.set i { inlet with passing := none }, archive := f.archive.push r,
        toArchive := f.toArchive ++ [(i, r)] }
  | passRefused {f : Flow} {i : Nat} {inlet : Inlet} {r : Record} (hsource : f.source = .working)
      (hinlet : f.inlets[i]? = some inlet) (hpassing : inlet.passing = some r)
      (hdeaf : f.archive.phase ≠ .working) :
      Step c f { f with
        inlets := f.inlets.set i { inlet with passing := none },
        toArchive := f.toArchive ++ [(i, r)] }
  | sourceEnds {f : Flow} (hsource : f.source = .working)
      (hidle : ∀ inlet ∈ f.inlets, inlet.passing = none)
      (hend : f.stage.Asks .source ∨ ∀ inlet ∈ f.inlets, inlet.coming = []) :
      Step c f { f with source := .ended }
  | sourceFails {f : Flow} (hsource : f.source = .working) : Step c f { f with source := .failed }
  | track {f : Flow} {r : Record} {rest : List Record} {order : List QueueKey}
      (hactive : f.tracker.phase.Active) (htold : f.tracker.telling = [])
      (hqueue : f.tracker.queue = r :: rest)
      (horder : order.Perm (f.tracker.state.closedAfter c.tracker r)) :
      Step c f { f with
        tracker := { f.tracker with
          queue := rest, state := (f.tracker.state.handle c.tracker r).1,
          telling := f.tracker.state.tellIn r order } }
  | tell {f : Flow} {x : Tracker.Finding} {more : List Tracker.Finding}
      (hactive : f.tracker.phase.Active) (htelling : f.tracker.telling = x :: more)
      (hroom : f.ledger.HasRoom (Ledger.duties c)) :
      Step c f { f with
        tracker := { f.tracker with telling := more }, ledger := f.ledger.push (.ofFinding x) }
  | tellRefused {f : Flow} {x : Tracker.Finding} {more : List Tracker.Finding}
      (hactive : f.tracker.phase.Active) (htelling : f.tracker.telling = x :: more)
      (hdeaf : f.ledger.phase ≠ .working) :
      Step c f { f with tracker := { f.tracker with phase := .failed } }
  | trackerStops {f : Flow} (hphase : f.tracker.phase = .working) (htold : f.tracker.telling = [])
      (hasked : f.stage.Asks .tracker) :
      Step c f { f with tracker := { f.tracker with phase := .draining } }
  | trackerCloses {f : Flow} {order : List QueueKey} (hphase : f.tracker.phase = .draining)
      (hopen : f.tracker.closed = false) (htold : f.tracker.telling = [])
      (hqueue : f.tracker.queue = []) (horder : order.Perm f.tracker.state.entries.keys) :
      Step c f { f with
        tracker := { f.tracker with
          state := f.tracker.state.closeAll.1, telling := f.tracker.state.closeIn order,
          closed := true } }
  | trackerEnds {f : Flow} (hphase : f.tracker.phase = .draining) (hclosed : f.tracker.closed = true)
      (htold : f.tracker.telling = []) :
      Step c f { f with tracker := { f.tracker with phase := .ended } }
  | ledger {f : Flow} {k : Keeper Ledger Ledger.Job}
      (hstep : f.ledger.Step (Ledger.duties c) (f.stage.Asks .ledger ∨ f.LedgerDeserted) k) :
      Step c f { f with ledger := k }
  | archive {f : Flow} {k : Keeper Archive Record}
      (hstep : f.archive.Step (Archive.duties c) (f.stage.Asks .archive) k) :
      Step c f { f with archive := k }
  | shutdown {f : Flow} (hstage : f.stage = .running) : Step c f { f with stage := .stopping .source }
  | next {f : Flow} {task : Component} (hstage : f.stage = .stopping task)
      (hover : (f.phase task).Over) : Step c f { f with stage := .after task }

end Flow

end MailTrace
