import MailTrace.Config.Settings
import MailTrace.Service.Stores
import MailTrace.Source.Directory
import MailTrace.Source.Socket

/-!
# Running the service

The service reads the log that its configuration names and stops when it is at an end. Whatever it
read until then is in the stores, also when it ends with a fault.
-/

namespace MailTrace

open MailTrace.Time

/-- Where the service finds its log: files, the octets of its standard input, and those of the
connections to its socket. -/
structure Surroundings where
  disk : Disk
  input : List UInt8
  connections : List (List UInt8)

/-- Why the service does not run to its end. -/
inductive RunFault where
  /-- There is no such format. -/
  | format (f : FormatFault)
  /-- The log cannot be opened. -/
  | source (f : SourceFault)
  /-- The description of the socket is wrong. -/
  | socket (f : SocketFault)
  /-- A task failed. -/
  | task (f : TaskFault)
deriving DecidableEq, Repr

namespace RunFault

/-- What is said of a fault first. -/
def headline : RunFault → String
  | format _ => "invalid log format"
  | source f => f.message
  | socket f => f.message
  | task f => f.headline

/-- The wording of a fault. -/
def message : RunFault → String
  | format f => (format f).headline ++ ": " ++ f.message
  | source f => f.message
  | socket f => f.message
  | task f => f.message

end RunFault

namespace Service

/-- The name of the task that reads the log. -/
def sourceTask : String := "source"

/-- The cause when a file is opened that cannot be read. -/
def unreadableCause : String := "failed to read line"

/-- The lines of files, as they come to the reader. -/
def feed (file : FileLines) : Import.Feed :=
  { Import.Feed.ofLines file.lines with
    ending := if file.fails then .failed unreadableCause else .exhausted }

/-- The fault of a task that reads. -/
def readingFault (name : String) : Import.ReadFault → TaskFault
  | .brokenOff => .aborted name
  | .noLine cause => .failed name (Import.ReadFault.noLine cause).message

/-- The records of a feed, and the fault if it has no line or is broken off. -/
def readFeed (c : Config) (t : Transformer) (clock : Instant) (f : Import.Feed) :
    List Record × Except TaskFault Unit :=
  let (trace, result) := Import.read ⟨c.readerIdleTimeout, none⟩ t clock f
  (trace.records, result.mapError (readingFault sourceTask))

/-- The records of the log that a configuration names, and the fault of reading it. -/
def readSource (c : Config) (s : Surroundings) (t : Transformer) (clock : Instant) :
    Except RunFault (List Record × Except TaskFault Unit) :=
  let path := c.logPath.getD ""
  let ofFiles (lines : Except SourceFault FileLines) :
      Except RunFault (List Record × Except TaskFault Unit) :=
    (lines.mapError .source).map fun lines => readFeed c t clock (feed lines)
  match c.source with
  | .file => ofFiles (s.disk.fileLines path)
  | .directory => ofFiles (s.disk.logLines path c.logPatterns)
  | .stdin => .ok (readFeed c t clock (.ofLines (Lines.read none s.input)))
  | .socket =>
    match SocketAddress.read (c.socket.getD "") with
    | .error f => .error (.socket f)
    | .ok _ =>
      let served := Served.ofConnections c.connectionTimeout t clock s.connections
      .ok (served.records.flatten, .ok ())

/-- The writer that breaks off at its start, because no time passes between two of its commits or
cleanings. -/
def brokenWriter? (c : Config) : Option String :=
  if c.writer.commitInterval = 0 then some Stores.ledgerWriter
  else if c.retention.frequency = 0 then some Stores.archiveWriter
  else none

/-- The stores after a run, and the fault that ended it. A writer that breaks off at its start stops
the service before anything is read. Of two tasks that failed, the one that comes first in the flow
of the lines is told. -/
def run (c : Config) (s : Surroundings) (clock : Instant) : Stores × Except RunFault Unit :=
  match Format.find? Format.all c.logFormat with
  | none => (.empty, .error (.format (.unknownFormat c.logFormat)))
  | some f =>
    match readSource c s (.start f c.year? clock) clock with
    | .error fault => (.empty, .error fault)
    | .ok (records, reading) =>
      match brokenWriter? c with
      | some name => (.empty, .error (.task (.aborted name)))
      | none =>
        let (stores, writing) := Stores.ofRecords c.tracker records
        (stores, (Task.firstFailure [reading, writing]).mapError .task)

end Service

end MailTrace
