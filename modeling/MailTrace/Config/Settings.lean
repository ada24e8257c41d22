import MailTrace.Import.Sync
import MailTrace.Source.Address
import MailTrace.Source.Rotation
import MailTrace.Text.Blank
import MailTrace.Tracker.State
import MailTrace.Word

/-!
# Settings of the service

What a configuration says, with its defaults. A configuration is brought into normal form and then
checked: it has to name where its lines come from.
-/

namespace MailTrace

open MailTrace.Text MailTrace.Time

/-- Where the lines come from. -/
inductive SourceKind where
  | file | directory | socket | stdin
deriving DecidableEq, Repr

namespace SourceKind

/-- The word for a kind in a configuration. -/
def name : SourceKind → String
  | file => "file"
  | directory => "directory"
  | socket => "socket"
  | stdin => "stdin"

/-- The name of a kind in messages. -/
def title : SourceKind → String
  | file => "File"
  | directory => "Directory"
  | socket => "Socket"
  | stdin => "Stdin"

/-- The kind of a word. -/
def ofName? (word : String) : Option SourceKind :=
  [file, directory, socket, stdin].find? (·.name == word)

end SourceKind

/-- How long raw lines are kept, and how many are deleted how often. -/
structure RetentionSettings where
  maxAge : Duration
  batchSize : Int
  frequency : Duration
deriving DecidableEq, Repr

/-- How often a store commits, and how many writes may wait for it. -/
structure WriterSettings where
  commitInterval : Duration
  queueCapacity : Nat
deriving DecidableEq, Repr

/-- The settings of the service. -/
structure Config where
  workspace : String
  source : SourceKind
  logPath : Option String
  socket : Option String
  logFormat : String
  logYear : Int
  follow : Bool
  logPatterns : List String
  readerIdleTimeout : Duration
  connectionTimeout : Duration
  retention : RetentionSettings
  tracker : Tracker.Settings
  announcer : Import.SyncSettings
  writer : WriterSettings
deriving DecidableEq, Repr

/-- Why a configuration cannot be used. -/
inductive ConfigFault where
  /-- The document is not one of settings. -/
  | document
  /-- The workspace is empty. -/
  | emptyWorkspace
  /-- A file or directory is wanted and not named. -/
  | needsLogPath (source : SourceKind)
  /-- A socket is wanted and not named. -/
  | needsSocket
  /-- The description of the socket is wrong. -/
  | socket (fault : SocketFault)
  /-- The year is negative. -/
  | negativeYear (year : Int)
deriving DecidableEq, Repr

/-- The wording of a fault. -/
def ConfigFault.message : ConfigFault → String
  | document => "failed to parse YAML config"
  | emptyWorkspace => "config `workspace` is empty"
  | needsLogPath source => "config source `" ++ source.title ++ "` needs `log_path`"
  | needsSocket => "config source `socket` needs `socket`"
  | socket fault => fault.message
  | negativeYear year => "config `log_year` must not be negative: " ++ toString year

/-- What a fault of a socket is said about. -/
def ConfigFault.socketContext : String := "invalid config `socket`"

namespace Config

/-- The default format. -/
def defaultFormat : String := "default"

/-- The settings when nothing is said, in a working directory. -/
def default (workingDirectory : String) : Config where
  workspace := Path.join workingDirectory "lightmeter_workspace"
  source := .directory
  logPath := none
  socket := none
  logFormat := defaultFormat
  logYear := 0
  follow := false
  logPatterns := LogFile.defaultBases
  readerIdleTimeout := .ofSeconds 10
  connectionTimeout := .ofSeconds 10
  retention := ⟨.ofSeconds (90 * 86400), 10000, .ofSeconds 30⟩
  tracker := .default
  announcer := .default
  writer := ⟨.ofMilliseconds 500, 1024⟩

/-! ## Normal form -/

/-- A text without the blanks around it. -/
def strip (t : String) : String := String.ofList (trim t.toList)

/-- A text without the blanks around it, or none if nothing is left. -/
def nonBlank (t : String) : Option String := if (strip t).isEmpty then none else some (strip t)

/-- The names of log files that are not blank, or the default ones. -/
def normalPatterns (patterns : List String) : List String :=
  let kept := patterns.filterMap nonBlank
  if kept.isEmpty then LogFile.defaultBases else kept

/-- The settings without needless blanks, and with at least one row per batch and one write per
queue. -/
def normalize (c : Config) : Config :=
  { c with
    logFormat := (nonBlank c.logFormat).getD defaultFormat
    socket := c.socket.bind nonBlank
    logPatterns := normalPatterns c.logPatterns
    retention := { c.retention with batchSize := max c.retention.batchSize 1 }
    writer := { c.writer with queueCapacity := max c.writer.queueCapacity 1 } }

/-! ## Checks -/

/-- The source is named where it has to be. -/
def checkSource (c : Config) : Except ConfigFault Unit :=
  match c.source with
  | .file | .directory => if c.logPath.isNone then .error (.needsLogPath c.source) else .ok ()
  | .socket =>
    match c.socket with
    | none => .error .needsSocket
    | some description =>
      match SocketAddress.read description with
      | .ok _ => .ok ()
      | .error fault => .error (.socket fault)
  | .stdin => .ok ()

/-- The settings can be used. -/
def validate (c : Config) : Except ConfigFault Unit := do
  if c.workspace.isEmpty then .error .emptyWorkspace
  else
    c.checkSource
    if c.logYear < 0 then .error (.negativeYear c.logYear) else .ok ()

/-! ## What the parts are told -/

/-- The year of the first line, if one is set. -/
def year? (c : Config) : Option Int := if c.logYear = 0 then none else some c.logYear

/-- The store of deliveries. -/
def deliveriesPath (c : Config) : String := Path.join c.workspace "logs.db"

/-- The store of raw lines. -/
def linesPath (c : Config) : String := Path.join c.workspace "rawlogs.db"

/-- The store of other facts. -/
def factsPath (c : Config) : String := Path.join c.workspace "master.db"

/-- How many times more writes may wait for the store of raw lines, which gets every line. -/
def rawQueueFactor : Nat := 1000

/-- The writes that may wait for the store of raw lines. -/
def rawQueueCapacity (c : Config) : Nat :=
  min (c.writer.queueCapacity * rawQueueFactor) (Word.count 64 - 1)

end Config

end MailTrace
