import MailTrace.Config.Settings
import MailTrace.Time.DurationText
import MailTrace.Word
import MailTrace.Yaml.Node

/-!
# Reading a configuration

A configuration is a document of one mapping. A key that is not known or comes twice is refused, a
key that is left out has its default. Where text is wanted every scalar is its text; nothing at all
stands for an empty text, list or mapping. Tags matter only where a scalar could be of several
kinds.
-/

namespace MailTrace.Config

open MailTrace.Net MailTrace.Text MailTrace.Time MailTrace.Yaml

/-! ## Scalars -/

/-- The number of digits in a base. -/
def radix? (base : Nat) (cs : List Char) : Option Nat :=
  if cs.isEmpty then none
  else cs.foldlM (fun n c =>
    ((IPAddress.hexDigit? c).filter (· < base)).map (base * n + ·)) 0

/-- The number of a plain scalar without a sign: with a base before it, or in decimal without
needless zeros. -/
def magnitude? (cs : List Char) : Option Nat :=
  match cs with
  | '0' :: 'x' :: rest => radix? 16 rest
  | '0' :: 'o' :: rest => radix? 8 rest
  | '0' :: 'b' :: rest => radix? 2 rest
  | '0' :: _ :: _ => none
  | _ => natural? cs

/-- The number of a plain scalar. -/
def integer? (text : String) : Option Int :=
  match text.toList with
  | '-' :: rest => (magnitude? rest).map fun n => -(n : Int)
  | '+' :: rest => (magnitude? rest).map Int.ofNat
  | cs => (magnitude? cs).map Int.ofNat

/-- The plain scalars that name nothing. -/
def isNull (text : String) : Bool := text ∈ ["~", "null", "Null", "NULL"]

/-- The plain scalars that stand for nothing. -/
def isNothing (text : String) : Bool := text.isEmpty || isNull text

/-- The truth value of a plain scalar. -/
def truth? (text : String) : Option Bool :=
  if text ∈ ["true", "True", "TRUE"] then some true
  else if text ∈ ["false", "False", "FALSE"] then some false
  else none

/-! ## Nodes -/

/-- A text. -/
def text? : Node → Option String
  | .scalar _ _ t => some t
  | _ => none

/-- A text, or none where nothing stands. What is tagged as null has to name it. -/
def optionalText? : Node → Option (Option String)
  | .scalar tag .plain t =>
    match tag with
    | none => some (if isNothing t then none else some t)
    | some .null => if isNull t then some none else none
    | some _ => some (some t)
  | .scalar _ _ t => some (some t)
  | _ => none

/-- A plain scalar, or one of kept lines with a tag of the core schema. -/
def literalText? (wanted : Tag) : Node → Option String
  | .scalar _ .plain t => some t
  | .scalar tag .literal t => if tag = some wanted then some t else none
  | _ => none

/-- A truth value. -/
def flag? (n : Node) : Option Bool := (literalText? .bool n).bind truth?

/-- A number that a word with a sign holds. -/
def number? (bits : Nat) (n : Node) : Option Int :=
  ((literalText? .int n).bind integer?).filter (Word.holds bits)

/-- A number without a minus sign that a word holds. -/
def count? (n : Node) : Option Nat := do
  let t ← literalText? .int n
  if t.startsWith "-" then none
  else ((integer? t).filter (· < (Word.count 64 : Int))).map Int.toNat

/-- What a number says where a length of time is wanted. -/
def secondsOf (n : Int) : Duration.Setting := if n < 0 then .other else .seconds n.toNat

/-- What a plain scalar without a tag says where a length of time is wanted. -/
def plainSetting (t : String) : Duration.Setting :=
  if isNothing t || (truth? t).isSome then .nothing
  else
    match integer? t with
    | some n => secondsOf n
    | none => .text t

/-- What a node says where a length of time is wanted. A scalar in quotes is a number only if it is
tagged as one. -/
def setting : Node → Duration.Setting
  | .scalar (some .int) _ t =>
    match integer? t with
    | some n => secondsOf n
    | none => .other
  | .scalar (some .null) _ _ | .scalar (some .bool) _ _ | .scalar (some .float) _ _ => .other
  | .scalar (some (.own (some _))) _ _ => .other
  | .scalar (some (.own none)) .plain t | .scalar none .plain t => plainSetting t
  | .scalar _ _ t => .text t
  | _ => .other

/-- A length of time. -/
def duration? (n : Node) : Option Duration := (setting n).required?

/-- A kind of source: a text, or a tag of its own before nothing. -/
def sourceKind? : Node → Option SourceKind
  | .scalar (some (.own (some name))) style t =>
    if style = .plain && isNothing t then SourceKind.ofName? name else none
  | .scalar _ _ t => SourceKind.ofName? t
  | _ => none

/-- A list of texts. -/
def texts? (d : Document) : Node → Option (List String)
  | .sequence items => items.mapM fun item => (d.part? item).bind text?
  | .scalar _ .plain "" => some []
  | _ => none

/-- The values of a mapping by their keys, which are among some names and differ. -/
def members? (d : Document) (names : List String) : Node → Option (List (String × Node))
  | .mapping pairs => do
    let members ← pairs.mapM fun (k, v) => do
      return (← (d.part? k).bind text?, ← d.part? v)
    let keys := members.map (·.1)
    if keys.all names.contains && keys.Nodup then some members else none
  | .scalar _ .plain "" => some []
  | _ => none

/-- The value of a member, or the default where it is left out. -/
def member {α : Type} (members : List (String × Node)) (name : String) (read : Node → Option α)
    (default : α) : Option α :=
  match members.lookup name with
  | none => some default
  | some node => read node

/-! ## Groups of settings -/

/-- The settings of raw lines. -/
def retention? (doc : Document) (d : RetentionSettings) (n : Node) : Option RetentionSettings := do
  let ms ← members? doc ["max_age", "cleaning_batch_size", "cleaning_frequency"] n
  return {
    maxAge := ← member ms "max_age" duration? d.maxAge
    batchSize := ← member ms "cleaning_batch_size" (number? 64) d.batchSize
    frequency := ← member ms "cleaning_frequency" duration? d.frequency }

/-- The settings of the tracker. -/
def tracker? (doc : Document) (d : Tracker.Settings) (n : Node) : Option Tracker.Settings := do
  let ms ← members? doc ["queue_idle_timeout", "prune_interval"] n
  return {
    idleTimeout := ← member ms "queue_idle_timeout" duration? d.idleTimeout
    pruneInterval := ← member ms "prune_interval" duration? d.pruneInterval }

/-- The settings of the announcer. -/
def announcer? (doc : Document) (d : Import.SyncSettings) (n : Node) :
    Option Import.SyncSettings := do
  let ms ← members? doc ["sleep", "primary_timeout", "secondary_timeout"] n
  return {
    sleep := ← member ms "sleep" duration? d.sleep
    primaryTimeout := ← member ms "primary_timeout" duration? d.primaryTimeout
    secondaryTimeout := ← member ms "secondary_timeout" duration? d.secondaryTimeout }

/-- The settings of the stores. -/
def writer? (doc : Document) (d : WriterSettings) (n : Node) : Option WriterSettings := do
  let ms ← members? doc ["commit_interval", "action_queue_capacity"] n
  return {
    commitInterval := ← member ms "commit_interval" duration? d.commitInterval
    queueCapacity := ← member ms "action_queue_capacity" count? d.queueCapacity }

/-- The keys of a configuration. -/
def keys : List String :=
  ["workspace", "source", "log_path", "socket", "log_format", "log_year", "follow", "log_patterns",
    "reader_idle_timeout", "socket_connection_timeout", "rawlogs", "tracker", "announcer", "db"]

/-- The settings of a document, with defaults for what is left out. -/
def ofDocument? (d : Config) (doc : Document) : Option Config := do
  let ms ← members? doc keys (← doc.part? doc.root)
  return {
    workspace := ← member ms "workspace" text? d.workspace
    source := ← member ms "source" sourceKind? d.source
    logPath := ← member ms "log_path" optionalText? d.logPath
    socket := ← member ms "socket" optionalText? d.socket
    logFormat := ← member ms "log_format" text? d.logFormat
    logYear := ← member ms "log_year" (number? 32) d.logYear
    follow := ← member ms "follow" flag? d.follow
    logPatterns := ← member ms "log_patterns" (texts? doc) d.logPatterns
    readerIdleTimeout := ← member ms "reader_idle_timeout" duration? d.readerIdleTimeout
    connectionTimeout := ← member ms "socket_connection_timeout" duration? d.connectionTimeout
    retention := ← member ms "rawlogs" (retention? doc d.retention) d.retention
    tracker := ← member ms "tracker" (tracker? doc d.tracker) d.tracker
    announcer := ← member ms "announcer" (announcer? doc d.announcer) d.announcer
    writer := ← member ms "db" (writer? doc d.writer) d.writer }

/-- The settings of a document, brought into normal form and checked. -/
def read (workingDirectory document : String) : Except ConfigFault Config :=
  match (Document.read? document.toList).bind (ofDocument? (default workingDirectory)) with
  | none => .error .document
  | some c =>
    let c := c.normalize
    c.validate.map fun _ => c

end MailTrace.Config
