import MailTrace.Config.Arguments
import MailTrace.Config.Reading
import MailTrace.Service.Run
import Std.Time.DateTime.Timestamp

/-!
# The command

The command reads its configuration, runs the service over what it finds on the host, and tells how
that ended. Sockets are left to the host, which may pass what they bring as the standard input.
Compressed files have to be unpacked by the host as well.
-/

namespace MailTrace.Command

open MailTrace.Time

/-- The variable that may name the configuration. -/
def pathVariable : String := "CONTROLCENTER_CONFIG_PATH"

/-- The names of a configuration that is looked for. -/
def configNames : List String := ["controlcenter.yaml", "controlcenter.yml"]

/-- The moment that the clock of the host shows. -/
def clock : IO Instant := do
  return (← Std.Time.Timestamp.now).toNanosecondsSinceUnixEpoch.val

/-- The value of a variable, unless it is blank. -/
def hostValue? (name : String) : IO (Option String) := do
  return (← IO.getEnv name).bind Config.nonBlank

/-- The octets of a file that can be read. -/
def octets? (path : String) : IO (Option (List UInt8)) := do
  try return some (← IO.FS.readBinFile path).toList
  catch _ => return none

/-- The first of some paths at which a file can be read. -/
def firstFile? : List String → IO (Option String)
  | [] => return none
  | path :: rest => do
    match ← octets? path with
    | some _ => return some path
    | none => firstFile? rest

/-- The path of the configuration: the one that is given, or else the one that is found. -/
def configPath? (given : Option String) : IO (Option String) := do
  if let some path := given then return some path
  if let some path ← hostValue? pathVariable then return some path
  let home := (← hostValue? "HOME").toList
  let dirs := home ++ [(← IO.currentDir).toString]
  firstFile? (dirs.flatMap fun dir => configNames.map (Path.join dir))

/-- What is found at a path. -/
def content? (path : String) : IO (Option FileContent) := do
  let compressed := path.endsWith (String.ofList Rotation.compressedMark)
  return (← octets? path).map fun octets =>
    if compressed then .compressed [] false else .plain octets

/-- The files of a log: the one at a path, or all in the directory at it. -/
def disk (path : String) : IO Disk := do
  if let some content ← content? path then return Disk.ofFiles [(path, content)]
  try
    let entries ← (← IO.FS.realPath path).readDir
    let files ← entries.toList.filterMapM fun entry => do
      let place := Path.join path entry.fileName
      return (← content? place).map (place, ·)
    return Disk.ofFiles ((path, .directory) :: files)
  catch _ => return Disk.empty

/-- The octets of a stream to its end. -/
partial def drain (stream : IO.FS.Stream) (soFar : ByteArray) : IO (List UInt8) := do
  let chunk ← stream.read 65536
  if chunk.isEmpty then return soFar.toList
  drain stream (soFar ++ chunk)

/-- What the service finds on the host. -/
def surroundings (c : Config) : IO Surroundings := do
  let disk ← match c.source, c.logPath with
    | .file, some path | .directory, some path => disk path
    | _, _ => pure Disk.empty
  let input ← if c.source = .stdin then drain (← IO.getStdin) ByteArray.empty else pure []
  return ⟨disk, input, []⟩

/-- A fault ends the command. -/
def fail (message : String) : IO UInt32 := do
  IO.eprintln ("Error: " ++ message)
  return 1

/-- The service is run with the configuration at a path. -/
def runWith (path : String) : IO UInt32 := do
  match ← octets? path with
  | none => fail ("failed to load configuration: failed to read config file " ++ path)
  | some octets =>
    let here := (← IO.currentDir).toString
    let read := match String.fromUTF8? ⟨octets.toArray⟩ with
      | some document => Config.read here document
      | none => .error .document
    match read with
    | .error f => fail ("failed to load configuration: " ++ f.message)
    | .ok c =>
      let (stores, result) := Service.run c (← surroundings c) (← clock)
      IO.eprintln ("deliveries: " ++ toString stores.ledger.deliveries.rows.length ++
        ", lines: " ++ toString stores.archive.lines.rows.length)
      match result with
      | .ok () => return 0
      | .error f => fail f.message

end MailTrace.Command

/-- The command line. -/
def main (args : List String) : IO UInt32 := do
  match MailTrace.configPath args with
  | .error f => MailTrace.Command.fail ("failed to load configuration: " ++ f.message)
  | .ok given =>
    match ← MailTrace.Command.configPath? given with
    | some path => MailTrace.Command.runWith path
    | none => MailTrace.Command.fail "failed to load configuration: config path not found"
