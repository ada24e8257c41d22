import MailTrace.Source.Rotation
import MailTrace.Source.Tail

/-!
# Reading the files of a log

The files of a log are read one after the other, and the last one may be followed as it grows. A file
that cannot be opened is passed over, and a compressed one that cannot be unpacked ends early.
-/

namespace MailTrace

/-- Why there is nothing to read. -/
inductive SourceFault where
  | noLogFiles (dir : String)
  | unreadableDirectory (dir : String)
  | unopened (path : String)
deriving DecidableEq, Repr

/-- The wording of a fault. -/
def SourceFault.message : SourceFault → String
  | noLogFiles dir => "no log files found: dir=" ++ dir
  | unreadableDirectory dir => "failed to read log directory: path=" ++ dir
  | unopened path => "failed to open log file: path=" ++ path

/-- Lines, and whether reading fails after them. -/
structure FileLines where
  lines : List SourceLine
  fails : Bool
deriving DecidableEq, Repr

namespace FileLines

/-- No lines, and nothing fails. -/
def empty : FileLines := ⟨[], false⟩

/-- Lines and then others, unless reading fails in between. -/
def append (a b : FileLines) : FileLines :=
  if a.fails then a else ⟨a.lines ++ b.lines, b.fails⟩

/-- The lines of one file. A directory in the place of a file that is not compressed can be opened,
but not read. -/
def ofFile (d : Disk) (f : LogFile) : FileLines :=
  match d.content? f.path with
  | none => empty
  | some content =>
    if f.compressed then ⟨content.unpackedLines f.path, false⟩
    else
      match content.lines? f.path with
      | some lines => ⟨lines, false⟩
      | none => ⟨[], true⟩

/-- The lines of files one after the other. -/
def ofFiles (d : Disk) (files : List LogFile) : FileLines :=
  files.foldr (fun f rest => (ofFile d f).append rest) empty

end FileLines

namespace Disk

/-- The files of the log in a directory. -/
def discover (d : Disk) (dir : String) (bases : List String) : Except SourceFault (List LogFile) :=
  if d.isDirectory dir then .ok (LogFile.discover dir (d.names dir) bases)
  else .error (.unreadableDirectory dir)

/-- The files of the log in a directory, of which there has to be one. -/
def logFiles (d : Disk) (dir : String) (bases : List String) : Except SourceFault (List LogFile) :=
  match d.discover dir bases with
  | .ok [] => .error (.noLogFiles dir)
  | result => result

/-- The lines of the log in a directory. -/
def logLines (d : Disk) (dir : String) (bases : List String) : Except SourceFault FileLines :=
  (d.logFiles dir bases).map (FileLines.ofFiles d)

/-- The lines of one file. -/
def fileLines (d : Disk) (path : String) : Except SourceFault FileLines :=
  match d.content? path with
  | some _ => .ok (.ofFile d ⟨path, .active, false⟩)
  | none => .error (.unopened path)

end Disk

/-! ## Line by line -/

/-- What asking for the next line leads to. -/
inductive Pull where
  | line (l : SourceLine)
  /-- There is nothing yet. -/
  | waiting
  | ended
  | failed
deriving DecidableEq, Repr

/-- The file that is being read. -/
inductive OpenFile where
  | rotated (rest : FileLines)
  | followed (t : Tail)
deriving DecidableEq, Repr

/-- The files still to be read, and the one that is open. -/
structure LogReader where
  follow : Bool
  files : List LogFile
  current : Option OpenFile
deriving DecidableEq, Repr

namespace LogReader

/-- Nothing is opened yet. -/
def start (follow : Bool) (files : List LogFile) : LogReader := ⟨follow, files, none⟩

/-- A file is opened, if it can be. Following starts with the file being written. -/
def open? (d : Disk) (follow : Bool) (f : LogFile) : Option OpenFile :=
  match d.content? f.path with
  | none => none
  | some content =>
    if follow && !f.compressed && f.rotation = .active && content.octets?.isSome then
      (Tail.open? d f.path).map .followed
    else some (.rotated (.ofFile d f))

/-- The first line of the files, and those that are left. -/
def advance (d : Disk) (follow : Bool) : List LogFile → LogReader × Pull
  | [] => (⟨follow, [], none⟩, .ended)
  | f :: rest =>
    match open? d follow f with
    | none => advance d follow rest
    | some (.followed t) =>
      let (t, line) := t.next d
      (⟨follow, rest, some (.followed t)⟩, (line.map .line).getD .waiting)
    | some (.rotated ⟨l :: lines, fails⟩) => (⟨follow, rest, some (.rotated ⟨lines, fails⟩)⟩, .line l)
    | some (.rotated ⟨[], true⟩) => (⟨follow, rest, some (.rotated ⟨[], true⟩)⟩, .failed)
    | some (.rotated ⟨[], false⟩) => advance d follow rest

/-- The next line. -/
def next (d : Disk) (r : LogReader) : LogReader × Pull :=
  match r.current with
  | some (.followed t) =>
    let (t, line) := t.next d
    ({ r with current := some (.followed t) }, (line.map .line).getD .waiting)
  | some (.rotated ⟨l :: lines, fails⟩) =>
    ({ r with current := some (.rotated ⟨lines, fails⟩) }, .line l)
  | some (.rotated ⟨[], true⟩) => (r, .failed)
  | some (.rotated ⟨[], false⟩) | none => advance d r.follow r.files

end LogReader

end MailTrace
