import MailTrace.Source.Stream

/-!
# Reading the files of a log piece by piece

The files of a log wait in a queue, and one of them is open: as it is, unpacked, or followed as it grows.
A file that is at its end makes room for the next one. `LogReader` has all lines of a file as soon as it
is open; here its octets are read as they come, and no more of them than a line needs.
-/

namespace MailTrace

/-- The pieces that the octets of each file come in. -/
structure Pieces where
  cut : String → List UInt8 → List Chunk
  octets_cut : ∀ path octets, Chunk.octets (cut path octets) = octets

/-- The file that is open. -/
inductive OpenStream where
  /-- A file that is read as it is. -/
  | plain (s : LineStream)
  /-- A file that is unpacked. -/
  | unpacked (s : LineStream)
  /-- A file that is read as it grows. -/
  | followed (t : Tail)
deriving DecidableEq, Repr

/-- Anything but the end. -/
def Pull.unlessEnded? : Pull → Option Pull
  | ended => none
  | pull => some pull

/-- A line, and nothing else. -/
def Pull.onlyLine? : Pull → Option Pull
  | line l => some (.line l)
  | _ => none

namespace OpenStream

/-- The lines of a file that is unpacked. One that cannot be opened, or is not compressed, breaks off
before its first line. -/
def unpack (p : Pieces) (path : String) : Option FileContent → LineStream
  | some (.compressed octets intact) => .start (some path) (p.cut path octets) !intact
  | some (.plain _) | some .directory | none => .start (some path) [] true

/-- The lines of a file that is read as it is. A directory breaks off before its first line. -/
def ofContent (p : Pieces) (path : String) (content : FileContent) : LineStream :=
  match content.octets? with
  | some octets => .start (some path) (p.cut path octets) false
  | none => .start (some path) [] true

/-- A file is opened, if it can be. That a compressed one cannot be opened is found out when it is
unpacked. -/
def open? (p : Pieces) (d : Disk) (follow : Bool) (f : LogFile) : Option OpenStream :=
  if f.compressed then some (.unpacked (unpack p f.path (d.content? f.path)))
  else
    match d.content? f.path with
    | none => none
    | some content =>
      if follow && f.rotation = .active && content.octets?.isSome then
        (Tail.open? d f.path).map .followed
      else some (.plain (ofContent p f.path content))

/-- The next line, or none at the end of the file. Unpacking that breaks off is the end, and a file that
is followed has none. -/
def next (d : Disk) : OpenStream → OpenStream × Option Pull
  | plain s =>
    let (s, pull) := s.next
    (.plain s, pull.unlessEnded?)
  | unpacked s =>
    let (s, pull) := s.next
    (.unpacked s, pull.onlyLine?)
  | followed t =>
    let (t, line) := t.next d
    (.followed t, some ((line.map .line).getD .waiting))

end OpenStream

/-- The files still to be read, and the one that is open. -/
structure FileQueue where
  pieces : Pieces
  follow : Bool
  files : List LogFile
  current : Option OpenStream

namespace FileQueue

/-- Nothing is opened yet. -/
def start (pieces : Pieces) (follow : Bool) (files : List LogFile) : FileQueue :=
  ⟨pieces, follow, files, none⟩

/-- The first line of the files, and those that are left. -/
def advance (p : Pieces) (d : Disk) (follow : Bool) : List LogFile → FileQueue × Pull
  | [] => (⟨p, follow, [], none⟩, .ended)
  | f :: rest =>
    match OpenStream.open? p d follow f with
    | none => advance p d follow rest
    | some s =>
      match s.next d with
      | (s, some pull) => (⟨p, follow, rest, some s⟩, pull)
      | (_, none) => advance p d follow rest

/-- The next line. -/
def next (d : Disk) (q : FileQueue) : FileQueue × Pull :=
  match q.current with
  | none => advance q.pieces d q.follow q.files
  | some s =>
    match s.next d with
    | (s, some pull) => ({ q with current := some s }, pull)
    | (_, none) => advance q.pieces d q.follow q.files

/-- What is said call after call, while the disk becomes what it is at each of them. -/
def pulls (q : FileQueue) : List Disk → List Pull
  | [] => []
  | d :: ds =>
    let (q, pull) := q.next d
    pull :: q.pulls ds

end FileQueue

end MailTrace
