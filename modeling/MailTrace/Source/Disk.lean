import MailTrace.Source.Lines
import MailTrace.Source.Path
import MailTrace.Table

/-!
# Files

Files under their paths. A file that was opened stays what it is when its path is given to another
file or to none, so a path leads to the number of a file and the number to its content.
-/

namespace MailTrace

open MailTrace.Text

/-- What a file holds. -/
inductive FileContent where
  | plain (octets : List UInt8)
  /-- What is unpacked from a compressed file, and whether it can be unpacked to its end. -/
  | compressed (octets : List UInt8) (intact : Bool)
  | directory
deriving DecidableEq, Repr, Inhabited

namespace FileContent

/-- What can be read. Nothing can be read from a directory. -/
def octets? : FileContent → Option (List UInt8)
  | plain octets => some octets
  | compressed octets _ => some octets
  | directory => none

/-- The octets of a file, none of a directory. -/
def octets (c : FileContent) : List UInt8 := c.octets?.getD []

/-- The lines of a file. -/
def lines? (path : String) (c : FileContent) : Option (List SourceLine) :=
  c.octets?.map (Lines.read (some path))

/-- The lines unpacked from a file. One that is not compressed has none. If it cannot be unpacked to
its end, the lines that are whole are read. -/
def unpackedLines (path : String) : FileContent → List SourceLine
  | compressed octets true => Lines.read (some path) octets
  | compressed octets false => Lines.locate path 0 ((Lines.split octets).1.map Lines.text)
  | plain _ | directory => []

end FileContent

/-- A compressed file is made of parts that were packed one after the other. -/
structure Packed where
  /-- What can be unpacked of the first part. -/
  first : List UInt8
  /-- What can be unpacked of the parts after it. -/
  later : List (List UInt8)
  /-- The last part can be unpacked to its end, as those before it can. -/
  intact : Bool
deriving DecidableEq, Repr

namespace Packed

/-- What can be unpacked of all parts. -/
def octets (p : Packed) : List UInt8 := p.first ++ p.later.flatten

/-- What a compressed file holds for its reader, who unpacks the first part and none after it. -/
def content (p : Packed) : FileContent := .compressed p.first (p.intact || !p.later.isEmpty)

end Packed

/-- The files by number, and the numbers by path. -/
structure Disk where
  files : List FileContent
  paths : Table String Nat

namespace Disk

/-- No files. -/
def empty : Disk := ⟨[], .empty⟩

/-- The number of the file at a path. -/
def find? (d : Disk) (path : String) : Option Nat := d.paths.get? path

/-- The content of a file by its number. -/
def content (d : Disk) (file : Nat) : FileContent := d.files.getD file (.plain [])

/-- The content of the file at a path. -/
def content? (d : Disk) (path : String) : Option FileContent := (d.find? path).map d.content

/-- A new file at a path. -/
def create (d : Disk) (path : String) (c : FileContent) : Disk :=
  ⟨d.files ++ [c], d.paths.upsert path d.files.length fun _ => d.files.length⟩

/-- The files with given contents. -/
def ofFiles (files : List (String × FileContent)) : Disk :=
  files.foldl (fun d f => d.create f.1 f.2) empty

/-- The content of the file at a path changed, which is new and empty before if there was none. -/
def update (d : Disk) (path : String) (f : List UInt8 → List UInt8) : Disk :=
  match d.find? path with
  | some file => { d with files := d.files.set file (.plain (f (d.content file).octets)) }
  | none => d.create path (.plain (f []))

/-- More octets at the end of a file. -/
def append (d : Disk) (path : String) (octets : List UInt8) : Disk := d.update path (· ++ octets)

/-- Other octets in the same file. -/
def overwrite (d : Disk) (path : String) (octets : List UInt8) : Disk := d.update path fun _ => octets

/-- A path leads nowhere. -/
def remove (d : Disk) (path : String) : Disk := { d with paths := d.paths.erase path }

/-- A file is moved to another path, in place of the file there. -/
def rename (d : Disk) (path target : String) : Disk :=
  match d.find? path with
  | some file => { d with paths := (d.paths.erase path).upsert target file fun _ => file }
  | none => d

/-- A path is that of a directory. The empty path is the one everything is in. -/
def isDirectory (d : Disk) (path : String) : Bool :=
  path.isEmpty || d.content? path = some .directory

/-- The names in a directory in order. -/
def names (d : Disk) (dir : String) : List String :=
  (d.paths.keys.filterMap (Path.nameIn? dir)).mergeSort fun a b => a ≤ b

end Disk

end MailTrace
