import MailTrace.Source.Disk

/-!
# Following a file

A file is read as it grows. Only at its end it is looked whether it was cut short or another file
took its path; then reading starts again, and what is unfinished is dropped.
-/

namespace MailTrace

open MailTrace.Text

/-- A file that is being followed. -/
structure Tail where
  path : String
  /-- The number of the open file. -/
  file : Nat
  /-- How many octets were taken from the file. -/
  offset : Nat
  /-- The octets that were taken from the file and not looked at. -/
  buffer : List UInt8
  /-- The octets of a line that has no end yet. -/
  unfinished : List UInt8
  /-- The lines read so far. -/
  line : Nat
deriving DecidableEq, Repr

namespace Tail

/-- A file is opened. -/
def open? (d : Disk) (path : String) : Option Tail :=
  (d.find? path).map fun file => ⟨path, file, 0, [], [], 0⟩

/-- How many octets are taken from a file at once. -/
def bufferSize : Nat := 8192

/-- How many octets were looked at. -/
def position (t : Tail) : Nat := t.offset - t.buffer.length

/-- More octets are taken from the file if none are left. -/
def fill (octets : List UInt8) (t : Tail) : Tail :=
  if t.buffer.isEmpty then
    let buffer := (octets.drop t.offset).take bufferSize
    { t with buffer, offset := t.offset + buffer.length }
  else t

/-- The octets up to a line feed, or to the end of the file, filling the buffer at most `n` times. -/
def takeLine (octets : List UInt8) : Nat → Tail → List UInt8 × Tail
  | 0, t => ([], t)
  | n + 1, t =>
    let t := t.fill octets
    if t.buffer.isEmpty then ([], t)
    else
      match cutAt Lines.lineFeed t.buffer with
      | some (line, rest) => (line ++ [Lines.lineFeed], { t with buffer := rest })
      | none =>
        let (more, t') := takeLine octets n { t with buffer := [] }
        (t.buffer ++ more, t')

/-- The path leads to another file, or the file got shorter than what was looked at. -/
def isStale (d : Disk) (t : Tail) : Bool :=
  match d.find? t.path with
  | none => false
  | some file => file ≠ t.file || (d.content file).octets.length < t.position

/-- One look at the file: a line if it has an end. With nothing more to read, a stale file is opened
again. -/
def look (d : Disk) (t : Tail) : Tail × Option SourceLine :=
  let octets := (d.content t.file).octets
  let (taken, t) := t.takeLine octets (octets.length + 2)
  if taken.isEmpty then (if t.isStale d then (open? d t.path).getD t else t, none)
  else
    match before? [Lines.lineFeed] (t.unfinished ++ taken) with
    | some line =>
      ({ t with unfinished := [], line := t.line + 1 },
        some ⟨Lines.text line, some ⟨t.path, t.line + 1⟩⟩)
    | none => ({ t with unfinished := t.unfinished ++ taken }, none)

/-- At most `n` looks until there is a line. -/
def lookTimes (d : Disk) : Nat → Tail → Tail × Option SourceLine
  | 0, t => (t, none)
  | n + 1, t =>
    match t.look d with
    | (t, some line) => (t, some line)
    | (t, none) => lookTimes d n t

/-- The next line of files that do not change meanwhile. An unfinished line, a stale file and the
file after it take one look each. -/
def next (d : Disk) (t : Tail) : Tail × Option SourceLine := t.lookTimes d 3

end Tail

end MailTrace
