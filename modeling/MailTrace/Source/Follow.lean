import MailTrace.Source.Tail

/-!
# A file that is written while it is followed

The server appends to its log. Now and then the log is cut short, or another file takes its path. The
reader looks at it in between, and the steps of both come in any order. The text of a log since it was
made, or since it was cut short, is one generation of it.
-/

namespace MailTrace

namespace Disk

/-- Other octets in a file. -/
def write (d : Disk) (file : Nat) (octets : List UInt8) : Disk :=
  { d with files := d.files.set file (.plain octets) }

/-- A path leads to a file. -/
def link (d : Disk) (path : String) (file : Nat) : Disk :=
  { d with paths := d.paths.upsert path file fun _ => file }

end Disk

/-- A log, its reader, and the lines that were read. -/
structure Following where
  disk : Disk
  /-- The number of the file that is being written. -/
  current : Nat
  /-- The generations before the one that is being written. -/
  earlier : List (List UInt8)
  tail : Tail
  yielded : List SourceLine

namespace Following

/-- A file that was just opened. -/
def start (d : Disk) (path : String) (octets : List UInt8) : Following where
  disk := d.create path (.plain octets)
  current := d.files.length
  earlier := []
  tail := ⟨path, d.files.length, 0, [], [], 0⟩
  yielded := []

/-- The generation that is being written. -/
def content (f : Following) : List UInt8 := (f.disk.content f.current).octets

/-- Other octets in the file that is being written. -/
def written (f : Following) (octets : List UInt8) : Following :=
  { f with disk := f.disk.write f.current octets }

/-- The generation that is being written ends. -/
def ended (f : Following) : Following := { f with earlier := f.earlier ++ [f.content] }

/-- A new file takes the path. -/
def replaced (f : Following) (octets : List UInt8) : Following where
  disk := f.disk.create f.tail.path (.plain octets)
  current := f.disk.files.length
  earlier := f.earlier ++ [f.content]
  tail := f.tail
  yielded := f.yielded

/-- The reader looks once. -/
def poll (f : Following) : Following :=
  { f with
    tail := (f.tail.look f.disk).1
    yielded := f.yielded ++ (f.tail.look f.disk).2.toList }

/-- The reader looks so many times. -/
def polls : Following → Nat → Following
  | f, 0 => f
  | f, n + 1 => f.poll.polls n

/-- The open file is shorter than what the reader looked at. -/
def CutShort (f : Following) : Prop :=
  f.tail.file = f.current ∧ f.content.length < f.tail.position

instance (f : Following) : Decidable f.CutShort := inferInstanceAs (Decidable (_ ∧ _))

/-- The reader is in the generation that is being written. -/
def Noticed (f : Following) : Prop := f.tail.file = f.current ∧ ¬ f.CutShort

instance (f : Following) : Decidable f.Noticed := inferInstanceAs (Decidable (_ ∧ _))

/-- One step of the reader or of those who write. The log is cut short or replaced only after the reader
noticed that it was before, and cut short only after the reader came to its end. A log that was cut short
stays shorter than what the reader looked at until the reader noticed. Nobody writes to a log that was
replaced. -/
inductive Step : Following → Following → Prop where
  | poll (f : Following) : Step f f.poll
  | append {f : Following} (octets : List UInt8)
      (hshort : f.CutShort → f.content.length + octets.length < f.tail.position) :
      Step f (f.written (f.content ++ octets))
  | truncate {f : Following} (size : Nat) (hnoticed : f.Noticed)
      (hread : f.tail.position = f.content.length) (hsize : size < f.content.length) :
      Step f (f.ended.written (f.content.take size))
  | replace {f : Following} (octets : List UInt8) (hnoticed : f.Noticed) :
      Step f (f.replaced octets)
  | remove {f : Following} : Step f { f with disk := f.disk.remove f.tail.path }
  | restore {f : Following} : Step f { f with disk := f.disk.link f.tail.path f.current }

/-- The reader has nothing left. -/
def Idle (f : Following) : Prop := f.poll = f

/-- The path leads to the file that is being written. -/
def Present (f : Following) : Prop := f.disk.find? f.tail.path = some f.current

instance (f : Following) : Decidable f.Present := inferInstanceAs (Decidable (_ = _))

end Following

end MailTrace
