import MailTrace.Source.Disk
import MailTrace.Text.Cut
import MailTrace.Text.Number
import MailTrace.Word

/-!
# Log files and their rotation

A log is written to a file with a base name. From time to time that file gets a date or a number
after its name, and may be compressed, and a new one is begun. Read from the oldest file to the one
being written, the log is in order.
-/

namespace MailTrace

open MailTrace.Text

/-- The place of a file in its log. -/
inductive Rotation where
  /-- The file of a day, written as eight digits. -/
  | dated (day : Nat)
  /-- A file with a number, which is higher for an older file. -/
  | numbered (index : Nat)
  /-- The file being written. -/
  | active
deriving DecidableEq, Repr

namespace Rotation

/-- The place in the order from old to new: dated files first, then numbered ones. -/
def rank : Rotation → Nat × Int
  | dated day => (0, day)
  | numbered index => (1, -index)
  | active => (2, 0)

/-- A file is not newer than another. -/
def le (a b : Rotation) : Bool :=
  a.rank.1 < b.rank.1 || (a.rank.1 = b.rank.1 && a.rank.2 ≤ b.rank.2)

/-- The mark of a compressed file. -/
def compressedMark : List Char := ".gz".toList

/-- The digits of a day. -/
def dayWidth : Nat := 8

/-- The place that is named by what follows the base name. -/
def ofMark? : List Char → Option Rotation
  | [] => some active
  | '-' :: digits => if digits.length = dayWidth then (natural? digits).map dated else none
  | '.' :: digits => ((natural? digits).filter (· < Word.count 32)).map numbered
  | _ => none

/-- The place of a file and whether it is compressed, by what follows the base name. The file being
written is never compressed. -/
def ofSuffix? (suffix : List Char) : Option (Rotation × Bool) :=
  match before? compressedMark suffix with
  | some mark => (ofMark? mark).bind fun r => if r = active then none else some (r, true)
  | none => (ofMark? suffix).map (·, false)

/-- The place of a file by its name. -/
def ofName? (base name : String) : Option (Rotation × Bool) :=
  (after? base.toList name.toList).bind ofSuffix?

end Rotation

/-- A file of a log. -/
structure LogFile where
  path : String
  rotation : Rotation
  compressed : Bool
deriving DecidableEq, Repr

namespace LogFile

/-- The usual base names. -/
def defaultBases : List String := ["mail.log", "maillog", "zimbra.log"]

/-- The files of the log with a base name, from old to new. -/
def ofBase (dir : String) (names : List String) (base : String) : List LogFile :=
  let files := names.filterMap fun name =>
    (Rotation.ofName? base name).map fun (r, compressed) => ⟨Path.join dir name, r, compressed⟩
  files.mergeSort fun a b => a.rotation.le b.rotation

/-- The files of the first log that has any. -/
def discover (dir : String) (names : List String) (bases : List String) : List LogFile :=
  ((bases.map (ofBase dir names)).find? (!·.isEmpty)).getD []

end LogFile

end MailTrace
