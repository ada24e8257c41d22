import MailTrace.Record
import MailTrace.Text.Utf8

/-!
# Lines of octets

Octets are cut into lines at line feeds. A line loses the carriage return before its line feed, and
octets that are no text become replacement characters.
-/

namespace MailTrace

open MailTrace.Text

/-- A line as it was read, with the place it was found at where that is known. -/
structure SourceLine where
  text : String
  location : Option Location
deriving DecidableEq, Repr

namespace Lines

/-- The octet that ends a line. -/
def lineFeed : UInt8 := 10

/-- The octet that may come before the end of a line. -/
def carriageReturn : UInt8 := 13

/-- The lines that are ended by a line feed, without it, and what follows the last one. -/
def split : List UInt8 → List (List UInt8) × List UInt8
  | [] => ([], [])
  | b :: bs =>
    let (lines, rest) := split bs
    if b = lineFeed then ([] :: lines, rest)
    else
      match lines with
      | [] => ([], b :: rest)
      | first :: others => ((b :: first) :: others, rest)

/-- All lines. What follows the last line feed is a line unless it is empty. -/
def all (bs : List UInt8) : List (List UInt8) :=
  let (lines, rest) := split bs
  if rest.isEmpty then lines else lines ++ [rest]

/-- The text of a line without its line feed. -/
def text (line : List UInt8) : String :=
  let line := if line.getLast? = some carriageReturn then line.dropLast else line
  String.ofList (Utf8.decode line)

/-- Lines found in a file, numbered from the one after `last`. -/
def locate (file : String) (last : Nat) : List String → List SourceLine
  | [] => []
  | t :: ts => ⟨t, some ⟨file, last + 1⟩⟩ :: locate file (last + 1) ts

/-- The lines of octets that come from a file, or from nowhere. -/
def read (file : Option String) (bs : List UInt8) : List SourceLine :=
  let texts := (all bs).map text
  match file with
  | some file => locate file 0 texts
  | none => texts.map (⟨·, none⟩)

end Lines

end MailTrace
