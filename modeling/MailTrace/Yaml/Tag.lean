import MailTrace.Net.IPAddress
import MailTrace.Text.Utf8
import MailTrace.Yaml.Place

/-!
# Tags

A tag in front of a part of a document says of what kind the part is. It is written as a handle and
a suffix; directives say which text a handle stands for. Tags of the core schema name null, truth
values and numbers, and a tag that begins with an exclamation mark is one of the document's own.
-/

namespace MailTrace.Yaml

open MailTrace.Net MailTrace.Text

/-! ## Meaning -/

/-- What a tag says of a part. -/
inductive Tag where
  | null
  | bool
  | int
  | float
  /-- A tag of the document's own, by its name without the exclamation mark. An exclamation mark
  alone is a name too. There is no name where the octets are no text. -/
  | own (name : Option String)
  | other
deriving DecidableEq, Repr

/-- The text before the names of the core schema. -/
def coreSchema : String := "tag:yaml.org,2002:"

/-- The octets of a text. -/
def octetsOf (s : String) : List UInt8 := Utf8.encode s.toList

/-- The text of octets, if they are the octets of a text. -/
def textOf? (octets : List UInt8) : Option String :=
  let cs := Utf8.decode octets
  if Utf8.encode cs = octets then some (String.ofList cs) else none

/-- The meaning of the octets of a tag. -/
def Tag.ofOctets (octets : List UInt8) : Tag :=
  let core := (after? (octetsOf coreSchema) octets).bind textOf?
  if core = some "null" then .null
  else if core = some "bool" then .bool
  else if core = some "int" then .int
  else if core = some "float" then .float
  else
    match after? (octetsOf "!") octets with
    | some [] => .own (some "!")
    | some name => .own (textOf? name)
    | none => .other

/-! ## Writing -/

/-- A tag as it is written. A tag without a handle is its suffix. -/
structure WrittenTag where
  handle : String
  suffix : List UInt8
deriving DecidableEq, Repr

/-- The texts that handles stand for. -/
abbrev Handles := List (String × List UInt8)

/-- What handles stand for where no directive says so. -/
def Handles.core : Handles := [("!", octetsOf "!"), ("!!", octetsOf coreSchema)]

/-- The tag that is meant, unless its handle is unknown. -/
def WrittenTag.resolve? (handles : Handles) (t : WrittenTag) : Option Tag :=
  if t.handle.isEmpty then some (.ofOctets t.suffix)
  else (handles.lookup t.handle).map fun front => .ofOctets (front ++ t.suffix)

/-- The characters of a tag. Between angle brackets there are three more. -/
def isTagChar (bracketed : Bool) (c : Char) : Bool :=
  isNameChar c ||
    c ∈ [';', '/', '?', ':', '@', '&', '=', '+', '$', '.', '%', '!', '~', '*', '\'', '(', ')'] ||
    (bracketed && c ∈ [',', '[', ']'])

/-- The number of octets of a character that starts with an octet. -/
def widthOf? (octet : Nat) : Option Nat :=
  if octet < 0x80 then some 1
  else if 0xC0 ≤ octet && octet < 0xE0 then some 2
  else if 0xE0 ≤ octet && octet < 0xF0 then some 3
  else if 0xF0 ≤ octet && octet < 0xF8 then some 4
  else none

/-- The octets that the characters of a tag stand for. An octet may be written as a percent sign and
two digits; the octets of one character stand together. -/
def tagOctets? : (missing : Nat) → List Char → Option (List UInt8)
  | 0, [] => some []
  | _ + 1, [] => none
  | missing, '%' :: a :: b :: cs => do
    let octet ← IPAddress.hexadecimal? [a, b]
    let missing ← match missing with
      | 0 => (widthOf? octet).map (· - 1)
      | n + 1 => if 0x80 ≤ octet && octet < 0xC0 then some n else none
    return UInt8.ofNat octet :: (← tagOctets? missing cs)
  | 0, c :: cs => if c = '%' then none else (tagOctets? 0 cs).map (Utf8.encode [c] ++ ·)
  | _ + 1, _ :: _ => none

/-- The text of a tag at a place, and the place after it. A zero octet ends it. -/
def tagText? (bracketed : Bool) (p : Place) : Option (List UInt8 × Place) := do
  let (run, after) := p.span (isTagChar bracketed)
  return ((← tagOctets? 0 run).takeWhile (· ≠ 0), after)

/-- The handle of a tag, if it has one of its own, and the place after it. -/
def tagHandle? (p : Place) : Option (String × Place) :=
  let (name, after) := p.next.span isNameChar
  match after.rest with
  | '!' :: _ => some (String.ofList ('!' :: name ++ ['!']), after.next)
  | _ => none

/-- The tag at an exclamation mark, and the place after it. -/
def writtenTag? (p : Place) : Option (WrittenTag × Place) :=
  match p.next.rest with
  | '<' :: _ => do
    let start := Place.skip 2 p
    let (suffix, after) ← tagText? true start
    match after.rest with
    | '>' :: _ => if after.column = start.column then none else return (⟨"", suffix⟩, after.next)
    | _ => none
  | _ =>
    match tagHandle? p with
    | some (handle, start) => do
      let (suffix, after) ← tagText? false start
      if after.column = start.column then none else return (⟨handle, suffix⟩, after)
    | none => do
      let (suffix, after) ← tagText? false p.next
      return (if suffix.isEmpty then ⟨"", octetsOf "!"⟩ else ⟨"!", suffix⟩, after)

end MailTrace.Yaml
