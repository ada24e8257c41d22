import MailTrace.Text.Cut
import MailTrace.Text.Number

/-!
# Addresses of hosts

Addresses of four octets or eight groups of sixteen bits, read from their usual notations and
written in the canonical one.
-/

namespace MailTrace.Net

open MailTrace.Text

/-- A host address. -/
inductive IPAddress where
  | v4 (a b c d : UInt8)
  | v6 (groups : { gs : List UInt16 // gs.length = 8 })
deriving DecidableEq, Repr

namespace IPAddress

instance : Inhabited IPAddress := ⟨v4 0 0 0 0⟩

/-! ## Reading -/

/-- An octet in decimal, with at most three digits and without needless zeros. -/
def octet? (cs : List Char) : Option UInt8 :=
  if 3 < cs.length || (1 < cs.length && cs.head? = some '0') then none
  else ((natural? cs).filter (· < 256)).map UInt8.ofNat

/-- Four octets with points between them. -/
def readV4? (cs : List Char) : Option (UInt8 × UInt8 × UInt8 × UInt8) :=
  match pieces (· == '.') cs with
  | [a, b, c, d] => do return (← octet? a, ← octet? b, ← octet? c, ← octet? d)
  | _ => none

/-- The value of a hexadecimal digit. -/
def hexDigit? (c : Char) : Option Nat :=
  if '0' ≤ c && c ≤ '9' then some (c.toNat - '0'.toNat)
  else if 'a' ≤ c && c ≤ 'f' then some (c.toNat - 'a'.toNat + 10)
  else if 'A' ≤ c && c ≤ 'F' then some (c.toNat - 'A'.toNat + 10)
  else none

/-- The number written by hexadecimal digits. -/
def hexadecimal? (cs : List Char) : Option Nat :=
  cs.foldlM (fun n c => (hexDigit? c).map (16 * n + ·)) 0

/-- A group of one to four hexadecimal digits. -/
def group? (cs : List Char) : Option UInt16 :=
  if cs.isEmpty || 4 < cs.length then none else (hexadecimal? cs).map UInt16.ofNat

/-- Two octets as one group. -/
def pair (a b : UInt8) : UInt16 := UInt16.ofNat (a.toNat * 256 + b.toNat)

/-- The groups of the pieces between colons. The last piece may hold four octets, which are two
groups, if `octets` allows it. -/
def groups? (octets : Bool) : List (List Char) → Option (List UInt16)
  | [] => some []
  | [last] =>
    match octets, readV4? last with
    | true, some (a, b, c, d) => some [pair a b, pair c d]
    | _, _ => (group? last).map ([·])
  | first :: rest => do return (← group? first) :: (← groups? octets rest)

/-- The groups of one side of a double colon. -/
def side? (octets : Bool) (cs : List Char) : Option (List UInt16) :=
  if cs.isEmpty then some [] else groups? octets (pieces (· == ':') cs)

/-- Eight groups, or fewer with one double colon for those left out. -/
def readV6? (cs : List Char) : Option { gs : List UInt16 // gs.length = 8 } :=
  let found : Option (List UInt16) := match cutText [':', ':'] cs with
    | none => groups? true (pieces (· == ':') cs)
    | some (left, right) => do
      let before ← side? false left
      let after ← side? true right
      if 7 < before.length + after.length then none
      else return before ++ List.replicate (8 - before.length - after.length) 0 ++ after
  found.bind fun gs => if h : gs.length = 8 then some ⟨gs, h⟩ else none

/-- A host address in one of its notations. -/
def read? (cs : List Char) : Option IPAddress :=
  ((readV4? cs).map fun (a, b, c, d) => v4 a b c d).or ((readV6? cs).map v6)

/-! ## Writing -/

/-- Texts with a separator between them. -/
def join (sep : List Char) : List (List Char) → List Char
  | [] => []
  | [last] => last
  | first :: rest => first ++ sep ++ join sep rest

/-- Four octets with points between them. -/
def writeV4 (a b c d : UInt8) : List Char :=
  join ['.'] ([a, b, c, d].map fun octet => Nat.toDigits 10 octet.toNat)

/-- Groups with colons between them. -/
def writeGroups (gs : List UInt16) : List Char :=
  join [':'] (gs.map fun g => Nat.toDigits 16 g.toNat)

/-- The number of zero groups from position `i` on. -/
def zeroRun (gs : List UInt16) (i : Nat) : Nat := ((gs.drop i).takeWhile (· == 0)).length

/-- The start of the longest run of zero groups, the first of equally long ones. -/
def longestZeroRun (gs : List UInt16) : Nat :=
  (List.range gs.length).foldl (fun best i => if zeroRun gs best < zeroRun gs i then i else best) 0

/-- Eight groups in the canonical form: the longest run of two or more zero groups is left out, and
a mapped address of four octets shows them as octets. -/
def writeV6 (gs : List UInt16) : List Char :=
  match gs with
  | [0, 0, 0, 0, 0, 0xFFFF, g, h] =>
    "::ffff:".toList ++ writeV4 (g >>> 8).toUInt8 g.toUInt8 (h >>> 8).toUInt8 h.toUInt8
  | _ =>
    let start := longestZeroRun gs
    let length := zeroRun gs start
    if length < 2 then writeGroups gs
    else writeGroups (gs.take start) ++ [':', ':'] ++ writeGroups (gs.drop (start + length))

/-- The canonical text. -/
def write : IPAddress → List Char
  | v4 a b c d => writeV4 a b c d
  | v6 gs => writeV6 gs.val

instance : ToString IPAddress := ⟨fun ip => String.ofList ip.write⟩

/-- The host itself. -/
def isLoopback : IPAddress → Bool
  | v4 a _ _ _ => a == 127
  | v6 gs => gs.val == [0, 0, 0, 0, 0, 0, 0, 1]

end IPAddress

end MailTrace.Net
