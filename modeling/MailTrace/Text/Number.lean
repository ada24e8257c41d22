import MailTrace.Word

/-!
# Decimal numbers

Digits read as a natural number, and unsigned numbers of a bounded width with an optional plus sign.
-/

namespace MailTrace.Text

/-- One of the ten ASCII digits. -/
def isDigit (c : Char) : Bool := '0' ≤ c && c ≤ '9'

/-- The number written by the digits `cs`, which are one or more and nothing else. -/
def natural? (cs : List Char) : Option Nat :=
  if cs.isEmpty || !cs.all isDigit then none else some (Nat.ofDigitChars 10 cs 0)

/-- A number below `bound`, with an optional plus sign before its digits. -/
def unsigned? (bound : Nat) (cs : List Char) : Option Nat :=
  let digits := match cs with
    | '+' :: rest => rest
    | _ => cs
  (natural? digits).filter (· < bound)

/-- An unsigned number of 16 bits. -/
def unsigned16? (cs : List Char) : Option UInt16 := (unsigned? (Word.count 16) cs).map UInt16.ofNat

/-- An unsigned number of 32 bits. -/
def unsigned32? (cs : List Char) : Option UInt32 := (unsigned? (Word.count 32) cs).map UInt32.ofNat

/-- An unsigned number of 64 bits. -/
def unsigned64? (cs : List Char) : Option UInt64 := (unsigned? (Word.count 64) cs).map UInt64.ofNat

end MailTrace.Text
