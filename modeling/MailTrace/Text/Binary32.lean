import MailTrace.Text.Binary
import MailTrace.Text.Number

/-!
# Single-precision numbers

Decimal text rounded to the nearest binary number with 24 significant bits, a tie going to the even
neighbour. A number is kept as its 32 bits, so that equal texts and equal numbers can be compared.
-/

namespace MailTrace.Text

/-- A single-precision number by its bits: sign, eight exponent bits, 23 fraction bits. -/
structure Binary32 where
  bits : UInt32
deriving DecidableEq, Repr, Inhabited

namespace Binary32

/-- The magnitude bits nearest to `digits * 10 ^ exponent`. Decimal exponents far outside the range
are decided without raising ten to them. -/
def decimalMagnitude (digits : Nat) (exponent : Int) : Nat :=
  if digits = 0 then 0
  else
    let scientific := exponent + (Nat.toDigits 10 digits).length - 1
    if 40 < scientific then BinaryFormat.single.infinityBits
    else if scientific < -60 then 0
    else
      let (num, den) := scaled digits 10 exponent
      BinaryFormat.single.magnitude num den

/-- The exponent written after `e`: an optional sign and one or more digits. -/
def exponent? : List Char → Option Int
  | '-' :: cs => (natural? cs).map fun n => -(n : Int)
  | '+' :: cs => (natural? cs).map Int.ofNat
  | cs => (natural? cs).map Int.ofNat

/-- The magnitude bits of an unsigned decimal: digits with an optional point before, among or after
them, and an optional exponent. -/
def decimal? (cs : List Char) : Option Nat :=
  let whole := cs.takeWhile isDigit
  let afterWhole := cs.dropWhile isDigit
  let (fraction, rest) := match afterWhole with
    | '.' :: tail => (tail.takeWhile isDigit, tail.dropWhile isDigit)
    | _ => ([], afterWhole)
  if whole.isEmpty && fraction.isEmpty then none
  else
    let digits := Nat.ofDigitChars 10 (whole ++ fraction) 0
    let scale : Int := -(fraction.length : Int)
    match rest with
    | [] => some (decimalMagnitude digits scale)
    | mark :: tail =>
      if mark = 'e' || mark = 'E' then
        (exponent? tail).map fun e => decimalMagnitude digits (scale + e)
      else none

/-- The magnitude bits of the words for infinity and for no number, in any case. -/
def word? (cs : List Char) : Option Nat :=
  let lower := cs.map Char.toLower
  if lower = "inf".toList || lower = "infinity".toList then some BinaryFormat.single.infinityBits
  else if lower = "nan".toList then some 0x7FC00000
  else none

/-- The bits stand for no number. -/
def isNaN (b : Binary32) : Bool :=
  BinaryFormat.single.infinityBits < b.bits.toNat % 0x80000000

/-- The number nearest to a decimal text with an optional sign. -/
def read? (cs : List Char) : Option Binary32 :=
  let (sign, unsigned) := match cs with
    | '-' :: tail => (0x80000000, tail)
    | '+' :: tail => (0, tail)
    | _ => (0, cs)
  ((decimal? unsigned).or (word? unsigned)).map fun m => ⟨UInt32.ofNat (sign + m)⟩

end Binary32

end MailTrace.Text
