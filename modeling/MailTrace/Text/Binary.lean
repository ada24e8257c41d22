import MailTrace.Word

/-!
# Binary numbers of a bounded precision

Fractions rounded to the nearest number of a binary format, a tie going to the even neighbour. A
magnitude is kept as its bits: the exponent above the fraction, so that the bits of numbers are in
the order of the numbers.
-/

namespace MailTrace.Text

/-- `num / den` rounded to the nearest integer, a tie to the even one. -/
def roundHalfEven (num den : Nat) : Nat :=
  let low := num / den
  let twice := 2 * (num % den)
  if twice < den then low
  else if den < twice then low + 1
  else if low % 2 = 0 then low else low + 1

/-- `num * base ^ exponent` as a fraction. -/
def scaled (num base : Nat) (exponent : Int) : Nat × Nat :=
  if 0 ≤ exponent then (num * Nat.pow base exponent.toNat, 1)
  else (num, Nat.pow base (-exponent).toNat)

/-- The greatest `e` with `2 ^ e ≤ num / den`, for positive `num` and `den`. -/
def floorLog2 (num den : Nat) : Int :=
  let e : Int := (Nat.log2 num : Int) - Nat.log2 den
  let fits := if 0 ≤ e then den * Nat.pow 2 e.toNat ≤ num else den ≤ num * Nat.pow 2 (-e).toNat
  if fits then e else e - 1

/-- A binary format: the bits of the fraction, the power of two of the least positive number, and
the magnitude bits of infinity. -/
structure BinaryFormat where
  fractionBits : Nat
  leastExponent : Int
  infinityBits : Nat
deriving DecidableEq, Repr

namespace BinaryFormat

/-- Single precision. -/
def single : BinaryFormat := ⟨23, -149, 0x7F800000⟩

/-- Double precision. -/
def double : BinaryFormat := ⟨52, -1074, 0x7FF0000000000000⟩

/-- The magnitude bits of the number nearest to `num / den`. The quantum is a power of two that
leaves the significant bits of the format, and never below the least positive number. -/
def magnitude (f : BinaryFormat) (num den : Nat) : Nat :=
  if num = 0 then 0
  else
    let quantum : Int := max f.leastExponent (floorLog2 num den - f.fractionBits)
    let significand :=
      if 0 ≤ quantum then roundHalfEven num (den * Nat.pow 2 quantum.toNat)
      else roundHalfEven (num * Nat.pow 2 (-quantum).toNat) den
    min ((quantum - f.leastExponent).toNat * Word.count f.fractionBits + significand) f.infinityBits

/-- The significand and the power of two of finite magnitude bits. -/
def parts (f : BinaryFormat) (bits : Nat) : Nat × Int :=
  let exponent := bits / Word.count f.fractionBits
  let fraction := bits % Word.count f.fractionBits
  if exponent = 0 then (fraction, f.leastExponent)
  else (fraction + Word.count f.fractionBits, f.leastExponent + exponent - 1)

/-- The fraction that finite magnitude bits stand for. -/
def fraction (f : BinaryFormat) (bits : Nat) : Nat × Nat :=
  let (significand, exponent) := f.parts bits
  scaled significand 2 exponent

/-- The magnitude of a product. -/
def mul (f : BinaryFormat) (a b : Nat) : Nat :=
  let (an, ad) := f.fraction a
  let (bn, bd) := f.fraction b
  f.magnitude (an * bn) (ad * bd)

/-- The magnitude of a quotient, whose divisor is not zero. -/
def div (f : BinaryFormat) (a b : Nat) : Nat :=
  let (an, ad) := f.fraction a
  let (bn, bd) := f.fraction b
  f.magnitude (an * bd) (ad * bn)

end BinaryFormat

end MailTrace.Text
