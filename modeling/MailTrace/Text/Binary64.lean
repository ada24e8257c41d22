import MailTrace.Text.Binary

/-!
# Double-precision numbers

Decimals read as numbers with 53 significant bits, and the shortest decimals that stand for such
numbers. A decimal is read in steps that are each rounded: its significand becomes a number of the
format and is then multiplied or divided by powers of ten of the format. So what is read need not be
the nearest number; what is written is the nearest of the shortest decimals that no other number is
nearer to.
-/

namespace MailTrace.Text

/-- A finite double-precision number by its bits: sign, eleven exponent bits, 52 fraction bits. -/
structure Binary64 where
  bits : UInt64
deriving DecidableEq, Repr, Inhabited

namespace Binary64

/-- The bits of a magnitude are below the sign. -/
def signBit : Nat := Word.count 63

/-- The number with a sign and magnitude bits. -/
def ofMagnitude (negative : Bool) (magnitude : Nat) : Binary64 :=
  ⟨UInt64.ofNat (if negative then signBit + magnitude else magnitude)⟩

/-- The number has a minus sign. -/
def isNegative (x : Binary64) : Bool := signBit ≤ x.bits.toNat

/-- The bits without the sign. -/
def magnitude (x : Binary64) : Nat := x.bits.toNat % signBit

/-! ## Reading -/

/-- The greatest exponent of a power of ten of the format. -/
def greatestPower : Nat := 308

/-- The power of ten nearest to `10 ^ n`. -/
def powerOfTen (n : Nat) : Nat := BinaryFormat.double.magnitude (Nat.pow 10 n) 1

/-- The magnitude times `10 ^ exponent`, step by step, unless it is too large. -/
def scale? (magnitude : Nat) (exponent : Int) : Option Nat :=
  if exponent < -(greatestPower : Int) then
    if magnitude = 0 then some 0
    else
      scale? (BinaryFormat.double.div magnitude (powerOfTen greatestPower))
        (exponent + greatestPower)
  else if exponent < 0 then
    some (BinaryFormat.double.div magnitude (powerOfTen (-exponent).toNat))
  else if exponent ≤ greatestPower then
    let product := BinaryFormat.double.mul magnitude (powerOfTen exponent.toNat)
    if product = BinaryFormat.double.infinityBits then none else some product
  else if magnitude = 0 then some 0 else none
termination_by (-exponent).toNat
decreasing_by
  have : (greatestPower : Int) = 308 := rfl
  omega

/-- The number that a decimal with a sign is read as, unless it is too large. -/
def ofDecimal? (negative : Bool) (significand : Nat) (exponent : Int) : Option Binary64 :=
  (scale? (BinaryFormat.double.magnitude significand 1) exponent).map (ofMagnitude negative)

/-! ## Writing -/

/-- Around a number are all reals nearer to it than to any other number of the format. In quarters
of its quantum: where they begin, the number, where they end, and whether the ends belong to them,
as they do where the significand is even. -/
def neighbourhood (magnitude : Nat) : Nat × Nat × Nat × Bool :=
  let (significand, exponent) := BinaryFormat.double.parts magnitude
  let isStep := significand = Word.count 52 && BinaryFormat.double.leastExponent < exponent
  let value := 4 * significand
  (if isStep then value - 1 else value - 2, value, value + 2, significand % 2 = 0)

/-- The nearest multiple of `10 ^ exponent` in the neighbourhood of a magnitude, if there is one. -/
def multiple? (magnitude : Nat) (exponent : Int) : Option Nat :=
  let (low, value, high, closed) := neighbourhood magnitude
  let (tn, td) := scaled 1 2 ((BinaryFormat.double.parts magnitude).2 - 2)
  let (dn, dd) := scaled 1 10 exponent
  let num := tn * dd
  let den := td * dn
  let isNear (c : Nat) : Bool :=
    if closed then low * num ≤ c * den && c * den ≤ high * num
    else low * num < c * den && c * den < high * num
  let below := value * num / den
  let nearest := roundHalfEven (value * num) den
  if isNear nearest then some nearest
  else if isNear below then some below
  else if isNear (below + 1) then some (below + 1)
  else none

/-- The first multiple on ever finer grids, and the power of ten of its grid. -/
def firstMultiple (magnitude : Nat) : Nat → Int → Nat × Int
  | 0, exponent => (0, exponent)
  | n + 1, exponent =>
    match multiple? magnitude exponent with
    | some c => (c, exponent)
    | none => firstMultiple magnitude n (exponent - 1)

/-- The shortest decimal that stands for a positive magnitude, as digits and a power of ten. The
first grid is coarser than the number; seventeen digits are always enough. -/
def shortest (magnitude : Nat) : Nat × Int :=
  let (num, den) := BinaryFormat.double.fraction magnitude
  firstMultiple magnitude 22 ((floorLog2 num den + 1) * 30103 / 100000 + 2)

/-- Decimals below `10 ^ 16` and from `10 ^ -5` on are written without a power of ten. A point is
always written, except before a power of ten with one digit. -/
def layout (digits : List Char) (exponent : Int) : List Char :=
  let point : Int := digits.length + exponent
  if 0 ≤ exponent && point ≤ 16 then digits ++ List.replicate exponent.toNat '0' ++ ['.', '0']
  else if 0 < point && point ≤ 16 then
    digits.take point.toNat ++ ['.'] ++ digits.drop point.toNat
  else if -5 < point && point ≤ 0 then
    ['0', '.'] ++ List.replicate (-point).toNat '0' ++ digits
  else
    let fraction := if digits.length = 1 then [] else '.' :: digits.drop 1
    digits.take 1 ++ fraction ++ ['e'] ++ (toString (point - 1)).toList

/-- The text of a number. -/
def text (x : Binary64) : List Char :=
  let front := if x.isNegative then ['-'] else []
  if x.magnitude = 0 then front ++ ['0', '.', '0']
  else
    let (digits, exponent) := shortest x.magnitude
    front ++ layout (Nat.toDigits 10 digits) exponent

end Binary64

end MailTrace.Text
