/-!
# Words

Whole numbers of a fixed width in bits, without a sign or with one.
-/

namespace MailTrace.Word

/-- How many numbers a word of some bits tells apart. -/
def count (bits : Nat) : Nat := Nat.pow 2 bits

/-- The least number of a word with a sign. -/
def least (bits : Nat) : Int := -(count (bits - 1) : Int)

/-- The greatest number of a word with a sign. -/
def greatest (bits : Nat) : Int := (count (bits - 1) : Int) - 1

/-- A word with a sign holds the number. -/
def holds (bits : Nat) (n : Int) : Bool := least bits ≤ n && n ≤ greatest bits

/-- The number of a word with a sign that is nearest to a number. -/
def clamp (bits : Nat) (n : Int) : Int := max (least bits) (min n (greatest bits))

end MailTrace.Word
