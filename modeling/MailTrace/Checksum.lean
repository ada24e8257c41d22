import MailTrace.Text.Utf8
import MailTrace.Word

/-!
# Checksums of lines

A running checksum of octets: each octet is mixed into the low bits and the state multiplied by a
fixed odd number modulo `2 ^ 32`. A delivery refers to a log line by its second and this sum.
-/

namespace MailTrace

/-- The state of a running checksum. -/
structure Checksum where
  state : UInt32
deriving DecidableEq, Repr, Inhabited

namespace Checksum

/-- The state before the first octet. -/
def empty : Checksum := ⟨0x811C9DC5⟩

/-- The odd number the state is multiplied by. -/
def multiplier : UInt32 := 0x01000193

/-- One more octet. -/
def push (s : Checksum) (b : UInt8) : Checksum := ⟨(s.state ^^^ b.toUInt32) * multiplier⟩

/-- More octets. -/
def write (s : Checksum) (bs : List UInt8) : Checksum := bs.foldl push s

@[simp] theorem write_nil (s : Checksum) : s.write [] = s := rfl

@[simp] theorem write_cons (s : Checksum) (b : UInt8) (bs : List UInt8) :
    s.write (b :: bs) = (s.push b).write bs := rfl

theorem write_append (s : Checksum) (bs cs : List UInt8) :
    s.write (bs ++ cs) = (s.write bs).write cs := by simp [write]

/-- The sum as it is stored: a nonnegative number. -/
def sum (s : Checksum) : Int := s.state.toNat

theorem sum_nonneg (s : Checksum) : 0 ≤ s.sum := by simp [sum]

theorem sum_lt (s : Checksum) : s.sum < Word.count 32 := by
  have := s.state.toNat_lt
  simp only [sum, Word.count, Nat.pow_eq]
  omega

/-- The sum of a text, taken over its UTF-8 octets. -/
def ofText (text : String) : Int := (empty.write (Text.Utf8.encode text.toList)).sum

end Checksum

end MailTrace
