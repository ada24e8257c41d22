import Mathlib.Algebra.Group.Int.Defs
import MailTrace.Checksum

/-!
# What checksums tell apart

The multiplier is odd, so it has an inverse modulo `2 ^ 32` and the step of one octet loses nothing:
different octets lead one state to different ones (`push_inj_right`), and different states stay
different under one octet (`push_inj_left`), hence under any number of them (`write_inj`). A change of
one octet is never lost (`detects_change`).
-/

namespace MailTrace.Checksum

/-! ## Steps -/

/-- The number that the multiplier takes to one. -/
def multiplierInverse : UInt32 := 0x359C449B

theorem multiplier_mul_inverse : multiplier * multiplierInverse = 1 := by decide

theorem mul_multiplier_inj {x y : UInt32} : x * multiplier = y * multiplier ↔ x = y := by
  refine ⟨fun h => ?_, fun h => by rw [h]⟩
  calc x = x * multiplier * multiplierInverse := by
        rw [UInt32.mul_assoc, multiplier_mul_inverse, UInt32.mul_one]
    _ = y * multiplier * multiplierInverse := by rw [h]
    _ = y := by rw [UInt32.mul_assoc, multiplier_mul_inverse, UInt32.mul_one]

theorem push_eq_push_iff {s t : Checksum} {a b : UInt8} :
    s.push a = t.push b ↔ s.state ^^^ a.toUInt32 = t.state ^^^ b.toUInt32 := by
  rw [push, push, mk.injEq, mul_multiplier_inj]

theorem push_inj_left {s t : Checksum} {b : UInt8} : s.push b = t.push b ↔ s = t := by
  rw [push_eq_push_iff, UInt32.xor_left_inj]
  cases s
  cases t
  rw [mk.injEq]

theorem push_inj_right {s : Checksum} {a b : UInt8} : s.push a = s.push b ↔ a = b := by
  rw [push_eq_push_iff, UInt32.xor_right_inj, UInt8.toUInt32_inj]

/-- Different states stay different, whatever octets come. -/
theorem write_inj {s t : Checksum} {bs : List UInt8} : s.write bs = t.write bs ↔ s = t := by
  induction bs generalizing s t with
  | nil => rfl
  | cons b bs ih => rw [write_cons, write_cons, ih, push_inj_left]

/-- Octets can come in pieces. -/
theorem foldl_write (s : Checksum) (parts : List (List UInt8)) :
    parts.foldl write s = s.write parts.flatten := by
  induction parts generalizing s with
  | nil => rfl
  | cons part parts ih => rw [List.foldl_cons, ih, List.flatten_cons, write_append]

/-! ## Sums -/

theorem sum_inj {s t : Checksum} : s.sum = t.sum ↔ s = t := by
  cases s
  cases t
  rw [sum, sum, Int.ofNat_inj, UInt32.toNat_inj, mk.injEq]

/-- The sum is the state in a word with a sign that is twice as long. -/
theorem toInt_state (s : Checksum) : s.state.toUInt64.toInt64.toInt = s.sum := by
  have hlt : 2 * s.state.toUInt64.toBitVec.toNat < 2 ^ 64 := by
    have hstate := s.state.toNat_lt
    rw [UInt64.toNat_toBitVec, UInt32.toNat_toUInt64]
    omega
  calc s.state.toUInt64.toInt64.toInt = s.state.toUInt64.toBitVec.toInt := rfl
    _ = s.state.toUInt64.toBitVec.toNat := BitVec.toInt_eq_toNat_of_lt hlt
    _ = s.sum := by rw [UInt64.toNat_toBitVec, UInt32.toNat_toUInt64, sum]

/-- **A checksum tells any change of one octet and can be taken in pieces.** The octets before and after
the changed one are any. However octets are cut into parts, the parts lead to the sum of the whole. The
sum is the state zero-extended to 64 bits, so it is between 0 and `2 ^ 32 - 1`. -/
theorem detects_change :
    (∀ (before after : List UInt8) (a b : UInt8),
      (empty.write (before ++ a :: after)).sum = (empty.write (before ++ b :: after)).sum ↔ a = b) ∧
    (∀ parts : List (List UInt8), (parts.foldl write empty).sum = (empty.write parts.flatten).sum) ∧
    ∀ bs : List UInt8,
      (empty.write bs).state.toUInt64.toInt64.toInt = (empty.write bs).sum ∧
      0 ≤ (empty.write bs).sum ∧ (empty.write bs).sum ≤ 2 ^ 32 - 1 := by
  refine ⟨fun before after a b => ?_, fun parts => ?_, fun bs => ⟨toInt_state _, sum_nonneg _, ?_⟩⟩
  · rw [sum_inj, write_append, write_append, write_cons, write_cons, write_inj, push_inj_right]
  · rw [foldl_write]
  · have hlt := sum_lt (empty.write bs)
    have hcount : (Word.count 32 : Int) = 2 ^ 32 := by decide
    omega

end MailTrace.Checksum
