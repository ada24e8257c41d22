import MailTrace.Text.Utf8

/-!
# Octets of a text

A text is regained from its octets (`decode_encode`). The octets of a character stand for it whatever
follows them, by the number of octets that it takes. The octets of line breaks occur in the octets of a
text only where the text has them, since all octets of a longer character are above those of ASCII.
-/

namespace MailTrace.Text.Utf8

/-! ## Octets by their numbers -/

theorem toNat_ofNat {n : Nat} (h : n < 256) : (UInt8.ofNat n).toNat = n := by
  rw [UInt8.toNat_ofNat']
  exact Nat.mod_eq_of_lt h

theorem lead_ofNat {n : Nat} (h : n < 256) :
    Lead.of (UInt8.ofNat n) =
      if n < 0x80 then .whole (Char.ofNat n)
      else if n < 0xC2 then .bad
      else if n < 0xE0 then .opens ⟨1, n - 0xC0, 0x80, 0xBF⟩
      else if n = 0xE0 then .opens ⟨2, 0, 0xA0, 0xBF⟩
      else if n = 0xED then .opens ⟨2, 0xD, 0x80, 0x9F⟩
      else if n < 0xF0 then .opens ⟨2, n - 0xE0, 0x80, 0xBF⟩
      else if n = 0xF0 then .opens ⟨3, 0, 0x90, 0xBF⟩
      else if n < 0xF4 then .opens ⟨3, n - 0xF0, 0x80, 0xBF⟩
      else if n = 0xF4 then .opens ⟨3, 4, 0x80, 0x8F⟩
      else .bad := by
  have hn := toNat_ofNat h
  have heq (m : UInt8) : UInt8.ofNat n = m ↔ n = m.toNat := by rw [← UInt8.toNat_inj, hn]
  have hlt (m : UInt8) : UInt8.ofNat n < m ↔ n < m.toNat := by rw [UInt8.lt_iff_toNat_lt, hn]
  unfold Lead.of
  simp only [heq, hlt, hn, UInt8.reduceToNat]

theorem start_of_opens {b : UInt8} {p : Pending} (h : Lead.of b = .opens p) :
    start b = ([], some p) := by
  unfold start
  rw [h]

/-- One more octet in its range. -/
theorem step_ofNat {p : Pending} {n : Nat} (hlow : p.low.toNat ≤ n) (hhigh : n ≤ p.high.toNat) :
    step (some p) (UInt8.ofNat n) =
      if p.missing ≤ 1 then ([Char.ofNat (p.bits * 64 + (n - 0x80))], none)
      else ([], some ⟨p.missing - 1, p.bits * 64 + (n - 0x80), 0x80, 0xBF⟩) := by
  have hn := toNat_ofNat (Nat.lt_of_le_of_lt hhigh p.high.toNat_lt)
  have hin : (p.low ≤ UInt8.ofNat n && UInt8.ofNat n ≤ p.high) = true := by
    simp only [UInt8.le_iff_toNat_le, hn, hlow, hhigh, decide_true, Bool.and_self]
  unfold step
  simp only [hin, if_true, hn]

/-- The text of the octets from inside of a character on. -/
theorem decodeFrom_cons_of_step {pending next : Option Pending} {b : UInt8} {out : List Char}
    (h : step pending b = (out, next)) (bs : List UInt8) :
    decodeFrom pending (b :: bs) = out ++ decodeFrom next bs := by
  rw [decodeFrom, h]

/-! ## Characters -/

/-- The first octet of a character that others follow. -/
theorem decodeFrom_opens {n : Nat} {p : Pending} (h : Lead.of (UInt8.ofNat n) = .opens p)
    (bs : List UInt8) : decodeFrom none (UInt8.ofNat n :: bs) = decodeFrom (some p) bs := by
  have hstep : step none (UInt8.ofNat n) = ([], some p) := start_of_opens h
  exact decodeFrom_cons_of_step hstep bs

section Inside

variable {missing bits n : Nat} {low high : UInt8}

/-- An octet of a character that others follow. -/
theorem decodeFrom_inner (hmissing : 1 < missing) (hlow : low.toNat ≤ n) (hhigh : n ≤ high.toNat)
    (bs : List UInt8) :
    decodeFrom (some ⟨missing, bits, low, high⟩) (UInt8.ofNat n :: bs) =
      decodeFrom (some ⟨missing - 1, bits * 64 + (n - 0x80), 0x80, 0xBF⟩) bs := by
  have hstep := step_ofNat (p := ⟨missing, bits, low, high⟩) hlow hhigh
  rw [if_neg (Nat.not_le.2 hmissing)] at hstep
  exact decodeFrom_cons_of_step hstep bs

/-- The last octet of a character. -/
theorem decodeFrom_last (hlow : low.toNat ≤ n) (hhigh : n ≤ high.toNat) (bs : List UInt8) :
    decodeFrom (some ⟨1, bits, low, high⟩) (UInt8.ofNat n :: bs) =
      Char.ofNat (bits * 64 + (n - 0x80)) :: decodeFrom none bs := by
  have hstep := step_ofNat (p := ⟨1, bits, low, high⟩) hlow hhigh
  rw [if_pos (Nat.le_refl 1)] at hstep
  exact decodeFrom_cons_of_step hstep bs

end Inside

/-- The octets that go on in a character. -/
theorem tail_range {n : Nat} :
    (0x80 : UInt8).toNat ≤ n % 64 + 128 ∧ n % 64 + 128 ≤ (0xBF : UInt8).toNat := by
  rw [show (0x80 : UInt8).toNat = 0x80 from rfl, show (0xBF : UInt8).toNat = 0xBF from rfl]
  omega

/-- The first of two octets. -/
theorem lead_two {n : Nat} (hlow : 0xC2 ≤ n) (hhigh : n < 0xE0) :
    Lead.of (UInt8.ofNat n) = .opens ⟨1, n - 0xC0, 0x80, 0xBF⟩ := by
  rw [lead_ofNat (by omega), if_neg (by omega), if_neg (by omega), if_pos hhigh]

/-- The first of three octets, and the range of the second. It has to be higher where a shorter form
would do, and lower where the code points belong to no character. -/
theorem lead_three {n : Nat} (h : n < 16) :
    ∃ low high : UInt8, Lead.of (UInt8.ofNat (n + 0xE0)) = .opens ⟨2, n, low, high⟩ ∧
      low.toNat = (if n = 0 then 0xA0 else 0x80) ∧ high.toNat = (if n = 0xD then 0x9F else 0xBF) := by
  rw [lead_ofNat (by omega), if_neg (by omega), if_neg (by omega), if_neg (by omega)]
  by_cases hzero : n = 0
  · subst hzero
    exact ⟨0xA0, 0xBF, if_pos rfl, rfl, rfl⟩
  · rw [if_neg (by omega)]
    by_cases hthirteen : n = 0xD
    · subst hthirteen
      exact ⟨0x80, 0x9F, if_pos rfl, rfl, rfl⟩
    · rw [if_neg (by omega), if_pos (by omega), Nat.add_sub_cancel, if_neg hzero, if_neg hthirteen]
      exact ⟨0x80, 0xBF, rfl, rfl, rfl⟩

/-- The first of four octets, and the range of the second. It has to be higher where a shorter form
would do, and lower after the last code point. -/
theorem lead_four {n : Nat} (h : n < 5) :
    ∃ low high : UInt8, Lead.of (UInt8.ofNat (n + 0xF0)) = .opens ⟨3, n, low, high⟩ ∧
      low.toNat = (if n = 0 then 0x90 else 0x80) ∧ high.toNat = (if n = 4 then 0x8F else 0xBF) := by
  rw [lead_ofNat (by omega), if_neg (by omega), if_neg (by omega), if_neg (by omega),
    if_neg (by omega), if_neg (by omega), if_neg (by omega)]
  by_cases hzero : n = 0
  · subst hzero
    exact ⟨0x90, 0xBF, if_pos rfl, rfl, rfl⟩
  · rw [if_neg (by omega)]
    by_cases hfour : n = 4
    · subst hfour
      exact ⟨0x80, 0x8F, rfl, rfl, rfl⟩
    · rw [if_pos (by omega), Nat.add_sub_cancel, if_neg hzero, if_neg hfour]
      exact ⟨0x80, 0xBF, rfl, rfl, rfl⟩

/-- The octets of a character stand for it, whatever follows them. -/
theorem decode_utf8EncodeChar (c : Char) (bs : List UInt8) :
    decodeFrom none (String.utf8EncodeChar c ++ bs) = c :: decodeFrom none bs := by
  have hvalid : c.toNat < 0xD800 ∨ 0xDFFF < c.toNat ∧ c.toNat < 0x110000 := c.valid
  have hc {n : Nat} (h : n = c.toNat) : Char.ofNat n = c := h ▸ Char.ofNat_toNat c
  unfold String.utf8EncodeChar
  dsimp only
  rw [show c.val.toNat = c.toNat from rfl]
  generalize c.toNat = v at hvalid hc
  split
  · rename_i hone
    have hstep : step none (UInt8.ofNat v) = ([c], none) := by
      show start _ = _
      unfold start
      rw [lead_ofNat (by omega), if_pos (by omega), hc rfl]
    exact decodeFrom_cons_of_step hstep bs
  · rename_i hone
    split
    · rename_i htwo
      rw [List.cons_append, List.cons_append, List.nil_append,
        decodeFrom_opens (lead_two (by omega) (by omega)), decodeFrom_last tail_range.1 tail_range.2,
        hc (by omega)]
    · rename_i htwo
      split
      · rename_i hthree
        obtain ⟨low, high, hlead, hlow, hhigh⟩ := lead_three (n := v / 4096 % 16) (by omega)
        rw [List.cons_append, List.cons_append, List.cons_append, List.nil_append,
          decodeFrom_opens hlead,
          decodeFrom_inner (by decide) (by rw [hlow]; split <;> omega)
            (by rw [hhigh]; split <;> omega),
          decodeFrom_last tail_range.1 tail_range.2, hc (by omega)]
      · rename_i hthree
        obtain ⟨low, high, hlead, hlow, hhigh⟩ := lead_four (n := v / 262144 % 8) (by omega)
        rw [List.cons_append, List.cons_append, List.cons_append, List.cons_append, List.nil_append,
          decodeFrom_opens hlead,
          decodeFrom_inner (by decide) (by rw [hlow]; split <;> omega)
            (by rw [hhigh]; split <;> omega),
          decodeFrom_inner (by decide) tail_range.1 tail_range.2,
          decodeFrom_last tail_range.1 tail_range.2, hc (by omega)]

/-- An octet below those of longer characters is a character of its own. -/
theorem utf8EncodeChar_eq_of_mem {c : Char} {b : UInt8} (h : b ∈ String.utf8EncodeChar c)
    (hb : b.toNat < 0x80) : c.toNat = b.toNat ∧ String.utf8EncodeChar c = [b] := by
  have hvalid : c.toNat < 0xD800 ∨ 0xDFFF < c.toNat ∧ c.toNat < 0x110000 := c.valid
  revert h
  unfold String.utf8EncodeChar
  dsimp only
  rw [show c.val.toNat = c.toNat from rfl]
  generalize c.toNat = v at hvalid
  have habove {n : Nat} (hlow : 128 ≤ n) (hhigh : n < 256) : b ≠ UInt8.ofNat n := by
    rintro rfl
    rw [toNat_ofNat hhigh] at hb
    omega
  split
  · intro h
    rw [List.mem_singleton.1 h, toNat_ofNat (by omega)]
    exact ⟨rfl, rfl⟩
  · intro h
    exfalso
    revert h
    split
    · simp only [List.mem_cons, List.not_mem_nil, or_false, imp_false, not_or]
      exact ⟨habove (by omega) (by omega), habove (by omega) (by omega)⟩
    · split
      · simp only [List.mem_cons, List.not_mem_nil, or_false, imp_false, not_or]
        exact ⟨habove (by omega) (by omega), habove (by omega) (by omega),
          habove (by omega) (by omega)⟩
      · simp only [List.mem_cons, List.not_mem_nil, or_false, imp_false, not_or]
        exact ⟨habove (by omega) (by omega), habove (by omega) (by omega),
          habove (by omega) (by omega), habove (by omega) (by omega)⟩

/-! ## Texts -/

/-- **A text is regained from its octets.** -/
theorem decode_encode (cs : List Char) : decode (encode cs) = cs := by
  unfold decode encode
  induction cs with
  | nil => rfl
  | cons c cs ih => rw [List.flatMap_cons, decode_utf8EncodeChar, ih]

@[simp] theorem encode_append (cs ds : List Char) : encode (cs ++ ds) = encode cs ++ encode ds :=
  List.flatMap_append

theorem encode_eq_nil_iff {cs : List Char} : encode cs = [] ↔ cs = [] := by
  constructor
  · intro h
    rw [← decode_encode cs, h]
    rfl
  · rintro rfl
    rfl

/-- An octet of ASCII occurs only where the text has its character. -/
theorem mem_of_mem_encode {cs : List Char} {b : UInt8} (h : b ∈ encode cs) (hb : b.toNat < 0x80) :
    Char.ofNat b.toNat ∈ cs := by
  obtain ⟨c, hc, hmem⟩ := List.mem_flatMap.1 h
  rwa [← (utf8EncodeChar_eq_of_mem hmem hb).1, Char.ofNat_toNat]

theorem getLast?_of_getLast?_encode {cs : List Char} {b : UInt8} (h : (encode cs).getLast? = some b)
    (hb : b.toNat < 0x80) : cs.getLast? = some (Char.ofNat b.toNat) := by
  rcases List.eq_nil_or_concat cs with rfl | ⟨front, c, rfl⟩
  · cases h
  · have hne : String.utf8EncodeChar c ≠ [] := by
      intro hnil
      have hlength := String.length_utf8EncodeChar c
      rw [hnil] at hlength
      exact absurd hlength.symm (Nat.ne_of_gt c.utf8Size_pos)
    have hc : encode [c] = String.utf8EncodeChar c := List.append_nil _
    rw [List.concat_eq_append, encode_append, hc, List.getLast?_append,
      List.getLast?_eq_some_getLast hne, Option.some_or, ← List.getLast?_eq_some_getLast hne] at h
    have hmem : b ∈ String.utf8EncodeChar c := List.mem_of_getLast? h
    rw [List.concat_eq_append, List.getLast?_concat, ← (utf8EncodeChar_eq_of_mem hmem hb).1,
      Char.ofNat_toNat]

end MailTrace.Text.Utf8
