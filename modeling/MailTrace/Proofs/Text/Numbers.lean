import Mathlib.Data.List.TakeWhile
import MailTrace.Text.Binary32
import MailTrace.Text.Blank

/-!
# Decimal numbers, written

A whole number is written by its decimal digits, and reading gives it back, at any width that holds
it. The texts of other numbers hold no separators of a log line.
-/

namespace MailTrace.Text

variable {cs : List Char} {n : Nat}

theorem natural?_eq_some_iff :
    natural? cs = some n ↔
      cs ≠ [] ∧ (∀ c ∈ cs, isDigit c = true) ∧ Nat.ofDigitChars 10 cs 0 = n := by
  unfold natural?
  rw [← List.all_eq_true]
  cases cs with
  | nil => simp
  | cons c cs => cases (c :: cs).all isDigit <;> simp

theorem isDigit_of_natural? (h : natural? cs = some n) : ∀ c ∈ cs, isDigit c = true :=
  (natural?_eq_some_iff.1 h).2.1

theorem toNat_le_of_isDigit {c : Char} (h : isDigit c = true) : c.toNat ≤ 0x7F := by
  simp only [isDigit, Bool.and_eq_true, decide_eq_true_eq] at h
  have hle : c.toNat ≤ '9'.toNat := h.2
  exact Nat.le_trans hle (by decide)

theorem exists_digitChar {c : Char} (h : isDigit c = true) : ∃ d < 10, c = Nat.digitChar d := by
  have hall : ∀ d < 10, Nat.digitChar d = Char.ofNat (48 + d) := by decide
  obtain ⟨hlow, hhigh⟩ := Bool.and_eq_true_iff.1 h
  have hlow : 48 ≤ c.toNat := of_decide_eq_true hlow
  have hhigh : c.toNat ≤ 57 := of_decide_eq_true hhigh
  refine ⟨c.toNat - 48, by omega, ?_⟩
  rw [hall _ (by omega), Nat.add_sub_cancel' hlow, Char.ofNat_toNat]

theorem isDigit_of_mem_toDigits {c : Char} (h : c ∈ Nat.toDigits 10 n) : isDigit c = true :=
  Nat.isDigit_of_mem_toDigits (by decide) (by decide) h

theorem notMem_toDigits {c : Char} (h : isDigit c = false) (n : Nat) : c ∉ Nat.toDigits 10 n :=
  fun hmem => absurd (isDigit_of_mem_toDigits hmem) (by simp [h])

theorem isBlank_of_isDigit {c : Char} (h : isDigit c = true) : isBlank c = false := by
  have hall : ∀ d < 10, isBlank (Nat.digitChar d) = false := by decide
  obtain ⟨d, hd, rfl⟩ := exists_digitChar h
  exact hall d hd

theorem natural?_toDigits (n : Nat) : natural? (Nat.toDigits 10 n) = some n :=
  natural?_eq_some_iff.2 ⟨Nat.toDigits_ne_nil, fun _ => isDigit_of_mem_toDigits,
    Nat.ofDigitChars_toDigits (by decide) (by decide)⟩

/-- A positive number is written without needless zeros. -/
theorem head?_toDigits_ne (h : n ≠ 0) : (Nat.toDigits 10 n).head? ≠ some '0' := by
  induction n using Nat.strongRecOn with
  | _ n ih =>
    rw [Nat.toDigits_eq_if (by decide)]
    split
    · rename_i hn
      have hall : ∀ n < 10, n ≠ 0 → [Nat.digitChar n].head? ≠ some '0' := by decide
      exact hall n hn h
    · have hhead : (Nat.toDigits 10 (n / 10)).head? ≠ some '0' := ih (n / 10) (by omega) (by omega)
      obtain ⟨c, cs, hdigits⟩ := List.exists_cons_of_ne_nil (Nat.toDigits_ne_nil (n := n / 10))
      rw [hdigits] at hhead ⊢
      exact hhead

/-- A text of digits has no sign to skip. -/
theorem unsigned?_of_natural? {bound : Nat} (h : natural? cs = some n) (hn : n < bound) :
    unsigned? bound cs = some n := by
  unfold unsigned?
  split
  · exact absurd (isDigit_of_natural? h '+' (by simp)) (by decide)
  · simp [h, hn]

theorem isDigit_or_of_unsigned? {bound : Nat} (h : unsigned? bound cs = some n) :
    ∀ c ∈ cs, isDigit c = true ∨ c = '+' := by
  intro c hc
  unfold unsigned? at h
  obtain ⟨hnatural, -⟩ := Option.filter_eq_some_iff.1 h
  split at hnatural
  · rcases List.mem_cons.1 hc with rfl | hc
    · exact .inr rfl
    · exact .inl (isDigit_of_natural? hnatural c hc)
  · exact .inl (isDigit_of_natural? hnatural c hc)

theorem unsigned?_toDigits {bound : Nat} (hn : n < bound) :
    unsigned? bound (Nat.toDigits 10 n) = some n :=
  unsigned?_of_natural? (natural?_toDigits n) hn

theorem unsigned16?_toDigits (n : UInt16) : unsigned16? (Nat.toDigits 10 n.toNat) = some n := by
  unfold unsigned16?
  rw [unsigned?_toDigits (show n.toNat < Word.count 16 from n.toNat_lt)]
  exact congrArg some UInt16.ofNat_toNat

theorem unsigned32?_toDigits (n : UInt32) : unsigned32? (Nat.toDigits 10 n.toNat) = some n := by
  unfold unsigned32?
  rw [unsigned?_toDigits (show n.toNat < Word.count 32 from n.toNat_lt)]
  exact congrArg some UInt32.ofNat_toNat

theorem unsigned64?_toDigits (n : UInt64) : unsigned64? (Nat.toDigits 10 n.toNat) = some n := by
  unfold unsigned64?
  rw [unsigned?_toDigits (show n.toNat < Word.count 64 from n.toNat_lt)]
  exact congrArg some UInt64.ofNat_toNat

/-! ## Single precision -/

/-- A character that does not part the numbers of a log line. -/
def NoSeparator (c : Char) : Prop := c ≠ ',' ∧ c ≠ '/'

instance : DecidablePred NoSeparator := fun _ => inferInstanceAs (Decidable (_ ∧ _))

theorem noSeparator_of_isDigit {c : Char} (h : isDigit c = true) : NoSeparator c := by
  obtain ⟨d, hd, rfl⟩ := exists_digitChar h
  have hall : ∀ d < 10, NoSeparator (Nat.digitChar d) := by decide
  exact hall d hd

theorem noSeparator_of_natural? (h : natural? cs = some n) : ∀ c ∈ cs, NoSeparator c :=
  fun c hc => noSeparator_of_isDigit (isDigit_of_natural? h c hc)

theorem noSeparator_takeWhile (cs : List Char) : ∀ c ∈ cs.takeWhile isDigit, NoSeparator c := by
  intro c hc
  exact noSeparator_of_isDigit (List.mem_takeWhile_imp (p := isDigit) hc)

namespace Binary32

theorem noSeparator_of_exponent? {e : Int} (h : exponent? cs = some e) :
    ∀ c ∈ cs, NoSeparator c := by
  unfold exponent? at h
  split at h
  all_goals obtain ⟨n, hn, -⟩ := Option.map_eq_some_iff.1 h
  · obtain ⟨m, hm, -⟩ := Option.bind_eq_some_iff.1 hn
    exact List.forall_mem_cons.2 ⟨by decide, noSeparator_of_natural? hm⟩
  · exact List.forall_mem_cons.2 ⟨by decide, noSeparator_of_natural? hn⟩
  · exact noSeparator_of_natural? hn

/-- What follows the digits of a number is an exponent. -/
theorem noSeparator_of_tail {rest : List Char} {whole : Nat} {scaled : Int → Nat} {bits : Nat}
    (h : (match rest with
      | [] => some whole
      | mark :: tail =>
        if mark = 'e' || mark = 'E' then (exponent? tail).map scaled else none) = some bits) :
    ∀ c ∈ rest, NoSeparator c := by
  split at h
  · simp
  · rename_i mark tail
    split at h
    · rename_i hmark
      obtain ⟨e, he, -⟩ := Option.map_eq_some_iff.1 h
      refine List.forall_mem_cons.2 ⟨?_, noSeparator_of_exponent? he⟩
      rcases Bool.or_eq_true_iff.1 hmark with hmark | hmark
      · rw [of_decide_eq_true hmark]
        decide
      · rw [of_decide_eq_true hmark]
        decide
    · cases h

theorem noSeparator_of_decimal? {bits : Nat} (h : decimal? cs = some bits) :
    ∀ c ∈ cs, NoSeparator c := by
  rw [← List.takeWhile_append_dropWhile (p := isDigit) (l := cs)]
  refine List.forall_mem_append.2 ⟨noSeparator_takeWhile cs, ?_⟩
  unfold decimal? at h
  dsimp only at h
  split at h
  · rename_i tail hafter
    split at h
    · cases h
    · rw [hafter, ← List.takeWhile_append_dropWhile (p := isDigit) (l := tail)]
      exact List.forall_mem_cons.2 ⟨by decide,
        List.forall_mem_append.2 ⟨noSeparator_takeWhile tail, noSeparator_of_tail h⟩⟩
  · split at h
    · cases h
    · exact noSeparator_of_tail h

theorem noSeparator_of_word? {bits : Nat} (h : word? cs = some bits) :
    ∀ c ∈ cs, NoSeparator c := by
  have hlower {word : List Char} (hcomma : ',' ∉ word) (hslash : '/' ∉ word)
      (hcs : cs.map Char.toLower = word) : ∀ c ∈ cs, NoSeparator c := by
    intro c hc
    have hmem : c.toLower ∈ word := hcs ▸ List.mem_map_of_mem hc
    refine ⟨?_, ?_⟩
    · rintro rfl
      exact hcomma hmem
    · rintro rfl
      exact hslash hmem
  unfold word? at h
  dsimp only at h
  split at h
  · rename_i hcs
    rcases Bool.or_eq_true_iff.1 hcs with hcs | hcs
    · exact hlower (by decide) (by decide) (of_decide_eq_true hcs)
    · exact hlower (by decide) (by decide) (of_decide_eq_true hcs)
  · split at h
    · rename_i hcs
      exact hlower (by decide) (by decide) hcs
    · cases h

theorem noSeparator_of_read? {b : Binary32} (h : read? cs = some b) : ∀ c ∈ cs, NoSeparator c := by
  have hmagnitude {cs : List Char} {bits : Nat} (h : (decimal? cs).or (word? cs) = some bits) :
      ∀ c ∈ cs, NoSeparator c := by
    rcases Option.or_eq_some_iff.1 h with h | ⟨-, h⟩
    · exact noSeparator_of_decimal? h
    · exact noSeparator_of_word? h
  unfold read? at h
  dsimp only at h
  split at h
  all_goals obtain ⟨bits, hbits, -⟩ := Option.map_eq_some_iff.1 h
  · exact List.forall_mem_cons.2 ⟨by decide, hmagnitude hbits⟩
  · exact List.forall_mem_cons.2 ⟨by decide, hmagnitude hbits⟩
  · exact hmagnitude hbits

end Binary32

end MailTrace.Text
