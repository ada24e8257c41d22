import Mathlib.Algebra.GroupWithZero.Nat
import MailTrace.Proofs.Text.Numbers
import MailTrace.Time.DurationText

/-!
# Lengths of time that are zero

A length of time in words is zero exactly if every digit in the words is.

1. The digits of a text are those of its items in order (`digitsOf_item?`): blanks may stand among them,
   and no unit holds one.
2. A length that was made longer by an item is zero exactly if it was before and the numbers of the item
   are (`addItem?_eq_zero_iff`): no unit is empty, and since a fraction has to come out even, none is
   rounded away.
-/

namespace MailTrace.Time.Duration

open MailTrace.Text

/-! ## Digits -/

/-- The digits of a text. -/
def digitsOf (cs : List Char) : List Char := cs.filter isDigit

theorem digitsOf_append (cs ds : List Char) : digitsOf (cs ++ ds) = digitsOf cs ++ digitsOf ds :=
  List.filter_append cs ds

theorem digitsOf_dropWhile {p : Char → Bool} (hp : ∀ c, p c = true → isDigit c = false)
    (cs : List Char) : digitsOf (cs.dropWhile p) = digitsOf cs := by
  have hnone : digitsOf (cs.takeWhile p) = [] :=
    List.filter_eq_nil_iff.2 fun c hc => by simp [hp c (List.mem_takeWhile_imp hc)]
  calc digitsOf (cs.dropWhile p) = digitsOf (cs.takeWhile p) ++ digitsOf (cs.dropWhile p) := by
        rw [hnone, List.nil_append]
    _ = digitsOf cs := by rw [← digitsOf_append, List.takeWhile_append_dropWhile]

theorem isDigit_of_isBlank {c : Char} (h : isBlank c = true) : isDigit c = false := by
  cases hdigit : isDigit c with
  | false => rfl
  | true =>
    rw [isBlank_of_isDigit hdigit] at h
    cases h

theorem isDigit_of_inUnit {c : Char} (h : inUnit c = true) : isDigit c = false := by
  have hall : ∀ d < 10, inUnit (Nat.digitChar d) = false := by decide
  cases hdigit : isDigit c with
  | false => rfl
  | true =>
    obtain ⟨d, hd, rfl⟩ := exists_digitChar hdigit
    rw [hall d hd] at h
    cases h

theorem digitsOf_trimStart (cs : List Char) : digitsOf (trimStart cs) = digitsOf cs :=
  digitsOf_dropWhile (fun _ => isDigit_of_isBlank) cs

theorem digitsOf_trim (cs : List Char) : digitsOf (trim cs) = digitsOf cs := by
  have hend (ds : List Char) : digitsOf (trimEnd ds) = digitsOf ds := by
    unfold trimEnd digitsOf
    rw [List.filter_reverse]
    have hrest := digitsOf_dropWhile (fun _ => isDigit_of_isBlank) ds.reverse
    unfold digitsOf at hrest
    rw [hrest, List.filter_reverse, List.reverse_reverse]
  rw [trim, hend, digitsOf_trimStart]

/-- The digits at the start and those that follow are all digits. -/
theorem digitsAt_append_digitsOf (cs : List Char) :
    digitsAt cs ++ digitsOf (afterDigits cs) = digitsOf cs := by
  calc digitsAt cs ++ digitsOf (afterDigits cs) =
        digitsOf (cs.takeWhile inNumber ++ cs.dropWhile inNumber) := (digitsOf_append ..).symm
    _ = digitsOf cs := by rw [List.takeWhile_append_dropWhile]

theorem digitsOf_fraction? {cs rest : List Char} {fraction : Option (List Char)}
    (h : fraction? cs = some (fraction, rest)) :
    digitsOf cs = fraction.getD [] ++ digitsOf rest := by
  unfold fraction? at h
  split at h
  · rename_i tail
    split at h
    · cases h
    · cases h
      exact (digitsAt_append_digitsOf tail).symm
  · cases h
    rfl

theorem digitsOf_nextItem? {cs rest : List Char} (h : nextItem? cs = some rest) :
    digitsOf rest = digitsOf cs := by
  unfold nextItem? at h
  split at h
  · cases h
    rfl
  · split at h
    · cases h
      rfl
    · split at h
      · cases h
        exact digitsOf_trimStart _
      · cases h

/-- The digits of a text are those of the item at its start and those of the others. -/
theorem digitsOf_item? {cs rest : List Char} {item : Item} (h : item? cs = some (item, rest)) :
    ∃ whole, digitsOf cs = whole ++ item.fraction.getD [] ++ digitsOf rest ∧
      item.whole = Nat.ofDigitChars 10 whole 0 := by
  unfold item? at h
  split at h
  · cases h
  · rename_i c tail
    split at h
    · rename_i hdigit
      simp only [Option.bind_eq_bind, Option.bind_eq_some_iff, Prod.exists, Option.pure_def,
        Option.some.injEq, Prod.mk.injEq] at h
      obtain ⟨fraction, after, hfraction, unit, -, next, hnext, rfl, rfl⟩ := h
      refine ⟨c :: digitsAt tail, ?_, rfl⟩
      have hunit := digitsOf_dropWhile (fun _ => isDigit_of_inUnit) after
      calc digitsOf (c :: tail) = c :: digitsOf tail := List.filter_cons_of_pos hdigit
        _ = c :: (digitsAt tail ++ digitsOf (afterDigits tail)) := by rw [digitsAt_append_digitsOf]
        _ = c :: (digitsAt tail ++ (fraction.getD [] ++ digitsOf after)) := by
          rw [digitsOf_fraction? hfraction]
        _ = c :: digitsAt tail ++ fraction.getD [] ++ digitsOf next := by
          rw [digitsOf_nextItem? hnext, hunit, List.cons_append, List.cons_append, List.append_assoc]
    · cases h

/-! ## Zeros -/

/-- Digits make zero exactly if all of them are. -/
theorem ofDigitChars_eq_zero_iff {cs : List Char} {n : Nat} (h : ∀ c ∈ cs, isDigit c = true) :
    Nat.ofDigitChars 10 cs n = 0 ↔ n = 0 ∧ ∀ c ∈ cs, c = '0' := by
  induction cs generalizing n with
  | nil => simp
  | cons c cs ih =>
    obtain ⟨hc, hcs⟩ := List.forall_mem_cons.1 h
    have hzero : 10 * n + (c.toNat - '0'.toNat) = 0 ↔ n = 0 ∧ c = '0' := by
      obtain ⟨d, hd, rfl⟩ := exists_digitChar hc
      have hall : ∀ d < 10, (Nat.digitChar d).toNat - '0'.toNat = 0 ↔ Nat.digitChar d = '0' := by
        decide
      rw [← hall d hd]
      omega
    rw [Nat.ofDigitChars_cons, ih hcs, hzero, List.forall_mem_cons, and_assoc]

/-- The numbers of an item are zero. -/
def Item.IsZero (item : Item) : Prop :=
  item.whole = 0 ∧ ∀ digits, item.fraction = some digits → Nat.ofDigitChars 10 digits 0 = 0

theorem eq_of_add? {d sum : Duration} {grains grain : Nat} (h : d.add? grains grain = some sum) :
    sum = d + grains * grain := by
  unfold add? at h
  exact (Option.some.inj (Option.ite_none_right_eq_some.1 h).2).symm

theorem grain_ne_zero (u : TimeUnit) : u.grain ≠ 0 ∧ u.nanos / u.grain ≠ 0 := by
  cases u <;> decide

theorem fractionGrain_ne_zero {u : TimeUnit} {grain : Nat} (h : u.fractionGrain? = some grain) :
    grain ≠ 0 ∧ u.nanos / grain ≠ 0 := by
  cases u <;> cases h <;> decide

theorem addWhole?_eq_zero_iff {d sum : Duration} {item : Item} (h : d.addWhole? item = some sum) :
    sum = 0 ↔ d = 0 ∧ item.whole = 0 := by
  obtain ⟨hgrain, hunit⟩ := grain_ne_zero item.unit
  unfold addWhole? at h
  obtain ⟨-, hsum⟩ := Option.ite_none_right_eq_some.1 h
  rw [eq_of_add? hsum, Nat.add_eq_zero_iff, mul_eq_zero_iff_right hgrain, mul_eq_zero_iff_right hunit]

theorem addFraction?_eq_zero_iff {d sum : Duration} {u : TimeUnit} {digits : List Char}
    (h : d.addFraction? u digits = some sum) :
    sum = 0 ↔ d = 0 ∧ Nat.ofDigitChars 10 digits 0 = 0 := by
  unfold addFraction? at h
  obtain ⟨grain, hu, h⟩ := Option.bind_eq_some_iff.1 h
  obtain ⟨hgrain, hunit⟩ := fractionGrain_ne_zero hu
  obtain ⟨hfits, hsum⟩ := Option.ite_none_right_eq_some.1 h
  simp only [Bool.and_eq_true, decide_eq_true_eq] at hfits
  obtain ⟨-, heven⟩ := hfits
  -- It comes out even, so it is not rounded down to nothing.
  have hexact : Nat.ofDigitChars 10 digits 0 * (u.nanos / grain) / Nat.pow 10 digits.length = 0 ↔
      Nat.ofDigitChars 10 digits 0 * (u.nanos / grain) = 0 :=
    ⟨Nat.eq_zero_of_dvd_of_div_eq_zero (Nat.dvd_of_mod_eq_zero heven),
      fun hnone => by rw [hnone, Nat.zero_div]⟩
  rw [eq_of_add? hsum, Nat.add_eq_zero_iff, mul_eq_zero_iff_right hgrain, hexact,
    mul_eq_zero_iff_right hunit]

theorem addItem?_eq_zero_iff {d sum : Duration} {item : Item} (h : d.addItem? item = some sum) :
    sum = 0 ↔ d = 0 ∧ item.IsZero := by
  unfold addItem? at h
  obtain ⟨whole, hwhole, h⟩ := Option.bind_eq_some_iff.1 h
  have hzero := addWhole?_eq_zero_iff hwhole
  unfold Item.IsZero
  cases hfraction : item.fraction with
  | none =>
    rw [hfraction] at h
    cases h
    simp [hzero]
  | some digits =>
    rw [hfraction] at h
    rw [addFraction?_eq_zero_iff h, hzero]
    simp [and_assoc]

theorem foldlM_addItem?_eq_zero_iff {items : List Item} {d sum : Duration}
    (h : items.foldlM addItem? d = some sum) : sum = 0 ↔ d = 0 ∧ ∀ item ∈ items, item.IsZero := by
  induction items generalizing d with
  | nil =>
    cases h
    simp
  | cons item items ih =>
    rw [List.foldlM_cons] at h
    obtain ⟨more, hmore, hrest⟩ := Option.bind_eq_some_iff.1 h
    rw [ih hrest, addItem?_eq_zero_iff hmore, List.forall_mem_cons, and_assoc]

/-! ## Texts -/

/-- Every digit of a text is zero. -/
def OnlyZeros (cs : List Char) : Prop := ∀ c ∈ digitsOf cs, c = '0'

theorem isDigit_of_mem_digitsOf {cs : List Char} : ∀ c ∈ digitsOf cs, isDigit c = true :=
  fun _ hc => (List.mem_filter.1 hc).2

theorem onlyZeros_item? {cs rest : List Char} {item : Item} (h : item? cs = some (item, rest)) :
    OnlyZeros cs ↔ item.IsZero ∧ OnlyZeros rest := by
  obtain ⟨whole, hdigits, hwhole⟩ := digitsOf_item? h
  have hall : ∀ c ∈ whole ++ item.fraction.getD [] ++ digitsOf rest, isDigit c = true :=
    hdigits ▸ isDigit_of_mem_digitsOf
  simp only [List.forall_mem_append] at hall
  obtain ⟨⟨hw, hf⟩, -⟩ := hall
  have hwzero := ofDigitChars_eq_zero_iff (n := 0) hw
  unfold OnlyZeros Item.IsZero
  rw [hdigits, List.forall_mem_append, List.forall_mem_append, hwhole, hwzero]
  cases hfraction : item.fraction with
  | none => simp
  | some digits =>
    rw [hfraction] at hf
    have hfzero := ofDigitChars_eq_zero_iff (n := 0) hf
    simp_all

theorem onlyZeros_items? {cs : List Char} {items : List Item} (h : items? cs = some items) :
    OnlyZeros cs ↔ ∀ item ∈ items, item.IsZero := by
  fun_induction items? cs generalizing items with
  | case1 => cases h
  | case2 cs item rest hitem _ hempty =>
    cases h
    have hnone : OnlyZeros rest := by
      rw [List.isEmpty_iff.1 hempty]
      simp [OnlyZeros, digitsOf]
    rw [onlyZeros_item? hitem]
    simp [hnone]
  | case3 cs item rest hitem _ _ ih =>
    obtain ⟨others, hothers, rfl⟩ := Option.map_eq_some_iff.1 h
    rw [onlyZeros_item? hitem, ih hothers, List.forall_mem_cons]

theorem read?_eq_zero_iff {cs : List Char} {d : Duration} (h : read? cs = some d) :
    d = 0 ↔ OnlyZeros cs := by
  unfold read? at h
  split at h
  · rename_i hzero
    cases h
    subst hzero
    simp [OnlyZeros, digitsOf]
  · obtain ⟨items, hitems, hsum⟩ := Option.bind_eq_some_iff.1 h
    have htrim : OnlyZeros (trimStart cs) ↔ OnlyZeros cs := by
      unfold OnlyZeros
      rw [digitsOf_trimStart]
    rw [← htrim, onlyZeros_items? hitems, foldlM_addItem?_eq_zero_iff hsum]
    simp

/-! ## Settings -/

/-- A setting gives zero: the number zero, or a text with no digit but zeros. -/
def Setting.TellsZero : Setting → Prop
  | seconds n => n = 0
  | text t => OnlyZeros t.toList
  | nothing | other => False

instance : DecidablePred Setting.TellsZero
  | .seconds n => inferInstanceAs (Decidable (n = 0))
  -- By the digits: another instance goes through every character there is.
  | .text t => List.decidableBAll (· = '0') (digitsOf t.toList)
  | .nothing | .other => inferInstanceAs (Decidable False)

/-- **A length of time is zero exactly if it is written with zeros.** -/
theorem Setting.required?_eq_zero_iff {s : Setting} {d : Duration} (h : s.required? = some d) :
    d = 0 ↔ s.TellsZero := by
  unfold required? optional? at h
  cases s with
  | nothing => cases h
  | other => cases h
  | seconds n =>
    dsimp only at h
    split at h
    · cases h
      exact mul_eq_zero_iff_right (by decide : perSecond ≠ 0)
    · cases h
  | text t =>
    dsimp only at h
    split at h
    · cases h
    · have hread : read? (trim t.toList) = some d := by
        cases hlength : read? (trim t.toList) with
        | none =>
          rw [hlength] at h
          cases h
        | some length =>
          rw [hlength] at h
          exact h
      rw [read?_eq_zero_iff hread]
      unfold TellsZero OnlyZeros
      rw [digitsOf_trim]

end MailTrace.Time.Duration
