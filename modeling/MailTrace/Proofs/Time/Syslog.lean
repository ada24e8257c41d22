import MailTrace.Proofs.Text.Numbers
import MailTrace.Proofs.Text.Offsets
import MailTrace.Proofs.Time.Calendar
import MailTrace.Time.Syslog

/-!
# Times without a year, written

The time of a moment is written without its year, the day padded with a blank or a zero. Reading
accepts what was written, with any ASCII blank for the padding, and nothing else
(`read?_eq_some_iff`), and in the year that was left out the time stands for the moment again
(`inYear?_ofInstant`).
-/

namespace MailTrace.Time

open MailTrace.Text

/-! ## Digits -/

/-- A number below a hundred in two digits. -/
def twoDigits (n : Nat) : List Char := [Nat.digitChar (n / 10), Nat.digitChar (n % 10)]

theorem natural?_twoDigits {n : Nat} (h : n < 100) : natural? (twoDigits n) = some n := by
  have hall : ∀ n < 100, natural? (twoDigits n) = some n := by decide
  exact hall n h

theorem size_twoDigits {n : Nat} (h : n < 100) : Utf8.size (twoDigits n) = 2 := by
  have hall : ∀ n < 100, Utf8.size (twoDigits n) = 2 := by decide
  exact hall n h

/-- Two digits are those of their number. -/
theorem eq_twoDigits {a b : Char} {n : Nat} (h : natural? [a, b] = some n) :
    n < 100 ∧ [a, b] = twoDigits n := by
  have hall : ∀ x < 10, ∀ y < 10, natural? [Nat.digitChar x, Nat.digitChar y] = some (10 * x + y) ∧
      twoDigits (10 * x + y) = [Nat.digitChar x, Nat.digitChar y] := by decide
  obtain ⟨x, hx, rfl⟩ := exists_digitChar (isDigit_of_natural? h a (by simp))
  obtain ⟨y, hy, rfl⟩ := exists_digitChar (isDigit_of_natural? h b (by simp))
  obtain ⟨hread, hwritten⟩ := hall x hx y hy
  obtain rfl : 10 * x + y = n := Option.some.inj (hread.symm.trans h)
  exact ⟨by omega, hwritten.symm⟩

/-! ## Days -/

/-- What may stand before a day of one digit: a zero, or an ASCII blank. -/
def PadsDay (c : Char) : Prop := c = '0' ∨ isBlank c = true ∧ c.toNat ≤ 0x7F

/-- A day in two characters, the first of which is the padding if one digit is enough. -/
def dayWith (pad : Char) (day : Nat) : List Char :=
  if day < 10 then [pad, Nat.digitChar day] else twoDigits day

theorem dayWith_zero {day : Nat} : dayWith '0' day = twoDigits day := by
  unfold dayWith twoDigits
  split
  · rename_i h
    rw [Nat.div_eq_of_lt h, Nat.mod_eq_of_lt h]
    rfl
  · rfl

theorem PadsDay.toNat_le {pad : Char} (hpad : PadsDay pad) : pad.toNat ≤ 0x7F := by
  rcases hpad with rfl | ⟨-, hascii⟩
  · decide
  · exact hascii

theorem size_dayWith {pad : Char} {day : Nat} (hpad : PadsDay pad) (h : day < 100) :
    Utf8.size (dayWith pad day) = 2 := by
  unfold dayWith
  split
  · rename_i hday
    have hone : ∀ day < 10, (Nat.digitChar day).utf8Size = 1 := by decide
    rw [Utf8.size_cons, Utf8.size_cons, Utf8.utf8Size_eq_one hpad.toNat_le, hone day hday]
    rfl
  · exact size_twoDigits h

theorem dayWith_read {pad : Char} {day : Nat} (hpad : PadsDay pad) (h : day < 100) :
    ∃ d₁ d₂, dayWith pad day = [d₁, d₂] ∧ d₁.toNat ≤ 0x7F ∧
      natural? (trimStart [d₁, d₂]) = some day := by
  have hdigits : ∀ day < 100, (Nat.digitChar (day / 10)).toNat ≤ 0x7F ∧
      natural? (trimStart (twoDigits day)) = some day := by decide
  rcases hpad with rfl | ⟨hblank, hascii⟩
  · exact ⟨_, _, dayWith_zero, hdigits day h⟩
  · by_cases hday : day < 10
    · have hone : ∀ day < 10, natural? (trimStart [Nat.digitChar day]) = some day := by decide
      have hskip : trimStart [pad, Nat.digitChar day] = trimStart [Nat.digitChar day] := by
        simp [trimStart, hblank]
      refine ⟨pad, Nat.digitChar day, if_pos hday, hascii, ?_⟩
      rw [hskip, hone day hday]
    · exact ⟨_, _, if_neg hday, hdigits day h⟩

/-- The last character of a padded number is one of its digits. -/
theorem isDigit_of_natural?_trimStart {d₁ d₂ : Char} {n : Nat}
    (h : natural? (trimStart [d₁, d₂]) = some n) : isDigit d₂ = true := by
  have hsuffix : trimStart [d₁, d₂] <:+ [d₁, d₂] := List.dropWhile_suffix _
  have hne : trimStart [d₁, d₂] ≠ [] := by
    intro hnil
    rw [hnil] at h
    cases h
  have hlast : (trimStart [d₁, d₂]).getLast hne = d₂ := hsuffix.getLast hne
  rw [← hlast]
  exact isDigit_of_natural? h _ (List.getLast_mem hne)

theorem eq_dayWith {d₁ d₂ : Char} {day : Nat} (hascii : d₁.toNat ≤ 0x7F)
    (h : natural? (trimStart [d₁, d₂]) = some day) :
    day < 100 ∧ ∃ pad, PadsDay pad ∧ [d₁, d₂] = dayWith pad day := by
  obtain ⟨y, hy, rfl⟩ := exists_digitChar (isDigit_of_natural?_trimStart h)
  cases hblank : isBlank d₁ with
  | true =>
    have hone : ∀ y < 10, natural? (trimStart [Nat.digitChar y]) = some y := by decide
    have hskip : trimStart [d₁, Nat.digitChar y] = trimStart [Nat.digitChar y] := by
      simp [trimStart, hblank]
    rw [hskip, hone y hy] at h
    obtain rfl : y = day := Option.some.inj h
    exact ⟨by omega, d₁, .inr ⟨hblank, hascii⟩, (if_pos hy).symm⟩
  | false =>
    rw [trimStart_eq_self_of_head hblank] at h
    obtain ⟨hday, heq⟩ := eq_twoDigits h
    exact ⟨hday, '0', .inl rfl, heq.trans dayWith_zero.symm⟩

/-- What stands before a day of one digit. -/
inductive DayPadding where
  | blank | zero
deriving DecidableEq, Repr

namespace DayPadding

def char : DayPadding → Char
  | blank => ' '
  | zero => '0'

theorem padsDay (pad : DayPadding) : PadsDay pad.char := by
  cases pad with
  | blank => exact .inr ⟨by decide, by decide⟩
  | zero => exact .inl rfl

/-- A day in two characters. -/
def write (pad : DayPadding) (day : Nat) : List Char :=
  if day < 10 then [pad.char, Nat.digitChar day] else twoDigits day

end DayPadding

/-! ## Times -/

namespace SyslogTime

/-- Every number has at most two digits. -/
structure Short (t : SyslogTime) : Prop where
  day : t.day < 100
  hour : t.hour < 100
  minute : t.minute < 100
  second : t.second < 100

/-- A time as `Mon DD HH:MM:SS`, the day padded with a character. -/
def writeWith (pad : Char) (t : SyslogTime) : List Char :=
  t.month.name.toList ++ ' ' :: (dayWith pad t.day ++ ' ' :: (twoDigits t.hour ++
    ':' :: (twoDigits t.minute ++ ':' :: twoDigits t.second)))

/-- A time as `Mon DD HH:MM:SS`. -/
def write (pad : DayPadding) (t : SyslogTime) : List Char :=
  t.month.name.toList ++ ' ' :: (pad.write t.day ++ ' ' :: (twoDigits t.hour ++
    ':' :: (twoDigits t.minute ++ ':' :: twoDigits t.second)))

theorem exists_name (m : Month) : ∃ a b c, m.name.toList = [a, b, c] := by
  cases m <;> exact ⟨_, _, _, rfl⟩

theorem size_writeWith {t : SyslogTime} {pad : Char} (h : t.Short) (hpad : PadsDay pad) :
    Utf8.size (t.writeWith pad) = 15 := by
  have hname : Utf8.size t.month.name.toList = 3 := by cases t.month <;> rfl
  have hblank : ' '.utf8Size = 1 := rfl
  have hcolon : ':'.utf8Size = 1 := rfl
  simp only [writeWith, Utf8.size_append, Utf8.size_cons, hname, hblank, hcolon,
    size_dayWith hpad h.day, size_twoDigits h.hour, size_twoDigits h.minute,
    size_twoDigits h.second]

theorem read?_writeWith {t : SyslogTime} {pad : Char} (h : t.Short) (hpad : PadsDay pad) :
    read? (t.writeWith pad) = some t := by
  obtain ⟨m₁, m₂, m₃, hname⟩ := exists_name t.month
  have hmonth : Month.ofName? (String.ofList [m₁, m₂, m₃]) = some t.month := by
    rw [← hname, String.ofList_toList]
    exact Month.ofName?_name t.month
  obtain ⟨d₁, d₂, hchars, hascii, hday⟩ := dayWith_read hpad h.day
  have hhour := natural?_twoDigits h.hour
  have hminute := natural?_twoDigits h.minute
  have hsecond := natural?_twoDigits h.second
  unfold twoDigits at hhour hminute hsecond
  unfold writeWith
  rw [hname, hchars]
  show (if 0x7F < d₁.toNat then none else _) = _
  rw [if_neg (Nat.not_lt.2 hascii)]
  simp only [twoDigits?, hmonth, hday, hhour, hminute, hsecond]
  rfl

/-- **Written times are read.** -/
theorem read?_write {t : SyslogTime} (h : t.Short) (pad : DayPadding) :
    read? (t.write pad) = some t := read?_writeWith h pad.padsDay

theorem name_of_ofName? {name : String} {m : Month} (h : Month.ofName? name = some m) :
    m.name = name := by
  simpa using List.find?_some h

/-- **Nothing but written times is read.** -/
theorem read?_eq_some_iff {cs : List Char} {t : SyslogTime} :
    read? cs = some t ↔ t.Short ∧ ∃ pad, PadsDay pad ∧ cs = t.writeWith pad := by
  constructor
  · intro h
    unfold read? at h
    split at h
    · rename_i m₁ m₂ m₃ d₁ d₂ h₁ h₂ i₁ i₂ s₁ s₂
      split at h
      · cases h
      rename_i hascii
      simp only [Option.bind_eq_bind, Option.bind_eq_some_iff] at h
      obtain ⟨month, hmonth, day, hday, hour, hhour, minute, hminute, second, hsecond, heq⟩ := h
      cases heq
      obtain ⟨hdayLt, pad, hpad, hdayEq⟩ := eq_dayWith (Nat.not_lt.1 hascii) hday
      obtain ⟨hhourLt, hhourEq⟩ := eq_twoDigits hhour
      obtain ⟨hminuteLt, hminuteEq⟩ := eq_twoDigits hminute
      obtain ⟨hsecondLt, hsecondEq⟩ := eq_twoDigits hsecond
      refine ⟨⟨hdayLt, hhourLt, hminuteLt, hsecondLt⟩, pad, hpad, ?_⟩
      unfold writeWith
      rw [name_of_ofName? hmonth, String.toList_ofList, ← hdayEq, ← hhourEq, ← hminuteEq,
        ← hsecondEq]
      rfl
    · cases h
  · rintro ⟨hshort, pad, hpad, rfl⟩
    exact read?_writeWith hshort hpad

/-! ## The times of moments -/

/-- The time of a moment, without its year. -/
def ofInstant (t : Instant) : SyslogTime where
  month := t.date.month
  day := t.date.day
  hour := t.secondOfDay.toNat / 3600
  minute := t.secondOfDay.toNat / 60 % 60
  second := t.secondOfDay.toNat % 60

theorem clock_valid {t : Instant} (hlow : Date.minYear ≤ t.year) (hhigh : t.year ≤ Date.maxYear) :
    ((ofInstant t).clock t.year).Valid := by
  have hdate : t.date.Valid := Date.ofDayNumber_valid hlow hhigh
  have hsecond := t.secondOfDay_lt
  refine ⟨hdate, ?_, ?_, ?_⟩
  · show t.secondOfDay.toNat / 3600 < 24
    omega
  · exact Nat.mod_lt _ (by decide)
  · exact Nat.mod_lt _ (by decide)

theorem short_ofInstant {t : Instant} (hlow : Date.minYear ≤ t.year)
    (hhigh : t.year ≤ Date.maxYear) : (ofInstant t).Short := by
  obtain ⟨hdate, hhour, hminute, hsecond⟩ := clock_valid hlow hhigh
  have hmonth : daysInMonth t.year t.date.month ≤ 31 := by
    unfold daysInMonth
    split
    · split <;> decide
    all_goals decide
  have hday : t.date.day ≤ daysInMonth t.year t.date.month := hdate.2.2
  constructor
  · show t.date.day < 100
    omega
  · exact Nat.lt_trans hhour (by decide)
  · exact Nat.lt_trans hminute (by decide)
  · exact Nat.lt_trans hsecond (by decide)

/-- **In its own year a time stands for its moment.** -/
theorem inYear?_ofInstant {t : Instant} (hwhole : t.subsecond = 0) (hlow : Date.minYear ≤ t.year)
    (hhigh : t.year ≤ Date.maxYear) : (ofInstant t).inYear? t.year = some t := by
  have hsecond : t.secondOfDay.toNat / 3600 * 3600 + t.secondOfDay.toNat / 60 % 60 * 60 +
      t.secondOfDay.toNat % 60 = t.secondOfDay.toNat := by omega
  have hinstant : ((ofInstant t).clock t.year).instant = t := by
    show Instant.ofDate t.date (t.secondOfDay.toNat / 3600 * 3600 +
      t.secondOfDay.toNat / 60 % 60 * 60 + t.secondOfDay.toNat % 60) = t
    rw [hsecond, Instant.ofDate_date hwhole]
  unfold inYear?
  rw [if_pos (clock_valid hlow hhigh), hinstant]

end SyslogTime

end MailTrace.Time
