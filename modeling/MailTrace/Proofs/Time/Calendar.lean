import MailTrace.Time.Instant

/-!
# Days and dates

The date of a day number is a date that exists, and has that number.

1. The year of a day is the one whose days it lies among (`daysBeforeYear_yearOfDay`), found from the
   mean length of a year and at most one step away.
2. The month is the last one that begins no later (`monthOfDay_spec`).
3. So numbers and dates fit (`dayNumber_ofDayNumber`, `ofDayNumber_valid`), a moment in whole
   seconds is that of its date and its time of day (`Instant.ofDate_date`), and a moment lies in a year
   or later exactly from the first of its January on (`Instant.le_year_iff`).
-/

namespace MailTrace.Time

/-! ## Years -/

/-- The days of a year. -/
def daysInYear (year : Int) : Nat := if isLeapYear year then 366 else 365

theorem isLeapYear_iff {year : Int} :
    isLeapYear year = true ↔ year % 4 = 0 ∧ (year % 100 ≠ 0 ∨ year % 400 = 0) := by
  simp [isLeapYear]

theorem daysBeforeYear_eq (year : Int) :
    daysBeforeYear year =
      365 * (year - 1) + (year - 1) / 4 - (year - 1) / 100 + (year - 1) / 400 := rfl

theorem daysBeforeYear_succ (year : Int) :
    daysBeforeYear (year + 1) = daysBeforeYear year + daysInYear year := by
  rw [daysBeforeYear_eq, daysBeforeYear_eq, Int.add_sub_cancel]
  unfold daysInYear
  split
  · rename_i h
    have := isLeapYear_iff.1 h
    omega
  · rename_i h
    have := mt isLeapYear_iff.2 h
    omega

theorem daysBeforeYear_mono {y z : Int} (h : y ≤ z) : daysBeforeYear y ≤ daysBeforeYear z := by
  rw [daysBeforeYear_eq, daysBeforeYear_eq]
  omega

namespace Date

/-- A day lies among the days of its year. -/
theorem daysBeforeYear_yearOfDay (n : Int) :
    daysBeforeYear (yearOfDay n) ≤ n + epochDay ∧
      n + epochDay < daysBeforeYear (yearOfDay n + 1) := by
  unfold yearOfDay
  dsimp only
  generalize n + epochDay = x
  -- the mean length of a year is 146097 / 400 days, so the guess is off by less than two years
  have hlow : daysBeforeYear (x * 400 / 146097 + 1 - 1) ≤ x := by
    rw [daysBeforeYear_eq]
    omega
  have hhigh : x < daysBeforeYear (x * 400 / 146097 + 1 + 1 + 1) := by
    rw [daysBeforeYear_eq]
    omega
  split
  · rename_i h
    exact ⟨h, hhigh⟩
  · rename_i hnext
    split
    · rename_i hbefore
      exact ⟨hlow, by rwa [Int.sub_add_cancel]⟩
    · rename_i hbefore
      exact ⟨Int.not_lt.1 hbefore, Int.not_le.1 hnext⟩

theorem le_yearOfDay_iff {year n : Int} :
    year ≤ yearOfDay n ↔ daysBeforeYear year ≤ n + epochDay := by
  obtain ⟨hfirst, hnext⟩ := daysBeforeYear_yearOfDay n
  constructor
  · intro h
    exact Int.le_trans (daysBeforeYear_mono h) hfirst
  · intro h
    refine Int.not_lt.1 fun hlater => ?_
    have := daysBeforeYear_mono (Int.add_one_le_iff.2 hlater)
    omega

/-! ## Months -/

/-- The month of a day of the year, counted from 0. -/
def monthOfDay (year : Int) (day : Nat) : Month :=
  (Month.all.reverse.find? (daysBeforeMonth year · ≤ day)).getD .january

theorem daysBeforeMonth_january (year : Int) : daysBeforeMonth year .january = 0 := rfl

/-- A month begins when the one before it is over. -/
theorem daysBeforeMonth_next {m next : Month} (h : next.number = m.number + 1) (year : Int) :
    daysBeforeMonth year next = daysBeforeMonth year m + daysInMonth year m := by
  have hpos : 1 ≤ m.number := by cases m <;> decide
  have hat : Month.all[m.number - 1]? = some m := by cases m <;> rfl
  have htake : Month.all.take (next.number - 1) = Month.all.take (m.number - 1) ++ [m] := by
    rw [show next.number - 1 = m.number - 1 + 1 by omega, List.take_add_one, hat]
    rfl
  unfold daysBeforeMonth
  rw [htake, List.map_append, List.foldl_append]
  rfl

/-- The last month ends with the year. -/
theorem daysBeforeMonth_december (year : Int) :
    daysBeforeMonth year .december + daysInMonth year .december = daysInYear year := by
  have hsum : daysBeforeMonth year .december = 306 + daysInMonth year .february := by
    show 0 + 31 + daysInMonth year .february + 31 + 30 + 31 + 30 + 31 + 31 + 30 + 31 + 30 = _
    omega
  rw [hsum]
  unfold daysInYear daysInMonth
  cases isLeapYear year <;> rfl

theorem exists_next {m : Month} (h : m ≠ .december) :
    ∃ next ∈ Month.all, next.number = m.number + 1 := by
  cases m <;> first | exact absurd rfl h | decide

/-- A day lies among the days of its month. -/
theorem monthOfDay_spec {year : Int} {day : Nat} (h : day < daysInYear year) :
    daysBeforeMonth year (monthOfDay year day) ≤ day ∧
      day < daysBeforeMonth year (monthOfDay year day) +
        daysInMonth year (monthOfDay year day) := by
  unfold monthOfDay
  cases hfind : Month.all.reverse.find? (daysBeforeMonth year · ≤ day) with
  | none =>
    have hjanuary := List.find?_eq_none.1 hfind .january (by decide)
    simp [daysBeforeMonth_january] at hjanuary
  | some m =>
    rw [Option.getD_some]
    obtain ⟨hm, later, earlier, hsplit, hlater⟩ := List.find?_eq_some_iff_append.1 hfind
    refine ⟨by simpa using hm, ?_⟩
    by_cases hlast : m = .december
    · rw [hlast, daysBeforeMonth_december]
      exact h
    · obtain ⟨next, hmem, hnext⟩ := exists_next hlast
      rw [← daysBeforeMonth_next hnext]
      -- the next month stands before this one in the reversed order, so it begins after the day
      have hsorted : Month.all.reverse.Pairwise (fun a b => b.number < a.number) := by decide
      rw [hsplit, List.pairwise_append, List.pairwise_cons] at hsorted
      rw [← List.mem_reverse, hsplit, List.mem_append, List.mem_cons] at hmem
      rcases hmem with hmem | rfl | hmem
      · simpa using hlater next hmem
      · omega
      · have := hsorted.2.1.1 next hmem
        omega

/-! ## Dates -/

/-- The day of a day number in its year, counted from 0. -/
def dayOfYear (n : Int) : Nat := (n + epochDay - daysBeforeYear (yearOfDay n)).toNat

theorem daysBeforeYear_add_dayOfYear (n : Int) :
    daysBeforeYear (yearOfDay n) + dayOfYear n = n + epochDay := by
  have := (daysBeforeYear_yearOfDay n).1
  unfold dayOfYear
  omega

theorem dayOfYear_lt (n : Int) : dayOfYear n < daysInYear (yearOfDay n) := by
  have := (daysBeforeYear_yearOfDay n).2
  rw [daysBeforeYear_succ, ← daysBeforeYear_add_dayOfYear] at this
  omega

theorem ofDayNumber_eq (n : Int) :
    ofDayNumber n =
      ⟨yearOfDay n, monthOfDay (yearOfDay n) (dayOfYear n),
        dayOfYear n - daysBeforeMonth (yearOfDay n) (monthOfDay (yearOfDay n) (dayOfYear n)) +
          1⟩ := rfl

@[simp] theorem dayNumber_ofDayNumber (n : Int) : (ofDayNumber n).dayNumber = n := by
  have hyear := daysBeforeYear_add_dayOfYear n
  have hmonth := (monthOfDay_spec (dayOfYear_lt n)).1
  rw [ofDayNumber_eq]
  unfold dayNumber
  dsimp only
  omega

/-- The date of a day exists, if the calendar holds its year. -/
theorem ofDayNumber_valid {n : Int} (hlow : minYear ≤ (ofDayNumber n).year)
    (hhigh : (ofDayNumber n).year ≤ maxYear) : (ofDayNumber n).Valid := by
  obtain ⟨hfirst, hlast⟩ := monthOfDay_spec (dayOfYear_lt n)
  refine ⟨⟨hlow, hhigh⟩, ?_⟩
  rw [ofDayNumber_eq]
  dsimp only
  omega

end Date

/-! ## Moments -/

namespace Instant

theorem secondOfDay_nonneg (t : Instant) : 0 ≤ t.secondOfDay := Int.emod_nonneg _ (by decide)

theorem secondOfDay_lt (t : Instant) : t.secondOfDay < 86400 := Int.emod_lt_of_pos _ (by decide)

/-- A moment in whole seconds is that of its date and its time of day. -/
theorem ofDate_date {t : Instant} (h : t.subsecond = 0) :
    ofDate t.date t.secondOfDay.toNat = t := by
  have hnonneg := t.secondOfDay_nonneg
  have hwhole : t = ofSecond t.second := by
    have hsplit := Int.ediv_mul_add_emod t (Duration.perSecond : Int)
    have hzero : t % (Duration.perSecond : Int) = 0 := h
    rw [hzero, Int.add_zero] at hsplit
    exact hsplit.symm
  have hsecond : t.second / secondsPerDay * secondsPerDay + t.secondOfDay = t.second :=
    Int.ediv_mul_add_emod _ _
  unfold ofDate date
  rw [Date.dayNumber_ofDayNumber, Int.toNat_of_nonneg hnonneg, hsecond, ← hwhole]

/-- The years of moments are in order. -/
theorem le_year_iff {year : Int} {t : Instant} :
    year ≤ t.year ↔ ofDate ⟨year, .january, 1⟩ 0 ≤ t := by
  have hday : (Date.mk year .january 1).dayNumber = daysBeforeYear year - epochDay := by
    unfold Date.dayNumber
    rw [Date.daysBeforeMonth_january]
    dsimp only
    omega
  have hyear : year ≤ t.year ↔ daysBeforeYear year - epochDay ≤ t.second / secondsPerDay := by
    show year ≤ Date.yearOfDay _ ↔ _
    rw [Date.le_yearOfDay_iff]
    omega
  rw [hyear, Int.le_ediv_iff_mul_le (by decide), second, Int.le_ediv_iff_mul_le (by decide)]
  unfold ofDate ofSecond
  rw [hday, Int.natCast_zero, Int.add_zero]

end Instant

end MailTrace.Time
