import MailTrace.Proofs.Format.Years

/-!
# Dates that do not exist

A time whose date does not exist has no moment, but it can turn the year before that is found out, and
the month it was compared with stays.

1. The same time of a year stands for one moment only in one year (`inYear?_inj`), so two trackers place
   a time alike exactly if it takes them to the same year.
2. A tracker that was turned and one that was not are compared over the times still to come
   (`placeAll_existing_iff`). They come together again at the next time whose date exists, or never.
3. So the times whose dates do not exist can be left out exactly if none of them misleads the tracker
   (`placed_alike_iff`).
-/

namespace MailTrace.Time

/-! ## One moment, one year -/

/-- A day of the year comes a year later, or more. -/
theorem dayNumber_lt_of_year_lt {year later : Int} (h : year < later) (month : Month) (day : Nat) :
    (Date.mk year month day).dayNumber < (Date.mk later month day).dayNumber := by
  have hyear : daysBeforeYear year + 365 ≤ daysBeforeYear later := by
    have hnext := daysBeforeYear_mono (Int.add_one_le_iff.2 h)
    rw [daysBeforeYear_succ] at hnext
    have hlength : 365 ≤ daysInYear year := by
      unfold daysInYear
      split <;> decide
    omega
  -- before a day of a leap year lies at most one day more
  have hmonth : daysBeforeMonth year month ≤ daysBeforeMonth later month + 1 := by
    unfold daysBeforeMonth
    cases month <;> simp [Month.all, Month.number, daysInMonth] <;> split <;> split <;> omega
  unfold Date.dayNumber
  dsimp only
  omega

namespace SyslogTime

variable {t : SyslogTime} {year later : Int} {placed : Instant}

theorem instant_of_inYear? (h : t.inYear? year = some placed) : (t.clock year).instant = placed := by
  unfold inYear? at h
  split at h
  · exact Option.some.inj h
  · cases h

theorem not_lt_of_inYear? (h : t.inYear? year = some placed) (h' : t.inYear? later = some placed) :
    ¬ year < later := by
  intro hlt
  have hday := dayNumber_lt_of_year_lt hlt t.month t.day
  have hsame : (t.clock year).instant = (t.clock later).instant :=
    (instant_of_inYear? h).trans (instant_of_inYear? h').symm
  have hsecond : Instant.second (t.clock year).instant = Instant.second (t.clock later).instant :=
    congrArg Instant.second hsame
  unfold Clock.instant Instant.ofDate at hsecond
  rw [Instant.second_ofSecond, Instant.second_ofSecond] at hsecond
  unfold clock Instant.secondsPerDay at hsecond
  dsimp only at hsecond
  omega

/-- A time stands for one moment in one year only. -/
theorem inYear?_inj (h : t.inYear? year = some placed) (h' : t.inYear? later = some placed) :
    year = later :=
  Int.le_antisymm (Int.not_lt.1 (not_lt_of_inYear? h' h)) (Int.not_lt.1 (not_lt_of_inYear? h h'))

end SyslogTime

/-! ## Times one after the other -/

namespace YearTracker

variable {y z : YearTracker} {t : SyslogTime} {ts : List SyslogTime}

/-- The moments of times that come one after the other. -/
def placeAll (y : YearTracker) : List SyslogTime → List (Option Instant)
  | [] => []
  | t :: ts => (y.place t).1 :: (y.place t).2.placeAll ts

/-- The tracker after times. -/
def afterAll (y : YearTracker) (ts : List SyslogTime) : YearTracker :=
  ts.foldl (fun y t => (y.place t).2) y

/-- Those of some times whose dates exist when they come one after the other. -/
def existing (y : YearTracker) : List SyslogTime → List SyslogTime
  | [] => []
  | t :: ts =>
    if (y.place t).1.isSome then t :: (y.place t).2.existing ts else (y.place t).2.existing ts

@[simp] theorem place_fst (y : YearTracker) (t : SyslogTime) :
    (y.place t).1 = t.inYear? (y.advance t.month).year := by
  unfold place
  dsimp only
  split <;> simp_all

theorem place_of_none (h : (y.place t).1 = none) : (y.place t).2 = y.advance t.month := by
  rw [place_fst] at h
  unfold place
  simp only [h]

theorem place_of_some {placed : Instant} (h : (y.place t).1 = some placed) :
    y.place t = (some placed, { y.advance t.month with lastMonth := some t.month }) :=
  place_of_inYear? ((place_fst y t).symm.trans h)

theorem advance_lastMonth (y : YearTracker) (m : Month) : (y.advance m).lastMonth = y.lastMonth := by
  unfold advance
  split <;> rfl

theorem advance_maxYear (y : YearTracker) (m : Month) : (y.advance m).maxYear = y.maxYear := by
  unfold advance
  split <;> rfl

theorem advance_of_turns {m : Month} (h : y.Turns m) :
    y.advance m = { y with year := y.year + 1 } := if_pos h

theorem advance_of_not_turns {m : Month} (h : ¬ y.Turns m) : y.advance m = y := if_neg h

theorem advance_eq_self_iff {m : Month} : y.advance m = y ↔ ¬ y.Turns m := by
  refine ⟨fun h hturns => ?_, advance_of_not_turns⟩
  have hyear : y.year + 1 = y.year := by
    rw [advance_of_turns hturns] at h
    exact congrArg YearTracker.year h
  omega

/-- A time whose date does not exist turns the year, and the next one whose date exists does not find
that year: it would not have turned the year itself, or there is a year after the one it would have
turned it to. -/
def MisledBy (y : YearTracker) (t : SyslogTime) (ts : List SyslogTime) : Prop :=
  (y.place t).1 = none ∧ y.Turns t.month ∧
    ∃ u ∈ ((y.place t).2.existing ts).head?, ¬ (y.Turns u.month ∧ y.year + 1 = y.maxYear)

/-- One of the times misleads the tracker. -/
def Misled (y : YearTracker) (ts : List SyslogTime) : Prop :=
  ∃ before t after, ts = before ++ t :: after ∧ (y.afterAll before).MisledBy t after

theorem not_misled_nil : ¬ y.Misled [] := by
  rintro ⟨before, t, after, h, -⟩
  exact absurd h.symm (by simp)

theorem misled_cons_iff : y.Misled (t :: ts) ↔ y.MisledBy t ts ∨ (y.place t).2.Misled ts := by
  constructor
  · rintro ⟨before, u, after, heq, h⟩
    cases before with
    | nil =>
      obtain ⟨rfl, rfl⟩ := List.cons.inj heq
      exact .inl h
    | cons _ before =>
      obtain ⟨rfl, rfl⟩ := List.cons.inj heq
      exact .inr ⟨before, u, after, rfl, h⟩
  · rintro (h | ⟨before, u, after, rfl, h⟩)
    · exact ⟨[], t, ts, rfl, h⟩
    · exact ⟨t :: before, u, after, rfl, h⟩

/-! ## With and without them -/

/-- A tracker that was turned, perhaps more than once, beside one that was not. -/
structure Ahead (z y : YearTracker) : Prop where
  lastMonth : z.lastMonth = y.lastMonth
  maxYear : z.maxYear = y.maxYear
  year : z.year < y.year ∧ y.year ≤ y.maxYear ∨ z.year = y.year

theorem Ahead.refl (y : YearTracker) : Ahead y y := ⟨rfl, rfl, .inr rfl⟩

theorem Ahead.eq (h : Ahead z y) (hyear : z.year = y.year) : z = y := by
  obtain ⟨year, maxYear, lastMonth⟩ := z
  obtain ⟨rfl, rfl, -⟩ := h
  obtain rfl : year = y.year := hyear
  rfl

theorem Ahead.turns_iff (h : Ahead z y) (m : Month) :
    y.Turns m ↔ (∃ last ∈ z.lastMonth, m.number < last.number) ∧ y.year < y.maxYear := by
  unfold Turns
  rw [h.lastMonth]

theorem Ahead.advance (h : Ahead z y) (m : Month) : Ahead z (y.advance m) := by
  by_cases hturns : y.Turns m
  · rw [advance_of_turns hturns]
    have hyear := h.year
    have hroom := hturns.2
    refine ⟨h.lastMonth, h.maxYear, .inl ?_⟩
    dsimp only
    omega
  · rwa [advance_of_not_turns hturns]

/-- Two trackers come together at a month that turns the one behind to the last year. -/
theorem Ahead.advance_year_eq_iff (h : Ahead z y) (hlt : z.year < y.year) (m : Month) :
    (z.advance m).year = (y.advance m).year ↔ z.Turns m ∧ z.year + 1 = z.maxYear := by
  have hmax := h.maxYear
  have hyear := h.year
  by_cases hback : ∃ last ∈ z.lastMonth, m.number < last.number
  · have hz : z.Turns m := ⟨hback, by omega⟩
    rw [advance_of_turns hz, and_iff_right hz]
    by_cases hroom : y.year < y.maxYear
    · rw [advance_of_turns ((h.turns_iff m).2 ⟨hback, hroom⟩)]
      dsimp only
      omega
    · rw [advance_of_not_turns fun hturns => hroom hturns.2]
      dsimp only
      omega
  · have hz : ¬ z.Turns m := fun hturns => hback hturns.1
    have hy : ¬ y.Turns m := fun hturns => hback ((h.turns_iff m).1 hturns).1
    rw [advance_of_not_turns hz, advance_of_not_turns hy]
    constructor
    · omega
    · exact fun hturns => absurd hturns.1 hz

/-- What has to hold of the next time whose date exists when the tracker ahead was just turned by one
whose date does not. -/
theorem Ahead.turned_iff (h : Ahead z y) {m : Month} (hturns : y.Turns m) (next : Option SyslogTime) :
    (z.year < (y.advance m).year → ∀ u ∈ next, z.Turns u.month ∧ z.year + 1 = z.maxYear) ↔
      (z.year < y.year → ∀ u ∈ next, z.Turns u.month ∧ z.year + 1 = z.maxYear) ∧
        ¬ (y.Turns m ∧ ∃ u ∈ next, ¬ (y.Turns u.month ∧ y.year + 1 = y.maxYear)) := by
  have hroom := hturns.2
  have hmax := h.maxYear
  have hahead : z.year < (y.advance m).year := by
    have hyear := h.year
    rw [advance_of_turns hturns]
    dsimp only
    omega
  cases next with
  | none => simp
  | some u =>
    simp only [hahead, hturns, Option.mem_some_iff, forall_eq', exists_eq_left', true_and,
      true_imp_iff, not_not]
    rcases h.year with ⟨hlt, -⟩ | heq
    · -- a year is left after this one, so the one behind is not turned to the last
      have hearly : z.year + 1 ≠ z.maxYear := by omega
      simp [hlt, hearly]
    · rw [h.eq heq]
      simp

/-- A time that is placed in the same year leaves both trackers alike. -/
theorem Ahead.place_eq (h : Ahead z y) (hyear : (z.advance t.month).year = (y.advance t.month).year)
    {placed : Instant} (hplace : (y.place t).1 = some placed) : z.place t = y.place t := by
  have hz : (z.place t).1 = some placed := by rw [place_fst, hyear, ← place_fst, hplace]
  have hmax : (z.advance t.month).maxYear = (y.advance t.month).maxYear := by
    rw [advance_maxYear, advance_maxYear, h.maxYear]
  rw [place_of_some hz, place_of_some hplace]
  simp only [hyear, hmax]

/-- Times that come to a tracker that was not turned, without those whose dates do not exist, are placed
alike if the two come together at the first of them. -/
theorem placeAll_existing_iff (h : Ahead z y) :
    z.placeAll (y.existing ts) = (y.placeAll ts).filter (·.isSome) ↔
      (z.year < y.year → ∀ u ∈ (y.existing ts).head?, z.Turns u.month ∧ z.year + 1 = z.maxYear) ∧
        ¬ y.Misled ts := by
  induction ts generalizing z y with
  | nil => simp [existing, placeAll, not_misled_nil]
  | cons t ts ih =>
    rw [misled_cons_iff, existing, placeAll]
    cases hplace : (y.place t).1 with
    | none =>
      have hafter := place_of_none hplace
      have hmisled : y.MisledBy t ts ↔ y.Turns t.month ∧
          ∃ u ∈ ((y.advance t.month).existing ts).head?,
            ¬ (y.Turns u.month ∧ y.year + 1 = y.maxYear) := by
        unfold MisledBy
        rw [hafter]
        exact and_iff_right hplace
      simp only [hafter, Option.isSome_none, Bool.false_eq_true, if_false, List.filter_cons]
      rw [ih (h.advance t.month), hmisled, not_or, ← and_assoc]
      refine and_congr_left fun _ => ?_
      by_cases hturns : y.Turns t.month
      · exact h.turned_iff hturns _
      · rw [advance_of_not_turns hturns]
        simp [hturns]
    | some placed =>
      have hmisled : ¬ y.MisledBy t ts := fun hm => nomatch hplace.symm.trans hm.1
      have hafter := place_of_some hplace
      simp only [hafter, Option.isSome_some, if_true, List.filter_cons, hmisled, false_or,
        List.head?_cons, Option.mem_some_iff, forall_eq', placeAll, List.cons.injEq]
      by_cases hyear : (z.advance t.month).year = (y.advance t.month).year
      · -- they place the time alike and are the same from then on
        have hsame : z.place t = y.place t := h.place_eq hyear hplace
        have hhead : z.year < y.year → z.Turns t.month ∧ z.year + 1 = z.maxYear :=
          fun hlt => (h.advance_year_eq_iff hlt t.month).1 hyear
        rw [hsame, hafter, and_iff_right rfl, and_iff_right hhead, ih (.refl _)]
        simp
      · have hother : (z.place t).1 ≠ some placed := by
          rw [place_fst] at hplace ⊢
          exact fun hz => hyear (SyslogTime.inYear?_inj hz hplace)
        have hhead : ¬ (z.year < y.year → z.Turns t.month ∧ z.year + 1 = z.maxYear) := by
          intro himp
          rcases h.year with ⟨hlt, -⟩ | heq
          · exact hyear ((h.advance_year_eq_iff hlt t.month).2 (himp hlt))
          · exact hyear (h.eq heq ▸ rfl)
        exact iff_of_false (fun hand => hother hand.1) (fun hand => hhead hand.1)

/-- **When dates that do not exist can be left out.** A time whose date does not exist leaves the last
month as it is, and leaves the tracker as it is exactly if it does not turn the year. In a sequence
the other times are placed as they are without all such times exactly if none of these misleads the
tracker. -/
theorem placed_alike_iff (y : YearTracker) :
    (∀ t, (y.place t).1 = none →
      (y.place t).2.lastMonth = y.lastMonth ∧ (y.place t).2.maxYear = y.maxYear ∧
        ((y.place t).2 = y ↔ ¬ y.Turns t.month)) ∧
    ∀ ts, y.placeAll (y.existing ts) = (y.placeAll ts).filter (·.isSome) ↔ ¬ y.Misled ts := by
  refine ⟨fun t hnone => ?_, fun ts => ?_⟩
  · rw [place_of_none hnone]
    exact ⟨advance_lastMonth y t.month, advance_maxYear y t.month, advance_eq_self_iff⟩
  · rw [placeAll_existing_iff (.refl y)]
    simp

/-- The end of a year, a day that does not exist, and the beginning of the next year. -/
def newYear : List SyslogTime :=
  [⟨.december, 31, 23, 59, 59⟩, ⟨.january, 32, 0, 0, 0⟩, ⟨.january, 1, 0, 0, 0⟩]

/-- In the last year there is no other to turn to, and the day that does not exist does no harm. -/
theorem newYear_placed_alike :
    (((start 2020 2020).place ⟨.february, 30, 0, 0, 0⟩).1 = none ∧
      ((start 2020 2020).place ⟨.february, 30, 0, 0, 0⟩).2 = start 2020 2020) ∧
    (start 2020 2021).placeAll ((start 2020 2021).existing newYear) =
      [some (.ofDate ⟨2020, .december, 31⟩ 86399), some (.ofDate ⟨2021, .january, 1⟩ 0)] ∧
    (start 2020 2021).placeAll newYear =
      [some (.ofDate ⟨2020, .december, 31⟩ 86399), none, some (.ofDate ⟨2021, .january, 1⟩ 0)] := by
  have hnone : ((start 2020 2020).place ⟨.february, 30, 0, 0, 0⟩).1 = none := by decide
  obtain ⟨-, -, hsame⟩ := (placed_alike_iff (start 2020 2020)).1 _ hnone
  exact ⟨⟨hnone, hsame.2 (by decide)⟩, by decide, by decide⟩

/-- With a year to spare the day that does not exist turns the year, the day after it turns it once more,
and the beginning of a year is found a year too late. -/
theorem newYear_not_placed_alike :
    place ⟨2020, 2022, some .december⟩ ⟨.january, 32, 0, 0, 0⟩ = (none, ⟨2021, 2022, some .december⟩) ∧
    (start 2020 2022).placeAll ((start 2020 2022).existing newYear) =
      [some (.ofDate ⟨2020, .december, 31⟩ 86399), some (.ofDate ⟨2021, .january, 1⟩ 0)] ∧
    ((start 2020 2022).placeAll newYear).filter (·.isSome) =
      [some (.ofDate ⟨2020, .december, 31⟩ 86399), some (.ofDate ⟨2022, .january, 1⟩ 0)] ∧
    (start 2020 2022).placeAll ((start 2020 2022).existing newYear) ≠
      ((start 2020 2022).placeAll newYear).filter (·.isSome) := by
  decide

end YearTracker

end MailTrace.Time
