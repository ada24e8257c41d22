import MailTrace.Time.Civil

/-!
# Instants

Moments and lengths of time in whole nanoseconds. A moment is counted from the start of 1970 in
universal time, so seconds before it are negative and rounded down.
-/

namespace MailTrace.Time

/-- A length of time in nanoseconds. -/
abbrev Duration := Nat

namespace Duration

/-- The nanoseconds of a second. -/
def perSecond : Nat := 1000000000

/-- A length of whole seconds. -/
def ofSeconds (n : Nat) : Duration := n * perSecond

/-- A length of whole milliseconds. -/
def ofMilliseconds (n : Nat) : Duration := n * 1000000

/-- The whole seconds of a length. -/
def seconds (d : Duration) : Nat := d / perSecond

/-- The nanoseconds of a length beyond its whole seconds. -/
def subsecond (d : Duration) : Nat := d % perSecond

end Duration

/-- A moment in nanoseconds since 1970-01-01T00:00:00Z. -/
abbrev Instant := Int

namespace Instant

/-- The start of a second. -/
def ofSecond (s : Int) : Instant := s * Duration.perSecond

/-- The second a moment lies in. -/
def second (t : Instant) : Int := t / (Duration.perSecond : Int)

/-- The nanoseconds from the start of the second. -/
def subsecond (t : Instant) : Int := t % (Duration.perSecond : Int)

@[simp] theorem second_ofSecond (s : Int) : (ofSecond s).second = s := by
  simp only [second, ofSecond, Duration.perSecond]
  omega

theorem second_le_second {t u : Instant} (h : t ≤ u) : t.second ≤ u.second := by
  exact Int.ediv_le_ediv (by decide) h

/-- The seconds of a day. -/
def secondsPerDay : Int := 86400

/-- The moment of a date and a time of day in seconds. -/
def ofDate (date : Date) (secondOfDay : Nat) : Instant :=
  ofSecond (date.dayNumber * secondsPerDay + secondOfDay)

/-- The date of a moment. -/
def date (t : Instant) : Date := Date.ofDayNumber (t.second / secondsPerDay)

/-- The seconds since the start of the day. -/
def secondOfDay (t : Instant) : Int := t.second % secondsPerDay

/-- The year of a moment. -/
def year (t : Instant) : Int := t.date.year

end Instant

end MailTrace.Time
