/-!
# The civil calendar

Months, leap years and the numbering of days in the proleptic calendar, with day 0 on 1970-01-01.
-/

namespace MailTrace.Time

/-- A month of the year. -/
inductive Month where
  | january | february | march | april | may | june
  | july | august | september | october | november | december
deriving DecidableEq, Repr, Inhabited

namespace Month

/-- The months in order. -/
def all : List Month :=
  [january, february, march, april, may, june,
   july, august, september, october, november, december]

theorem mem_all (m : Month) : m ∈ all := by cases m <;> decide

/-- The number of the month, from 1. -/
def number : Month → Nat
  | january => 1 | february => 2 | march => 3 | april => 4 | may => 5 | june => 6
  | july => 7 | august => 8 | september => 9 | october => 10 | november => 11 | december => 12

/-- The name of three letters. -/
def name : Month → String
  | january => "Jan" | february => "Feb" | march => "Mar" | april => "Apr" | may => "May"
  | june => "Jun" | july => "Jul" | august => "Aug" | september => "Sep" | october => "Oct"
  | november => "Nov" | december => "Dec"

/-- The month with a number. -/
def ofNumber? (n : Nat) : Option Month := all.find? (·.number == n)

/-- The month with a name of three letters. -/
def ofName? (name : String) : Option Month := all.find? (·.name == name)

@[simp] theorem ofNumber?_number (m : Month) : ofNumber? m.number = some m := by
  cases m <;> decide

@[simp] theorem ofName?_name (m : Month) : ofName? m.name = some m := by cases m <;> decide

end Month

/-- A year with a day added at the end of February. -/
def isLeapYear (year : Int) : Bool := year % 4 == 0 && (year % 100 != 0 || year % 400 == 0)

/-- The days of a month. -/
def daysInMonth (year : Int) : Month → Nat
  | .february => if isLeapYear year then 29 else 28
  | .april | .june | .september | .november => 30
  | _ => 31

/-- The days of a year before the first day of a month. -/
def daysBeforeMonth (year : Int) (m : Month) : Nat :=
  ((Month.all.take (m.number - 1)).map (daysInMonth year)).foldl (· + ·) 0

/-- The days before the first of January, counted from the first of January of the year 1. -/
def daysBeforeYear (year : Int) : Int :=
  let n := year - 1
  365 * n + n / 4 - n / 100 + n / 400

/-- The day 1970-01-01, counted from the first of January of the year 1. -/
def epochDay : Int := 719162

/-- A day of the calendar. -/
structure Date where
  year : Int
  month : Month
  day : Nat
deriving DecidableEq, Repr, Inhabited

namespace Date

/-- The years of the calendar. -/
def minYear : Int := -9999

/-- The years of the calendar. -/
def maxYear : Int := 9999

/-- A date that exists. -/
def Valid (d : Date) : Prop :=
  (minYear ≤ d.year ∧ d.year ≤ maxYear) ∧ 1 ≤ d.day ∧ d.day ≤ daysInMonth d.year d.month

instance (d : Date) : Decidable d.Valid := inferInstanceAs (Decidable (_ ∧ _))

/-- The number of the day, 0 for 1970-01-01. -/
def dayNumber (d : Date) : Int :=
  daysBeforeYear d.year + daysBeforeMonth d.year d.month + d.day - 1 - epochDay

/-- The year of a day. The mean length of a year gives it up to one year either way. -/
def yearOfDay (n : Int) : Int :=
  let fromFirst := n + epochDay
  let guess := fromFirst * 400 / 146097 + 1
  if daysBeforeYear (guess + 1) ≤ fromFirst then guess + 1
  else if fromFirst < daysBeforeYear guess then guess - 1
  else guess

/-- The date of a day number. -/
def ofDayNumber (n : Int) : Date :=
  let year := yearOfDay n
  let dayOfYear := (n + epochDay - daysBeforeYear year).toNat
  let month := (Month.all.reverse.find? (daysBeforeMonth year · ≤ dayOfYear)).getD .january
  ⟨year, month, dayOfYear - daysBeforeMonth year month + 1⟩

/-- The last day of its month. -/
def IsMonthEnd (d : Date) : Prop := d.day = daysInMonth d.year d.month

instance (d : Date) : Decidable d.IsMonthEnd := inferInstanceAs (Decidable (_ = _))

end Date

end MailTrace.Time
