import MailTrace.Text.Blank
import MailTrace.Text.Number
import MailTrace.Time.Rfc3339

/-!
# Times without a year

The timestamp of a classic log line names no year. The year is carried along the log: it advances
when the month goes backwards, up to a last year that is never passed.
-/

namespace MailTrace.Time

open MailTrace.Text

/-- A month, a day and a time of day. Each number has at most two digits. -/
structure SyslogTime where
  month : Month
  day : Nat
  hour : Nat
  minute : Nat
  second : Nat
deriving DecidableEq, Repr

namespace SyslogTime

/-- The time written as `Mon DD HH:MM:SS`, the day padded with a blank or a zero. -/
def read? : List Char → Option SyslogTime
  | [m₁, m₂, m₃, ' ', d₁, d₂, ' ', h₁, h₂, ':', i₁, i₂, ':', s₁, s₂] =>
    if 0x7F < d₁.toNat then none
    else do
      return {
        month := ← Month.ofName? (String.ofList [m₁, m₂, m₃])
        day := ← natural? (trimStart [d₁, d₂])
        hour := ← twoDigits? h₁ h₂
        minute := ← twoDigits? i₁ i₂
        second := ← twoDigits? s₁ s₂ }
  | _ => none

/-- The octets of a time and the blank after it. -/
def width : Nat := 16

/-- The time of day on that date of a year. -/
def clock (t : SyslogTime) (year : Int) : Clock := ⟨⟨year, t.month, t.day⟩, t.hour, t.minute, t.second⟩

/-- The moment in a year, if the date and the time of day exist. -/
def inYear? (t : SyslogTime) (year : Int) : Option Instant :=
  if (t.clock year).Valid then some (t.clock year).instant else none

end SyslogTime

/-- The year of the lines read so far. -/
structure YearTracker where
  year : Int
  maxYear : Int
  lastMonth : Option Month
deriving DecidableEq, Repr

namespace YearTracker

/-- Before the first line. The last year is not before the first. -/
def start (initial maxYear : Int) : YearTracker := ⟨initial, max maxYear initial, none⟩

/-- The month goes backwards and the last year is not reached. -/
def Turns (y : YearTracker) (m : Month) : Prop :=
  (∃ last ∈ y.lastMonth, m.number < last.number) ∧ y.year < y.maxYear

instance (y : YearTracker) (m : Month) : Decidable (y.Turns m) := inferInstanceAs (Decidable (_ ∧ _))

/-- The tracker in the year of a time of month `m`. -/
def advance (y : YearTracker) (m : Month) : YearTracker :=
  if y.Turns m then { y with year := y.year + 1 } else y

/-- The moment of the next time, with the tracker after it. A date that does not exist leaves its
mark on the year but not on the month. -/
def place (y : YearTracker) (t : SyslogTime) : Option Instant × YearTracker :=
  let y := y.advance t.month
  match t.inYear? y.year with
  | none => (none, y)
  | some instant => (some instant, { y with lastMonth := some t.month })

end YearTracker

end MailTrace.Time
