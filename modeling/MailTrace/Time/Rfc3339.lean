import MailTrace.Text.Number
import MailTrace.Time.Instant

/-!
# Timestamps of the internet

Dates and times of day with an offset from universal time, to the nanosecond. A leap second is
accepted where one can be, at the end of the last day of a month in universal time, and read as the
last nanosecond before it.
-/

namespace MailTrace.Time

open MailTrace.Text

/-- Two digits as a number. -/
def twoDigits? (a b : Char) : Option Nat := natural? [a, b]

/-- A date and a time of day, without an offset. -/
structure Clock where
  date : Date
  hour : Nat
  minute : Nat
  second : Nat
deriving DecidableEq, Repr

namespace Clock

/-- Every part is in its range. -/
def Valid (c : Clock) : Prop := c.date.Valid ∧ c.hour < 24 ∧ c.minute < 60 ∧ c.second < 60

instance (c : Clock) : Decidable c.Valid := inferInstanceAs (Decidable (_ ∧ _))

/-- The moment, read in universal time. -/
def instant (c : Clock) : Instant :=
  Instant.ofDate c.date (c.hour * 3600 + c.minute * 60 + c.second)

end Clock

/-- A year of four digits, a month and a day with hyphens between them. -/
def readDate? (y₁ y₂ y₃ y₄ m₁ m₂ d₁ d₂ : Char) : Option Date := do
  let month ← (← twoDigits? m₁ m₂) |> Month.ofNumber?
  return ⟨← natural? [y₁, y₂, y₃, y₄], month, ← twoDigits? d₁ d₂⟩

/-- A date and a time of day with the letter T between them, and nothing else. -/
def Clock.read? : List Char → Option Clock
  | [y₁, y₂, y₃, y₄, '-', m₁, m₂, '-', d₁, d₂, 'T', h₁, h₂, ':', i₁, i₂, ':', s₁, s₂] => do
    let c : Clock :=
      ⟨← readDate? y₁ y₂ y₃ y₄ m₁ m₂ d₁ d₂, ← twoDigits? h₁ h₂, ← twoDigits? i₁ i₂,
        ← twoDigits? s₁ s₂⟩
    if c.Valid then some c else none
  | _ => none

namespace Rfc3339

/-- Why a timestamp stands for no moment. -/
inductive Fault where
  /-- The text is no timestamp. -/
  | malformed
  /-- The moment is outside the years of the calendar in universal time. -/
  | outsideCalendar
deriving DecidableEq, Repr

/-- The offset from universal time in seconds. -/
def offset? : List Char → Option Int
  | ['Z'] | ['z'] => some 0
  | [sign, h₁, h₂, ':', m₁, m₂] => do
    let hours ← twoDigits? h₁ h₂
    let minutes ← twoDigits? m₁ m₂
    if 23 < hours || 59 < minutes then none
    else
      let seconds : Int := hours * 3600 + minutes * 60
      if sign = '+' then some seconds
      else if sign = '-' then some (-seconds)
      else none
  | _ => none

/-- The nanoseconds of a fraction of a second. Digits after the ninth are dropped. -/
def fractionNanos (digits : List Char) : Nat :=
  Nat.ofDigitChars 10 ((digits.take 9) ++ List.replicate (9 - digits.length) '0') 0

/-- What follows the whole seconds: an optional fraction, then the offset. -/
def tail? (cs : List Char) : Option (Nat × Int) :=
  match cs with
  | '.' :: rest =>
    let digits := rest.takeWhile isDigit
    if digits.isEmpty then none
    else (offset? (rest.dropWhile isDigit)).map (fractionNanos digits, ·)
  | _ => (offset? cs).map (0, ·)

/-- The moment of a clock with an offset, if the years of the calendar hold it. -/
def universal (clock : Clock) (nanos : Nat) (offset : Int) : Except Fault Instant :=
  let t := clock.instant - Instant.ofSecond offset + nanos
  if Date.minYear ≤ t.year && t.year ≤ Date.maxYear then .ok t else .error .outsideCalendar

/-- The last second of the last day of a month. -/
def endsMonth (t : Instant) : Bool := t.secondOfDay == 86399 && decide t.date.IsMonthEnd

/-- The moment of a timestamp. Any one octet separates the date from the time of day. -/
def read : List Char → Except Fault Instant
  | y₁ :: y₂ :: y₃ :: y₄ :: '-' :: m₁ :: m₂ :: '-' :: d₁ :: d₂ :: separator :: h₁ :: h₂ :: ':' ::
      i₁ :: i₂ :: ':' :: s₁ :: s₂ :: rest =>
    let parts : Option (Clock × Nat × Int) := do
      let clock : Clock :=
        ⟨← readDate? y₁ y₂ y₃ y₄ m₁ m₂ d₁ d₂, ← twoDigits? h₁ h₂, ← twoDigits? i₁ i₂,
          ← twoDigits? s₁ s₂⟩
      return (clock, ← tail? rest)
    match parts with
    | none => .error .malformed
    | some (clock, nanos, offset) =>
      if 0x7F < separator.toNat then .error .malformed
      else if clock.second = 60 then
        let held := { clock with second := 59 }
        match universal held 999999999 offset with
        | .ok t => if held.Valid ∧ endsMonth t then .ok t else .error .malformed
        | .error _ => .error .malformed
      else if clock.Valid then universal clock nanos offset
      else .error .malformed
  | _ => .error .malformed

end Rfc3339

end MailTrace.Time
