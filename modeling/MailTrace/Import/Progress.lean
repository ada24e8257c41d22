import MailTrace.Time.Instant

/-!
# Progress of an import

The import of past lines is announced as a start, steps in percent and one finished step. Its end is
expected at the time of the clock when it began; a percent is announced at most once.
-/

namespace MailTrace.Import

open MailTrace.Time

/-- A step of an import. The moment is that of the last line behind it, or none if the import was
skipped. -/
structure Step where
  finished : Bool
  time : Option Instant
  percent : Int
deriving DecidableEq, Repr

/-- The last step of an import. -/
def Step.final (time : Option Instant) : Step := ⟨true, time, 100⟩

/-- What is announced about an import. -/
inductive Announcement where
  | start (time : Option Instant)
  | step (s : Step)
deriving DecidableEq, Repr

/-- What is announced about an import that was skipped. -/
def skipped : List Announcement := [.start none, .step (.final none)]

/-- How far an import has come. -/
structure Progress where
  expectedEnd : Instant
  first : Option Instant
  last : Option Instant
  /-- The percents that were announced. -/
  reported : List Int
  ended : Bool
deriving DecidableEq, Repr

namespace Progress

/-- Before the first line. -/
def start (expectedEnd : Instant) : Progress := ⟨expectedEnd, none, none, [], false⟩

/-- The share of the expected time that has passed between two seconds, in whole percent rounded
toward zero, at least 0 and at most 99. No expected time at all counts as passed. -/
def percent (p : Progress) (first time : Instant) : Int :=
  let span := p.expectedEnd.second - first.second
  let share := if span = 0 then 100 else max 0 (((time.second - first.second) * 100).tdiv span)
  min share 99

/-- The import ends. -/
def finishAt (p : Progress) (time : Instant) : Progress × List Announcement :=
  ({ p with ended := true }, [.step (.final (some time))])

/-- The moment that the import ends with when nothing else tells: that of the last record. -/
def endTime (p : Progress) : Instant := p.last.getD p.expectedEnd

/-- The step of a record, once the start is announced. -/
def advance (p : Progress) (first time : Instant) : Progress × List Announcement :=
  if p.ended then (p, [])
  else if p.expectedEnd < time then p.finishAt time
  else
    let percent := p.percent first time
    if percent ∈ p.reported then (p, [])
    else ({ p with reported := percent :: p.reported }, [.step ⟨false, some time, percent⟩])

/-- One more record. The first one starts the import. -/
def record (p : Progress) (time : Instant) : Progress × List Announcement :=
  match p.first with
  | some first => { p with last := some time }.advance first time
  | none =>
    let (p, steps) := { p with first := some time, last := some time }.advance time time
    (p, .start (some time) :: steps)

/-- The input is at its end. An import without records starts and ends at the expected time. -/
def finish (p : Progress) : Progress × List Announcement :=
  let started := if p.first.isNone then [.start (some p.expectedEnd)] else []
  if p.ended then (p, started)
  else
    let (q, steps) := p.finishAt p.endTime
    (q, started ++ steps)

end Progress

end MailTrace.Import
