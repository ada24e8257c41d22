import Mathlib.Data.List.Chain
import MailTrace.Format.Transformer
import MailTrace.Proofs.Line.Times

/-!
# The years of a classic log

The lines of a classic log name no year, and yet reading gives back the moments they were written at.

1. A line that was written is read as its time and what follows it (`readSyslog_told`), and what
   follows never spoils it.
2. The tracker expects the moments that may come next (`YearTracker.Expects`): it places such a moment
   exactly, and then expects those that may come after it (`place_of_expects`).
3. Over a whole log this is an induction on its lines, in which refused lines leave the tracker as it
   is (`moments_of_expects`, `years_regained`).
-/

namespace MailTrace

open MailTrace.Text MailTrace.Time

/-! ## Lines -/

/-- A line of a classic log: one that tells a moment before the rest of what it says, or one that is
refused. -/
inductive ClassicLine where
  | told (moment : Instant) (pad : DayPadding) (rest : List Char)
  | refused (line : List Char)

namespace ClassicLine

/-- The characters of a line. The moment is written without its year. -/
def chars : ClassicLine → List Char
  | told moment pad rest => (SyslogTime.ofInstant moment).write pad ++ ' ' :: rest
  | refused line => line

def text (l : ClassicLine) : String := String.ofList l.chars

def moment? : ClassicLine → Option Instant
  | told moment .. => some moment
  | refused _ => none

/-- A moment is one of the calendar, in whole seconds, and a header follows it. What is refused has no
time or no header. -/
def Sound : ClassicLine → Prop
  | told moment _ rest =>
    moment.subsecond = 0 ∧ (Date.minYear ≤ moment.year ∧ moment.year ≤ Date.maxYear) ∧
      ∃ body, Line.readBody rest = .ok body
  | refused line => ∃ fault, Line.readSyslog line = .error fault

end ClassicLine

theorem readSyslog_told {moment : Instant} {pad : DayPadding} {rest : List Char}
    (h : (ClassicLine.told moment pad rest).Sound) :
    ∃ body, Line.readSyslog (ClassicLine.told moment pad rest).chars =
      .ok (.ofInstant moment, body) := by
  obtain ⟨-, ⟨hlow, hhigh⟩, body, hbody⟩ := h
  have htells : Line.TellsSyslog (.ofInstant moment) ((SyslogTime.ofInstant moment).write pad ++ [' ']) :=
    Line.tellsSyslog_write (SyslogTime.short_ofInstant hlow hhigh) 0 pad
  have hread := Line.readSyslog_of_tells htells rest
  rw [hbody, List.append_assoc] at hread
  exact ⟨body, hread⟩

/-! ## Records -/

theorem keep_of_recoverable {payload : Except LineFault Payload} (h : Recoverable payload) :
    ∃ p, Transformer.keep payload = .ok p := by
  cases payload with
  | ok p => exact ⟨p, rfl⟩
  | error f => exact ⟨.unsupported, if_pos (h.fault f rfl)⟩

theorem recoverable_of_readBody {cs : List Char} {body : Line.Body}
    (h : Line.readBody cs = .ok body) : Recoverable body.payload := by
  obtain ⟨⟨header, text⟩, -, h⟩ := exists_of_bind_eq_ok h
  cases h
  exact Payload.recoverable_read header text

theorem recoverable_of_readSyslog {line : List Char} {time : SyslogTime} {body : Line.Body}
    (h : Line.readSyslog line = .ok (time, body)) : Recoverable body.payload := by
  obtain ⟨taken, -, h⟩ := exists_of_bind_eq_ok h
  obtain ⟨read, hbody, h⟩ := exists_of_bind_eq_ok h
  cases h
  exact recoverable_of_readBody hbody

theorem exists_record {body : Line.Body} (h : Recoverable body.payload) (time : Instant)
    (line : List Char) (location : Location) :
    ∃ r : Record, Transformer.record time body line location = .ok r ∧ r.time = time := by
  obtain ⟨p, hkeep⟩ := keep_of_recoverable h
  refine ⟨⟨time, body.header, p, String.ofList line, location⟩, ?_, rfl⟩
  unfold Transformer.record
  rw [hkeep]
  rfl

/-! ## The tracker -/

namespace Time

/-- A moment may come after another in a log: later in the year or in the same month, or in the next
year and in an earlier month. -/
def Instant.Precedes (t u : Instant) : Prop :=
  u.year = t.year ∧ t.date.month.number ≤ u.date.month.number ∨
    u.year = t.year + 1 ∧ u.date.month.number < t.date.month.number

namespace YearTracker

variable {y : YearTracker} {t : Instant}

/-- A moment may come next. -/
def Expects (y : YearTracker) (t : Instant) : Prop :=
  match y.lastMonth with
  | none => t.year = y.year
  | some m => t.year = y.year ∧ m.number ≤ t.date.month.number ∨
      t.year = y.year + 1 ∧ t.date.month.number < m.number

/-- The tracker after a moment. -/
def after (y : YearTracker) (t : Instant) : YearTracker :=
  { y with year := t.year, lastMonth := some t.date.month }

theorem advance_of_expects (h : y.Expects t) (hmax : t.year ≤ y.maxYear) :
    y.advance t.date.month = { y with year := t.year } := by
  obtain ⟨year, maxYear, lastMonth⟩ := y
  unfold advance
  cases lastMonth with
  | none =>
    have hyear : t.year = year := h
    have hstays : ¬ Turns ⟨year, maxYear, none⟩ t.date.month := by
      rintro ⟨⟨last, hmem, -⟩, -⟩
      cases hmem
    rw [if_neg hstays, hyear]
  | some m =>
    rcases h with ⟨hsame, hmonth⟩ | ⟨hnext, hmonth⟩
    · have hstays : ¬ Turns ⟨year, maxYear, some m⟩ t.date.month := by
        rintro ⟨⟨last, hmem, hlt⟩, -⟩
        cases hmem
        exact absurd hlt (Nat.not_lt.2 hmonth)
      rw [if_neg hstays, hsame]
    · have hturns : Turns ⟨year, maxYear, some m⟩ t.date.month := by
        rw [hnext] at hmax
        exact ⟨⟨m, rfl, hmonth⟩, Int.lt_of_add_one_le hmax⟩
      rw [if_pos hturns, hnext]

theorem place_of_inYear? {time : SyslogTime} {placed : Instant}
    (h : time.inYear? (y.advance time.month).year = some placed) :
    y.place time = (some placed, { y.advance time.month with lastMonth := some time.month }) := by
  unfold place
  simp only [h]

/-- An expected moment is placed exactly. -/
theorem place_of_expects (h : y.Expects t) (hmax : t.year ≤ y.maxYear) (hwhole : t.subsecond = 0)
    (hlow : Date.minYear ≤ t.year) (hhigh : t.year ≤ Date.maxYear) :
    y.place (.ofInstant t) = (some t, y.after t) := by
  have hadvance : y.advance (SyslogTime.ofInstant t).month = { y with year := t.year } :=
    advance_of_expects h hmax
  have hplaced : (SyslogTime.ofInstant t).inYear?
      (y.advance (SyslogTime.ofInstant t).month).year = some t := by
    rw [hadvance]
    exact SyslogTime.inYear?_ofInstant hwhole hlow hhigh
  rw [place_of_inYear? hplaced, hadvance]
  rfl

end YearTracker

end Time

/-! ## Logs -/

namespace Transformer

variable {y : YearTracker}

theorem transform_classic (count : Nat) (y : YearTracker) (line : List Char) :
    transform ⟨.classic, count, y⟩ line =
      ((classic y line ⟨Location.unknownFile, count + 1⟩).1.mapError .line,
        ⟨.classic, count + 1, (classic y line ⟨Location.unknownFile, count + 1⟩).2⟩) := rfl

theorem transform_told (count : Nat) {moment : Instant} {pad : DayPadding} {rest : List Char}
    (h : (ClassicLine.told moment pad rest).Sound) (hexpects : y.Expects moment)
    (hmax : moment.year ≤ y.maxYear) :
    ∃ r : Record, r.time = moment ∧
      transform ⟨.classic, count, y⟩ (ClassicLine.told moment pad rest).chars =
        (.ok r, ⟨.classic, count + 1, y.after moment⟩) := by
  obtain ⟨body, hread⟩ := readSyslog_told h
  obtain ⟨hwhole, ⟨hlow, hhigh⟩, -⟩ := h
  have hplace := YearTracker.place_of_expects hexpects hmax hwhole hlow hhigh
  obtain ⟨r, hrecord, htime⟩ := exists_record (recoverable_of_readSyslog hread) moment
    (ClassicLine.told moment pad rest).chars ⟨Location.unknownFile, count + 1⟩
  refine ⟨r, htime, ?_⟩
  rw [transform_classic]
  unfold classic
  simp only [hread, hplace, hrecord]
  rfl

theorem transform_refused (count : Nat) (y : YearTracker) {line : List Char}
    (h : (ClassicLine.refused line).Sound) :
    ∃ fault, transform ⟨.classic, count, y⟩ (ClassicLine.refused line).chars =
      (.error fault, ⟨.classic, count + 1, y⟩) := by
  obtain ⟨fault, hread⟩ := h
  refine ⟨.line fault, ?_⟩
  rw [transform_classic]
  unfold classic ClassicLine.chars
  simp only [hread]
  rfl

/-- The moments that a log gives back, from between two of its lines on. -/
theorem moments_of_expects (count : Nat) (log : List ClassicLine) (hsound : ∀ l ∈ log, l.Sound)
    (hmax : ∀ t ∈ log.filterMap (·.moment?), t.year ≤ y.maxYear)
    (hfirst : ∀ t ∈ (log.filterMap (·.moment?)).head?, y.Expects t)
    (hnext : (log.filterMap (·.moment?)).IsChain Instant.Precedes) :
    (transformAll ⟨.classic, count, y⟩ (log.map (·.text))).map (·.toOption.map (·.time)) =
      log.map (·.moment?) := by
  induction log generalizing count y with
  | nil => rfl
  | cons l log ih =>
    have hsounds := List.forall_mem_cons.1 hsound
    have hchars : l.text.toList = l.chars := String.toList_ofList
    rw [List.map_cons, transformAll, hchars]
    cases l with
    | told moment pad rest =>
      have hmoments : (ClassicLine.told moment pad rest :: log).filterMap (·.moment?) =
        moment :: log.filterMap (·.moment?) := rfl
      rw [hmoments] at hmax hfirst hnext
      have hmaxs := List.forall_mem_cons.1 hmax
      obtain ⟨r, htime, htransform⟩ :=
        transform_told count hsounds.1 (hfirst moment rfl) hmaxs.1
      rw [htransform]
      have hlater := ih (count + 1) (y := y.after moment) hsounds.2 hmaxs.2
        (fun u hu => (List.isChain_cons.1 hnext).1 u hu) (List.isChain_cons.1 hnext).2
      simp only [List.map_cons, hlater]
      rw [← htime]
      rfl
    | refused line =>
      obtain ⟨fault, htransform⟩ :=
        transform_refused count y hsounds.1
      rw [htransform]
      have hlater := ih (count + 1) hsounds.2 hmax hfirst hnext
      simp only [List.map_cons, hlater]
      rfl

end Transformer

/-- **Years are regained exactly.** The moments of a log begin in the first year, each follows the one
before it in the same year without going back in months, or in the next year in an earlier month, and
none is past the last year. Reading the lines that were written of them, in order and with refused
lines anywhere among them, gives one record for each, of exactly its moment. -/
theorem years_regained (initial maxYear : Int) (count : Nat) (log : List ClassicLine)
    (hsound : ∀ l ∈ log, l.Sound)
    (hmax : ∀ t ∈ log.filterMap (·.moment?), t.year ≤ maxYear)
    (hfirst : ∀ t ∈ (log.filterMap (·.moment?)).head?, t.year = initial)
    (hnext : (log.filterMap (·.moment?)).IsChain Instant.Precedes) :
    (Transformer.transformAll ⟨.classic, count, .start initial maxYear⟩ (log.map (·.text))).map
        (·.toOption.map (·.time)) =
      log.map (·.moment?) :=
  Transformer.moments_of_expects count log hsound
    (fun t ht => Int.le_trans (hmax t ht) (Int.le_max_left _ _)) hfirst hnext

/-- The last second of a year, a line that is refused, a leap day, and a day early in a year. -/
def turnsOfYear : List ClassicLine :=
  let rest := "mail postfix/qmgr[964]: 027BD2C77B20: removed".toList
  [.told (.ofDate ⟨2019, .december, 31⟩ 86399) .zero rest, .refused "no log line".toList,
    .told (.ofDate ⟨2020, .february, 29⟩ 3661) .zero rest,
    .told (.ofDate ⟨2021, .january, 5⟩ 0) .blank rest]

theorem turnsOfYear_regained :
    (Transformer.transformAll ⟨.classic, 0, .start 2019 2021⟩ (turnsOfYear.map (·.text))).map
        (·.toOption.map (·.time)) =
      [some (.ofDate ⟨2019, .december, 31⟩ 86399), none,
        some (.ofDate ⟨2020, .february, 29⟩ 3661), some (.ofDate ⟨2021, .january, 5⟩ 0)] := by
  refine years_regained 2019 2021 0 turnsOfYear ?_ (by decide) (by decide) ?_
  · intro l hl
    unfold turnsOfYear at hl
    simp only [List.mem_cons, List.not_mem_nil, or_false] at hl
    rcases hl with rfl | rfl | rfl | rfl
    · exact ⟨rfl, by decide, _, rfl⟩
    · exact ⟨_, rfl⟩
    · exact ⟨rfl, by decide, _, rfl⟩
    · exact ⟨rfl, by decide, _, rfl⟩
  · exact .cons_cons (.inr (by decide)) (.cons_cons (.inr (by decide)) (.singleton _))

end MailTrace
