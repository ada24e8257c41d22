import Mathlib.Data.List.TakeWhile
import MailTrace.Line.Reading
import MailTrace.Proofs.Line.Faults
import MailTrace.Proofs.Time.Syslog

/-!
# The times of lines

A time is taken off a line exactly if the line begins with a text that stands for it
(`takeSyslogTime_eq_ok_iff`, `takeClockTime_eq_ok_iff`). What follows then decides whether the line is
read, alike after either kind of time (`readSyslog_of_tells`, `readClock_of_tells`).
-/

namespace MailTrace.Line

open MailTrace.Text MailTrace.Time

/-! ## Times without a year -/

/-- The text stands for a time without a year. Zero characters may stand before the time, and a blank
follows it. -/
def TellsSyslog (time : SyslogTime) (front : List Char) : Prop :=
  ∃ zeros written, front = zeros ++ (written ++ [' ']) ∧ (∀ c ∈ zeros, c = '\x00') ∧
    SyslogTime.read? written = some time

theorem written_of_read? {written : List Char} {time : SyslogTime}
    (h : SyslogTime.read? written = some time) :
    (written ++ [' ']).head? ≠ some '\x00' ∧ Utf8.size (written ++ [' ']) = SyslogTime.width := by
  obtain ⟨hshort, pad, hpad, rfl⟩ := SyslogTime.read?_eq_some_iff.1 h
  constructor
  · have hname : ∃ c tail, time.month.name.toList = c :: tail ∧ c ≠ '\x00' := by
      cases time.month <;> exact ⟨_, _, rfl, by decide⟩
    obtain ⟨c, tail, hname, hc⟩ := hname
    unfold SyslogTime.writeWith
    rw [hname]
    exact fun hzero => hc (Option.some.inj hzero)
  · rw [Utf8.size_append, SyslogTime.size_writeWith hshort hpad]
    rfl

theorem dropWhile_zeros {zeros time : List Char} (hzeros : ∀ c ∈ zeros, c = '\x00')
    (hhead : time.head? ≠ some '\x00') (hsize : Utf8.size time = SyslogTime.width)
    (rest : List Char) :
    (zeros ++ (time ++ rest)).dropWhile (· == '\x00') = time ++ rest := by
  have hskip : ∀ c ∈ zeros, (c == '\x00') = true := fun c hc => beq_iff_eq.2 (hzeros c hc)
  rw [List.dropWhile_append_of_pos hskip]
  cases time with
  | nil => cases hsize
  | cons c time =>
    have hc : c ≠ '\x00' := fun hc => hhead (congrArg some hc)
    rw [List.cons_append, List.dropWhile_cons_of_neg (by simpa using hc)]

theorem takeSyslogTime_append {zeros time : List Char} (hzeros : ∀ c ∈ zeros, c = '\x00')
    (hhead : time.head? ≠ some '\x00') (hsize : Utf8.size time = SyslogTime.width)
    (rest : List Char) :
    takeSyslogTime (zeros ++ (time ++ rest)) = (do
      let text ← require .header (before? [' '] time)
      return (← require (.time (String.ofList text)) (SyslogTime.read? text), rest)) := by
  unfold takeSyslogTime
  rw [dropWhile_zeros hzeros hhead hsize, ← hsize, Utf8.cut_size_append]
  rfl

/-- **A time without a year is taken off exactly the lines that begin with it.** -/
theorem takeSyslogTime_eq_ok_iff {line rest : List Char} {time : SyslogTime} :
    takeSyslogTime line = .ok (time, rest) ↔ ∃ front, line = front ++ rest ∧ TellsSyslog time front := by
  constructor
  · intro h
    obtain ⟨⟨head, rest'⟩, hcut, h⟩ := exists_of_bind_eq_ok h
    obtain ⟨written, hwritten, h⟩ := exists_of_bind_eq_ok h
    obtain ⟨time', hread, h⟩ := exists_of_bind_eq_ok h
    cases h
    obtain ⟨hline, -⟩ := Utf8.cut_eq_some_iff.1 (eq_some_of_require hcut)
    obtain rfl : head = written ++ [' '] := before?_eq_some_iff.1 (eq_some_of_require hwritten)
    refine ⟨line.takeWhile (· == '\x00') ++ (written ++ [' ']), ?_, _, written, rfl, ?_,
      eq_some_of_require hread⟩
    · rw [List.append_assoc, ← hline, List.takeWhile_append_dropWhile]
    · intro c hc
      exact beq_iff_eq.1 (List.mem_takeWhile_imp (p := (· == '\x00')) hc)
  · rintro ⟨front, rfl, zeros, written, rfl, hzeros, hread⟩
    obtain ⟨hhead, hsize⟩ := written_of_read? hread
    have hbefore : before? [' '] (written ++ [' ']) = some written := before?_eq_some_iff.2 rfl
    rw [List.append_assoc, takeSyslogTime_append hzeros hhead hsize]
    simp only [hbefore, hread, require_some, bind, Except.bind, pure, Except.pure]

theorem readSyslog_of_tells {time : SyslogTime} {front : List Char} (h : TellsSyslog time front)
    (rest : List Char) : readSyslog (front ++ rest) = (readBody rest).map (time, ·) := by
  unfold readSyslog
  rw [takeSyslogTime_eq_ok_iff.2 ⟨front, rfl, h⟩]
  show (do return (time, ← readBody rest)) = _
  cases readBody rest <;> rfl

/-- A written time stands for itself. -/
theorem tellsSyslog_write {time : SyslogTime} (h : time.Short) (n : Nat) (pad : DayPadding) :
    TellsSyslog time (List.replicate n '\x00' ++ (time.write pad ++ [' '])) :=
  ⟨_, _, rfl, fun _ hc => List.eq_of_mem_replicate hc, SyslogTime.read?_write h pad⟩

/-! ## Times with a year -/

/-- The text stands for a time with a year. Anything but a blank may follow the seconds, and then a
blank does. -/
def TellsClock (clock : Clock) (front : List Char) : Prop :=
  ∃ written more, front = written ++ (more ++ [' ']) ∧ ' ' ∉ written ++ more ∧
    Utf8.size written = clockWidth ∧ Clock.read? written = some clock

/-- **A time with a year is taken off exactly the lines that begin with it.** -/
theorem takeClockTime_eq_ok_iff {line rest : List Char} {instant : Instant} :
    takeClockTime line = .ok (instant, rest) ↔
      ∃ clock front, line = front ++ rest ∧ TellsClock clock front ∧ clock.instant = instant := by
  constructor
  · intro h
    obtain ⟨⟨token, rest'⟩, htoken, h⟩ := exists_of_bind_eq_ok h
    obtain ⟨⟨written, more⟩, hcut, h⟩ := exists_of_bind_eq_ok h
    obtain ⟨clock, hread, h⟩ := exists_of_bind_eq_ok h
    cases h
    obtain ⟨rfl, hblank⟩ := cutAt_eq_some_iff.1 (eq_some_of_require htoken)
    obtain ⟨rfl, hsize⟩ := Utf8.cut_eq_some_iff.1 (eq_some_of_require hcut)
    exact ⟨clock, written ++ (more ++ [' ']), by simp,
      ⟨written, more, rfl, hblank, hsize, eq_some_of_require hread⟩, rfl⟩
  · rintro ⟨clock, front, rfl, ⟨written, more, rfl, hblank, hsize, hread⟩, rfl⟩
    have htoken : cutAt ' ' (written ++ (more ++ [' ']) ++ rest) = some (written ++ more, rest) :=
      cutAt_eq_some_iff.2 ⟨by simp, hblank⟩
    have hcut : Utf8.cut clockWidth (written ++ more) = some (written, more) :=
      hsize ▸ Utf8.cut_size_append written more
    unfold takeClockTime
    simp only [htoken, hcut, hread, require_some, bind, Except.bind, pure, Except.pure]

theorem readClock_of_tells {clock : Clock} {front : List Char} (h : TellsClock clock front)
    (rest : List Char) : readClock (front ++ rest) = (readBody rest).map (clock.instant, ·) := by
  unfold readClock
  rw [takeClockTime_eq_ok_iff.2 ⟨clock, front, rfl, h, rfl⟩]
  show (do return (clock.instant, ← readBody rest)) = _
  cases readBody rest <;> rfl

end MailTrace.Line
