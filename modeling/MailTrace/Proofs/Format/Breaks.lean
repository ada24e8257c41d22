import MailTrace.Format.Transformer
import MailTrace.Proofs.Format.Years
import MailTrace.Proofs.Line.Slices

/-!
# Lines that reading breaks off at

Reading a line gives a record or a fault, in every format and at every state. No fault of a classic
line, of its header or of its text breaks reading off; one of a timestamp before the line does: the
year 9999 is the last of the calendar, and a timestamp west of universal time can stand for a moment
of the year after it (`breaksOff_iff`).
-/

namespace MailTrace

open MailTrace.Text MailTrace.Time

/-! ## Timestamps outside of the calendar -/

namespace Time.Rfc3339

/-- The text is a timestamp of a clock, a fraction of its second and an offset. -/
inductive Tells : List Char → Clock → Nat → Int → Prop where
  | intro {y₁ y₂ y₃ y₄ m₁ m₂ d₁ d₂ separator h₁ h₂ i₁ i₂ s₁ s₂ : Char} {rest : List Char}
      {date : Date} {hour minute second nanos : Nat} {offset : Int}
      (hdate : readDate? y₁ y₂ y₃ y₄ m₁ m₂ d₁ d₂ = some date)
      (hseparator : separator.toNat ≤ 0x7F)
      (hhour : twoDigits? h₁ h₂ = some hour)
      (hminute : twoDigits? i₁ i₂ = some minute)
      (hsecond : twoDigits? s₁ s₂ = some second)
      (htail : tail? rest = some (nanos, offset)) :
      Tells (y₁ :: y₂ :: y₃ :: y₄ :: '-' :: m₁ :: m₂ :: '-' :: d₁ :: d₂ :: separator :: h₁ :: h₂ ::
          ':' :: i₁ :: i₂ :: ':' :: s₁ :: s₂ :: rest)
        ⟨date, hour, minute, second⟩ nanos offset

/-- The first moment after the years of the calendar. -/
def calendarEnd : Instant := Instant.ofDate ⟨Date.maxYear + 1, .january, 1⟩ 0

/-- The text is a timestamp with every part in its range, of a moment after the calendar. -/
def LeavesCalendar (token : List Char) : Prop :=
  ∃ clock nanos offset, Tells token clock nanos offset ∧ clock.Valid ∧
    calendarEnd ≤ clock.instant - Instant.ofSecond offset + nanos

/-- An offset is less than a day. -/
theorem offset?_lt {cs : List Char} {offset : Int} (h : offset? cs = some offset) :
    offset < 86400 := by
  unfold offset? at h
  split at h
  · cases h
    decide
  · cases h
    decide
  · rename_i sign h₁ h₂ m₁ m₂
    simp only [Option.bind_eq_bind, Option.bind_eq_some_iff] at h
    obtain ⟨hours, -, minutes, -, h⟩ := h
    split at h
    · cases h
    rename_i hrange
    simp only [Bool.or_eq_true, decide_eq_true_eq, not_or] at hrange
    split at h
    · cases h
      omega
    split at h
    · cases h
      omega
    · cases h
  · cases h

theorem offset_lt_of_tail? {cs : List Char} {nanos : Nat} {offset : Int}
    (h : tail? cs = some (nanos, offset)) : offset < 86400 := by
  unfold tail? at h
  split at h
  · dsimp only at h
    split at h
    · cases h
    · simp only [Option.map_eq_some_iff, Prod.mk.injEq] at h
      obtain ⟨a, ha, -, rfl⟩ := h
      exact offset?_lt ha
  · simp only [Option.map_eq_some_iff, Prod.mk.injEq] at h
    obtain ⟨a, ha, -, rfl⟩ := h
    exact offset?_lt ha

theorem year_nonneg_of_readDate? {y₁ y₂ y₃ y₄ m₁ m₂ d₁ d₂ : Char} {date : Date}
    (h : readDate? y₁ y₂ y₃ y₄ m₁ m₂ d₁ d₂ = some date) : 0 ≤ date.year := by
  unfold readDate? at h
  simp only [Option.bind_eq_bind, Option.bind_eq_some_iff, Option.pure_def] at h
  obtain ⟨n, -, month, -, year, -, day, -, h⟩ := h
  cases h
  exact Int.natCast_nonneg year

/-- A year that is written leaves room for every offset at the start of the calendar. -/
theorem minYear_le_year {clock : Clock} {offset : Int} (hyear : 0 ≤ clock.date.year)
    (hday : 1 ≤ clock.date.day) (hoffset : offset < 86400) (nanos : Nat) :
    Date.minYear ≤ Instant.year (clock.instant - Instant.ofSecond offset + nanos) := by
  have hlow : Instant.ofDate ⟨Date.minYear, .january, 1⟩ 0 = -377705116800000000000 := by decide
  -- the first day of the year 0
  have hdays : -719528 ≤ clock.date.dayNumber := by
    have hmono := daysBeforeYear_mono hyear
    have hfirst : daysBeforeYear 0 = -366 := by decide
    unfold Date.dayNumber epochDay
    omega
  rw [Instant.le_year_iff, hlow]
  show (-377705116800000000000 : Int) ≤ (clock.date.dayNumber * 86400 +
    (clock.hour * 3600 + clock.minute * 60 + clock.second : Nat)) * 1000000000 -
      offset * 1000000000 + (nanos : Int)
  omega

theorem universal_eq_outsideCalendar_iff {clock : Clock} {nanos : Nat} {offset : Int}
    (hyear : 0 ≤ clock.date.year) (hday : 1 ≤ clock.date.day) (hoffset : offset < 86400) :
    universal clock nanos offset = .error .outsideCalendar ↔
      calendarEnd ≤ clock.instant - Instant.ofSecond offset + nanos := by
  have hlow := minYear_le_year hyear hday hoffset nanos
  unfold universal calendarEnd
  rw [← Instant.le_year_iff]
  dsimp only
  split
  · rename_i h
    simp only [Bool.and_eq_true, decide_eq_true_eq] at h
    simp only [reduceCtorEq, false_iff]
    omega
  · rename_i h
    simp only [Bool.and_eq_true, decide_eq_true_eq, not_and] at h
    have := h hlow
    simp only [true_iff]
    omega

/-- **Only a timestamp past the end of the calendar leaves it.** -/
theorem read_eq_outsideCalendar_iff {token : List Char} :
    read token = .error .outsideCalendar ↔ LeavesCalendar token := by
  constructor
  · intro h
    unfold read at h
    split at h
    · dsimp only at h
      split at h
      · cases h
      rename_i clock nanos offset hparts
      simp only [Option.bind_eq_bind, Option.bind_eq_some_iff, Option.pure_def] at hparts
      obtain ⟨date, hdate, hour, hhour, minute, hminute, second, hsecond, tail, htail, hparts⟩ :=
        hparts
      cases hparts
      split at h
      · cases h
      rename_i hseparator
      split at h
      · -- a leap second is either held back inside of the calendar or refused
        dsimp only at h
        split at h
        · split at h <;> cases h
        · cases h
      split at h
      · rename_i hvalid
        have hlate := (universal_eq_outsideCalendar_iff (year_nonneg_of_readDate? hdate)
          hvalid.1.2.1 (offset_lt_of_tail? htail)).1 h
        exact ⟨_, _, _, .intro hdate (Nat.not_lt.1 hseparator) hhour hminute hsecond htail, hvalid,
          hlate⟩
      · cases h
    · cases h
  · rintro ⟨clock, nanos, offset, ⟨hdate, hseparator, hhour, hminute, hsecond, htail⟩, hvalid, hlate⟩
    have hlast := hvalid.2.2.2
    unfold read
    simp only [hdate, hhour, hminute, hsecond, htail, Option.bind_eq_bind, Option.bind_some,
      Option.pure_def]
    rw [if_neg (Nat.not_lt.2 hseparator), if_neg (Nat.ne_of_lt hlast), if_pos hvalid]
    exact (universal_eq_outsideCalendar_iff (year_nonneg_of_readDate? hdate) hvalid.1.2.1
      (offset_lt_of_tail? htail)).2 hlate

end Time.Rfc3339

/-! ## Lines -/

/-- Reading goes on after whatever fault a computation ends with. -/
abbrev GoesOn {α : Type} (x : Except LineFault α) : Prop := FailsWith (· ≠ .outsideCalendar) x

namespace Line

theorem goesOn_takeSyslogTime (line : List Char) : GoesOn (takeSyslogTime line) := by
  refine .bind (.require nofun _) fun ⟨head, rest⟩ => ?_
  refine .bind (.require nofun _) fun text => ?_
  exact .bind (.require nofun _) fun time => .ok _

theorem goesOn_takeClockTime (line : List Char) : GoesOn (takeClockTime line) := by
  refine .bind (.require nofun _) fun ⟨token, rest⟩ => ?_
  refine .bind (.require nofun _) fun ⟨text, _⟩ => ?_
  exact .bind (.require nofun _) fun clock => .ok _

theorem goesOn_readBody (cs : List Char) : GoesOn (readBody cs) :=
  .bind (.require nofun _) fun _ => .ok _

theorem goesOn_readSyslog (line : List Char) : GoesOn (readSyslog line) := by
  refine (goesOn_takeSyslogTime line).bind fun ⟨time, rest⟩ => ?_
  exact (goesOn_readBody rest).bind fun body => .ok _

theorem readTimestamp_eq_outsideCalendar_iff {token : List Char} :
    readTimestamp token = .error .outsideCalendar ↔ Rfc3339.LeavesCalendar token := by
  rw [← Rfc3339.read_eq_outsideCalendar_iff]
  unfold readTimestamp
  cases Rfc3339.read token with
  | ok t => simp
  | error fault => cases fault <;> simp

end Line

/-- The timestamp before a line, or around it. -/
def Format.timestamp? (line : List Char) : Format → Option (List Char)
  | classic | dated => none
  | stamped => (cutAt ' ' line).map (·.1)
  | enveloped => (Envelope.read? line).map (·.timestamp.toList)

namespace Transformer

theorem goesOn_record {body : Line.Body} (h : Recoverable body.payload) (time : Instant)
    (line : List Char) (location : Location) : GoesOn (record time body line location) := by
  obtain ⟨r, hrecord, -⟩ := exists_record h time line location
  rw [hrecord]
  exact .ok r

theorem goesOn_classic (years : YearTracker) (line : List Char) (location : Location) :
    GoesOn (classic years line location).1 := by
  unfold classic
  split
  · rename_i fault hread
    exact .error ((Line.goesOn_readSyslog line).fault fault hread)
  · rename_i time body hread
    split
    · exact .error nofun
    · exact goesOn_record (recoverable_of_readSyslog hread) ..

theorem goesOn_dated (line : List Char) (location : Location) : GoesOn (dated line location) := by
  have htime := Line.goesOn_takeClockTime line
  unfold dated Line.readClock
  cases hread : Line.takeClockTime line with
  | error fault => exact .error (htime.fault fault hread)
  | ok taken =>
    obtain ⟨time, rest⟩ := taken
    have hrest := Line.goesOn_readBody rest
    simp only [bind, Except.bind]
    cases hbody : Line.readBody rest with
    | error fault => exact .error (hrest.fault fault hbody)
    | ok body => exact goesOn_record (recoverable_of_readBody hbody) ..

theorem goesOn_wrapped {timestamp line : List Char} {location : Location} {time : Instant}
    (h : Line.readTimestamp timestamp = .ok time) : GoesOn (wrapped timestamp line location) := by
  unfold wrapped
  rw [h]
  simp only [bind, Except.bind]
  cases hread : Line.readSyslog line with
  | error fault => exact .error ((Line.goesOn_readSyslog line).fault fault hread)
  | ok read => exact goesOn_record (recoverable_of_readSyslog hread) ..

/-- Only the timestamp of a wrapped line breaks reading off. -/
theorem wrapped_eq_outsideCalendar_iff {timestamp line : List Char} {location : Location} :
    wrapped timestamp line location = .error .outsideCalendar ↔
      Rfc3339.LeavesCalendar timestamp := by
  rw [← Line.readTimestamp_eq_outsideCalendar_iff]
  cases htime : Line.readTimestamp timestamp with
  | error fault =>
    have hwrapped : wrapped timestamp line location = .error fault := by
      unfold wrapped
      rw [htime]
      rfl
    rw [hwrapped]
    exact ⟨fun h => congrArg _ (Except.error.inj h), fun h => congrArg _ (Except.error.inj h)⟩
  | ok time =>
    refine iff_of_false (fun h => ?_) fun h => ?_
    · exact (goesOn_wrapped htime).fault _ h rfl
    · cases h

theorem breaksOff_mapError_iff {x : Except LineFault Record} :
    (∃ f, x.mapError FormatFault.line = .error f ∧ f.breaksOff = true) ↔
      x = .error .outsideCalendar := by
  unfold FormatFault.breaksOff
  cases x with
  | ok r => simp [Except.mapError]
  | error fault => simp [Except.mapError]

theorem not_breaksOff_of_goesOn {x : Except LineFault Record} (h : GoesOn x) :
    ¬ ∃ f, x.mapError FormatFault.line = .error f ∧ f.breaksOff = true := by
  rw [breaksOff_mapError_iff]
  exact fun hx => h.fault _ hx rfl

theorem transform_breaksOff_iff (t : Transformer) (line : List Char) :
    (∃ f, (t.transform line).1 = .error f ∧ f.breaksOff = true) ↔
      ∃ token ∈ t.format.timestamp? line, Rfc3339.LeavesCalendar token := by
  obtain ⟨format, count, years⟩ := t
  cases format with
  | classic =>
    refine iff_of_false (not_breaksOff_of_goesOn (goesOn_classic ..)) ?_
    rintro ⟨token, htoken, -⟩
    cases htoken
  | dated =>
    refine iff_of_false (not_breaksOff_of_goesOn (goesOn_dated ..)) ?_
    rintro ⟨token, htoken, -⟩
    cases htoken
  | stamped =>
    show (∃ f, stamped line ⟨Location.unknownFile, count + 1⟩ = .error f ∧ f.breaksOff = true) ↔
      ∃ token ∈ (cutAt ' ' line).map (·.1), Rfc3339.LeavesCalendar token
    unfold stamped
    cases cutAt ' ' line with
    | none => simp [FormatFault.breaksOff]
    | some parts =>
      obtain ⟨timestamp, rest⟩ := parts
      dsimp only
      rw [breaksOff_mapError_iff, wrapped_eq_outsideCalendar_iff]
      simp
  | enveloped =>
    unfold transform Format.timestamp?
    dsimp only
    cases Envelope.read? line with
    | none => simp [FormatFault.breaksOff]
    | some e =>
      dsimp only
      rw [breaksOff_mapError_iff, wrapped_eq_outsideCalendar_iff]
      simp

end Transformer

/-- **Where reading breaks off.** No cut at an offset leaves its text or splits a character, and in
every format and state a line breaks reading off exactly if there is a timestamp before or around it
that stands for a moment after the calendar. -/
theorem breaksOff_iff (t : Transformer) (line : List Char) : CutsInside ∧
    ((∃ f, (t.transform line).1 = .error f ∧ f.breaksOff = true) ↔
      ∃ token ∈ t.format.timestamp? line, Rfc3339.LeavesCalendar token) :=
  ⟨cutsInside, t.transform_breaksOff_iff line⟩

/-- The last second of the year 9999 an hour west of universal time. -/
theorem breaksOff_lastSecondWest :
    ((Transformer.start .stamped none 0).transform
        ("9999-12-31T23:59:59-01:00 Mar  6 07:08:59 host postfix/qmgr[1]: A1: removed".toList)).1 =
      .error (.line .outsideCalendar) ∧
    (FormatFault.line .outsideCalendar).breaksOff = true := by
  decide

end MailTrace
