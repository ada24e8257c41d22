import MailTrace.Proofs.Format.Acceptance

/-!
# One event in every format

The same event can come in any of the formats, and what is kept of it does not depend on that.

1. A line after a timestamp and the same line in an envelope are both read as that line of the moment
   of the timestamp (`transform_stamped`, `transform_enveloped`), so they tell the same
   (`told_wrapped`). The line alone says the same, if its own time exists (`said_classic`).
2. What follows a time is read alike whatever the time looks like (`event_classic`, `event_dated`).
3. What is stored is the line, or the part of it that the format wraps (`line_of_transform_eq_ok`).
-/

namespace MailTrace

open MailTrace.Text MailTrace.Time

/-! ## What a record says -/

namespace Record

/-- Who wrote the line of a record, and what it tells of. -/
def event (r : Record) : Header × Payload := (r.header, r.payload)

/-- What a record says, with its line and the checksum of it. -/
def said (r : Record) : (Header × Payload) × String × Int := (r.event, r.line, r.sum)

/-- What a record says, and of which moment. Only the place of its line is left out. -/
def told (r : Record) : Instant × (Header × Payload) × String × Int := (r.time, r.said)

end Record

namespace Transformer

variable {t : Transformer}

/-! ## Lines that are read -/

/-- A line that was read is kept with its header and one event, as of any moment and at any place. -/
theorem exists_record_eq {body : Line.Body} (h : Recoverable body.payload) :
    ∃ p, ∀ (time : Instant) (line : List Char) (location : Location),
      record time body line location = .ok ⟨time, body.header, p, String.ofList line, location⟩ := by
  obtain ⟨p, hkeep⟩ := keep_of_recoverable h
  refine ⟨p, fun time line location => ?_⟩
  unfold record
  rw [hkeep]
  rfl

/-- A line of a timestamp tells the same wherever it stands. -/
theorem told_wrapped (timestamp line : List Char) (location location' : Location) :
    (wrapped timestamp line location).map (·.told) = (wrapped timestamp line location').map (·.told) := by
  unfold wrapped
  cases Line.readTimestamp timestamp with
  | error f => rfl
  | ok instant =>
    cases hread : Line.readSyslog line with
    | error f => rfl
    | ok read =>
      obtain ⟨p, hrecord⟩ := exists_record_eq (recoverable_of_readSyslog hread)
      simp only [bind, Except.bind, hrecord]
      rfl

/-- A line of a timestamp is kept whole, with its header and its event. -/
theorem wrapped_eq_ok {timestamp line : List Char} {instant : Instant} {time : SyslogTime}
    {body : Line.Body} {p : Payload} (htimestamp : Line.readTimestamp timestamp = .ok instant)
    (hread : Line.readSyslog line = .ok (time, body))
    (hrecord : ∀ (time : Instant) (line : List Char) (location : Location),
      record time body line location = .ok ⟨time, body.header, p, String.ofList line, location⟩)
    (location : Location) :
    wrapped timestamp line location = .ok ⟨instant, body.header, p, String.ofList line, location⟩ := by
  unfold wrapped
  rw [htimestamp, hread]
  exact hrecord ..

/-- **A line alone is accepted exactly if its time exists**, and then says what it says anywhere. -/
theorem said_classic (hformat : t.format = .classic) {line : List Char} {time : SyslogTime}
    {body : Line.Body} {p : Payload} (hread : Line.readSyslog line = .ok (time, body))
    (hrecord : ∀ (time : Instant) (line : List Char) (location : Location),
      record time body line location = .ok ⟨time, body.header, p, String.ofList line, location⟩) :
    (t.transform line).1.map (·.said) =
      if t.Dates time then
        .ok ((body.header, p), String.ofList line, Checksum.ofText (String.ofList line))
      else .error (.line .impossibleTime) := by
  rw [transform_eq_classic hformat]
  unfold classic YearTracker.place SyslogTime.inYear?
  simp only [hread]
  by_cases hdates : t.Dates time
  · have hvalid : (time.clock (t.years.advance time.month).year).Valid := hdates
    simp only [if_pos hdates, if_pos hvalid, hrecord]
    rfl
  · have hvalid : ¬ (time.clock (t.years.advance time.month).year).Valid := hdates
    simp only [if_neg hdates, if_neg hvalid]
    rfl

/-! ## What follows a time -/

/-- Who wrote what follows a time, and what it tells of. -/
def readEvent (rest : List Char) : Except FormatFault (Header × Payload) :=
  ((require .header (Header.take? rest)).map fun (header, text) =>
    (header, Payload.ofText header text)).mapError .line

theorem exists_readEvent_iff {rest : List Char} :
    (∃ e, readEvent rest = .ok e) ↔ (Header.take? rest).isSome := by
  unfold readEvent
  cases Header.take? rest with
  | none => exact ⟨fun ⟨_, h⟩ => (nomatch h), fun h => (nomatch h)⟩
  | some parts => exact ⟨fun _ => rfl, fun _ => ⟨_, rfl⟩⟩

theorem exists_map_eq_ok_iff {α β : Type} {x : Except FormatFault α} {g : α → β} :
    (∃ b, x.map g = .ok b) ↔ ∃ a, x = .ok a := by
  cases x with
  | error f => exact ⟨fun ⟨_, h⟩ => (nomatch h), fun ⟨_, h⟩ => (nomatch h)⟩
  | ok a => exact ⟨fun _ => ⟨a, rfl⟩, fun _ => ⟨g a, rfl⟩⟩

theorem event_record {rest : List Char} {body : Line.Body} (h : Line.readBody rest = .ok body)
    (time : Instant) (line : List Char) (location : Location) :
    ((record time body line location).mapError .line).map (·.event) = readEvent rest := by
  obtain ⟨⟨header, text⟩, hheader, h⟩ := exists_of_bind_eq_ok h
  cases h
  unfold record readEvent
  rw [hheader, keep_eq_ok]
  rfl

theorem readEvent_of_error {rest : List Char} {fault : LineFault} (h : Line.readBody rest = .error fault) :
    readEvent rest = .error (.line fault) := by
  unfold Line.readBody at h
  unfold readEvent
  cases hheader : require .header (Header.take? rest) with
  | ok parts =>
    rw [hheader] at h
    cases h
  | error f =>
    rw [hheader] at h
    cases h
    rfl

/-- The event of a line with a time without a year is that of what follows the time. -/
theorem event_classic (hformat : t.format = .classic) {time : SyslogTime} {front : List Char}
    (hfront : Line.TellsSyslog time front) (hdates : t.Dates time) (rest : List Char) :
    (t.transform (front ++ rest)).1.map (·.event) = readEvent rest := by
  have hplaced : time.inYear? (t.years.advance time.month).year =
      some (time.clock (t.years.advance time.month).year).instant := if_pos hdates
  rw [transform_eq_classic hformat]
  unfold classic
  rw [Line.readSyslog_of_tells hfront]
  cases hbody : Line.readBody rest with
  | error f => exact (readEvent_of_error hbody).symm
  | ok body =>
    simp only [Except.map, YearTracker.place_of_inYear? hplaced]
    exact event_record hbody ..

/-- The event of a line with a time with a year is that of what follows the time. -/
theorem event_dated (hformat : t.format = .dated) {clock : Clock} {front : List Char}
    (hfront : Line.TellsClock clock front) (rest : List Char) :
    (t.transform (front ++ rest)).1.map (·.event) = readEvent rest := by
  rw [transform_dated hformat]
  unfold dated
  rw [Line.readClock_of_tells hfront]
  cases hbody : Line.readBody rest with
  | error f => exact (readEvent_of_error hbody).symm
  | ok body => exact event_record hbody ..

/-! ## What is stored -/

/-- **A record stores what its format keeps of the line.** -/
theorem line_of_transform_eq_ok {line : List Char} {r : Record} (h : (t.transform line).1 = .ok r) :
    ∃ kept, t.format.kept? line = some kept ∧ r.line = String.ofList kept := by
  obtain ⟨time, body, kept, file, hkept, hrecord⟩ := exists_record_of_transform h
  exact ⟨kept, hkept, (record_eq_ok hrecord).1⟩

end Transformer

open Transformer

/-- **All formats agree on an event.** A line after a timestamp, and the same line and timestamp in an
envelope, are accepted or refused alike and give records that tell the same. If line and timestamp can
be read, then both give one, of the moment of the timestamp, with the header and the line whole; and the
line alone says the same, or is refused for a time that does not exist. Whatever follows a time, a line
with a time that exists without its year and one with a time with a year are accepted or refused alike,
exactly if what follows has a header, and tell of the same event. And in every format the record stores
what the format keeps of the line, with the checksum of that. -/
theorem formats_agree :
    (∀ (s v c : Transformer) (timestamp m line : List Char) (file : Option String),
      s.format = .stamped → v.format = .enveloped → c.format = .classic → ' ' ∉ timestamp →
      Envelope.read? line = some ⟨String.ofList timestamp, file, String.ofList m⟩ →
        (s.transform (timestamp ++ ' ' :: m)).1.map (·.told) = (v.transform line).1.map (·.told) ∧
        ∀ (instant : Instant) (time : SyslogTime) (body : Line.Body),
          Line.readTimestamp timestamp = .ok instant → Line.readSyslog m = .ok (time, body) →
          ∃ r, (s.transform (timestamp ++ ' ' :: m)).1 = .ok r ∧ r.time = instant ∧
            r.header = body.header ∧ r.line = String.ofList m ∧
            (c.transform m).1.map (·.said) =
              if c.Dates time then .ok r.said else .error (.line .impossibleTime)) ∧
    (∀ (c d : Transformer) (time : SyslogTime) (clock : Clock) (front front' rest : List Char),
      c.format = .classic → d.format = .dated → Line.TellsSyslog time front → c.Dates time →
      Line.TellsClock clock front' →
        (c.transform (front ++ rest)).1.map (·.event) = (d.transform (front' ++ rest)).1.map (·.event) ∧
        ((∃ r, (c.transform (front ++ rest)).1 = .ok r) ↔ (Header.take? rest).isSome)) ∧
    ∀ (t : Transformer) (line : List Char) (r : Record), (t.transform line).1 = .ok r →
      ∃ kept, t.format.kept? line = some kept ∧ r.line = String.ofList kept ∧
        r.sum = Checksum.ofText (String.ofList kept) := by
  refine ⟨?_, ?_, ?_⟩
  · intro s v c timestamp m line file hs hv hc hblank henvelope
    have hstamped := transform_stamped hs hblank m
    have henveloped := transform_enveloped hv henvelope
    rw [String.toList_ofList, String.toList_ofList] at henveloped
    refine ⟨?_, fun instant time body htimestamp hread => ?_⟩
    · rw [hstamped, henveloped, ← map_mapError, ← map_mapError, told_wrapped]
    · obtain ⟨p, hrecord⟩ := exists_record_eq (recoverable_of_readSyslog hread)
      rw [wrapped_eq_ok htimestamp hread hrecord] at hstamped
      exact ⟨_, hstamped, rfl, rfl, rfl, said_classic hc hread hrecord⟩
  · intro c d time clock front front' rest hc hd hfront hdates hfront'
    have hclassic := event_classic hc hfront hdates rest
    refine ⟨hclassic.trans (event_dated hd hfront' rest).symm, ?_⟩
    rw [← exists_map_eq_ok_iff (g := (·.event)), hclassic, exists_readEvent_iff]
  · intro t line r hr
    obtain ⟨kept, hkept, hline⟩ := line_of_transform_eq_ok hr
    exact ⟨kept, hkept, hline, congrArg Checksum.ofText hline⟩

/-- A line that begins with a zero character, and an envelope of it. -/
def shipped : List Char × List Char :=
  ("\x00Mar  6 07:08:59 mail postfix/qmgr[1]: A1: removed".toList,
    ("\x7b\"@timestamp\":\"2021-03-06T06:09:00.798Z\"," ++
      "\"message\":\"\\u0000Mar  6 07:08:59 mail postfix/qmgr[1]: A1: removed\"\x7d").toList)

/-- The line after a timestamp, in the envelope and alone gives one record, and after another time it
tells of the same event. -/
theorem shipped_agrees :
    (∃ r, ((start .stamped none 0).transform ("2021-03-06T06:09:00.798Z".toList ++ ' ' :: shipped.1)).1 =
        .ok r ∧
      ((start .enveloped none 0).transform shipped.2).1.map (·.told) = .ok r.told ∧
      ((start .classic (some 2021) 0).transform shipped.1).1.map (·.said) = .ok r.said) ∧
    ((start .classic (some 2021) 0).transform shipped.1).1.map (·.event) =
      ((start .dated none 0).transform
        "2021-03-06T07:08:59+01:00 mail postfix/qmgr[1]: A1: removed".toList).1.map (·.event) := by
  obtain ⟨hwrapped, hafter, -⟩ := formats_agree
  have henvelope : Envelope.read? shipped.2 =
      some ⟨String.ofList "2021-03-06T06:09:00.798Z".toList, none, String.ofList shipped.1⟩ := by
    decide +kernel
  have hfront : Line.TellsSyslog ⟨.march, 6, 7, 8, 59⟩ "\x00Mar  6 07:08:59 ".toList :=
    ⟨['\x00'], "Mar  6 07:08:59".toList, rfl, fun _ hc => List.mem_singleton.1 hc, by decide⟩
  have hfront' : Line.TellsClock ⟨⟨2021, .march, 6⟩, 7, 8, 59⟩ "2021-03-06T07:08:59+01:00 ".toList :=
    ⟨"2021-03-06T07:08:59".toList, "+01:00".toList, rfl, by decide, by decide, by decide⟩
  have hdates : (start .classic (some 2021) 0).Dates ⟨.march, 6, 7, 8, 59⟩ := by decide
  refine ⟨?_, (hafter (start .classic (some 2021) 0) (start .dated none 0) _ _ _ _
    "mail postfix/qmgr[1]: A1: removed".toList rfl rfl hfront hdates hfront').1⟩
  obtain ⟨htold, hread⟩ := hwrapped (start .stamped none 0) (start .enveloped none 0)
    (start .classic (some 2021) 0) _ _ _ _ rfl rfl rfl (by decide) henvelope
  have hbody := Line.readSyslog_of_tells hfront "mail postfix/qmgr[1]: A1: removed".toList
  obtain ⟨r, hr, -, -, -, hsaid⟩ := hread _ ⟨.march, 6, 7, 8, 59⟩ _ rfl hbody
  rw [hr] at htold
  exact ⟨r, hr, htold.symm, hsaid.trans (if_pos hdates)⟩

end MailTrace
