import MailTrace.Proofs.Format.Texts

/-!
# Which lines are accepted

A line is accepted exactly if what its format needs before the text can be read from it, whatever the
text is.

1. A line is read exactly if it begins with a time and a header (`readSyslog_eq_ok_iff`,
   `readClock_eq_ok_iff`).
2. So a line is accepted exactly if besides that its time exists, or there is a timestamp that can be
   read (`Accepts`). An accepted line gives a record of all that was read from it
   (`exists_of_accepts`), and only accepted lines give one (`exists_accepts`).
3. A text is no part of this (`text_never_sinks_line`).
-/

namespace MailTrace

open MailTrace.Text MailTrace.Time

/-! ## Lines that are read -/

namespace Line

/-- The line is a time without a year, a header and a text. -/
def SaysSyslog (time : SyslogTime) (header : Header) (text line : List Char) : Prop :=
  ∃ front rest, line = front ++ rest ∧ TellsSyslog time front ∧
    Header.take? rest = some (header, text)

/-- The line is a time with a year, a header and a text. -/
def SaysClock (clock : Clock) (header : Header) (text line : List Char) : Prop :=
  ∃ front rest, line = front ++ rest ∧ TellsClock clock front ∧
    Header.take? rest = some (header, text)

theorem readBody_eq_ok_iff {rest : List Char} {body : Body} :
    readBody rest = .ok body ↔
      ∃ header text, Header.take? rest = some (header, text) ∧
        body = ⟨header, Payload.read header text⟩ := by
  constructor
  · intro h
    obtain ⟨⟨header, text⟩, hheader, h⟩ := exists_of_bind_eq_ok h
    cases h
    exact ⟨header, text, eq_some_of_require hheader, rfl⟩
  · rintro ⟨header, text, hheader, rfl⟩
    unfold readBody
    rw [hheader]
    rfl

/-- **A line without a year is read exactly if it is a time, a header and a text.** -/
theorem readSyslog_eq_ok_iff {line : List Char} {time : SyslogTime} {body : Body} :
    readSyslog line = .ok (time, body) ↔
      ∃ header text, SaysSyslog time header text line ∧
        body = ⟨header, Payload.read header text⟩ := by
  constructor
  · intro h
    obtain ⟨⟨time, rest⟩, htaken, h⟩ := exists_of_bind_eq_ok h
    obtain ⟨body, hbody, h⟩ := exists_of_bind_eq_ok h
    cases h
    obtain ⟨front, hline, hfront⟩ := takeSyslogTime_eq_ok_iff.1 htaken
    obtain ⟨header, text, hheader, hbody⟩ := readBody_eq_ok_iff.1 hbody
    exact ⟨header, text, ⟨front, rest, hline, hfront, hheader⟩, hbody⟩
  · rintro ⟨header, text, ⟨front, rest, rfl, hfront, hheader⟩, rfl⟩
    rw [readSyslog_of_tells hfront, readBody_eq_ok_iff.2 ⟨header, text, hheader, rfl⟩]
    rfl

/-- **A line with a year is read exactly if it is a time, a header and a text.** -/
theorem readClock_eq_ok_iff {line : List Char} {instant : Instant} {body : Body} :
    readClock line = .ok (instant, body) ↔
      ∃ clock header text, SaysClock clock header text line ∧ clock.instant = instant ∧
        body = ⟨header, Payload.read header text⟩ := by
  constructor
  · intro h
    obtain ⟨⟨instant, rest⟩, htaken, h⟩ := exists_of_bind_eq_ok h
    obtain ⟨body, hbody, h⟩ := exists_of_bind_eq_ok h
    cases h
    obtain ⟨clock, front, hline, hfront, hinstant⟩ := takeClockTime_eq_ok_iff.1 htaken
    obtain ⟨header, text, hheader, hbody⟩ := readBody_eq_ok_iff.1 hbody
    exact ⟨clock, header, text, ⟨front, rest, hline, hfront, hheader⟩, hinstant, hbody⟩
  · rintro ⟨clock, header, text, ⟨front, rest, rfl, hfront, hheader⟩, rfl, rfl⟩
    rw [readClock_of_tells hfront, readBody_eq_ok_iff.2 ⟨header, text, hheader, rfl⟩]
    rfl

end Line

/-! ## Lines that are accepted -/

/-- The time exists in the year that a reader takes it to. -/
def Transformer.Dates (t : Transformer) (time : SyslogTime) : Prop :=
  (time.clock (t.years.advance time.month).year).Valid

instance (t : Transformer) : DecidablePred t.Dates := fun _ => inferInstanceAs (Decidable (Clock.Valid _))

/-- The line has all that its format needs: the moment that its record is of, a header, and then a
text. What is kept of it is the line itself, or the one that it wraps. -/
inductive Transformer.Accepts (t : Transformer) (instant : Instant) (header : Header)
    (text : List Char) : List Char → List Char → Prop where
  | classic {line : List Char} {time : SyslogTime} (hformat : t.format = .classic)
      (hparts : Line.SaysSyslog time header text line) (hdates : t.Dates time)
      (hinstant : (time.clock (t.years.advance time.month).year).instant = instant) :
    t.Accepts instant header text line line
  | dated {line : List Char} {clock : Clock} (hformat : t.format = .dated)
      (hparts : Line.SaysClock clock header text line) (hinstant : clock.instant = instant) :
    t.Accepts instant header text line line
  | stamped {timestamp kept : List Char} {time : SyslogTime} (hformat : t.format = .stamped)
      (hblank : ' ' ∉ timestamp) (htimestamp : Line.readTimestamp timestamp = .ok instant)
      (hparts : Line.SaysSyslog time header text kept) :
    t.Accepts instant header text (timestamp ++ ' ' :: kept) kept
  | enveloped {line : List Char} {e : Envelope} {time : SyslogTime} (hformat : t.format = .enveloped)
      (hread : Envelope.read? line = some e)
      (htimestamp : Line.readTimestamp e.timestamp.toList = .ok instant)
      (hparts : Line.SaysSyslog time header text e.message.toList) :
    t.Accepts instant header text line e.message.toList

/-- The record is of a moment and a header. It holds the event of a text, or that the text is not
understood, and what is kept of the line, with its checksum. -/
structure Record.Keeps (instant : Instant) (header : Header) (text kept : List Char) (r : Record) :
    Prop where
  moment : r.time = instant
  writer : r.header = header
  event : ∀ p, Payload.read header text = .ok p → r.payload = p
  noEvent : ∀ fault, Payload.read header text = .error fault → r.payload = .unsupported
  whole : r.line = String.ofList kept
  sum : r.sum = Checksum.ofText (String.ofList kept)

namespace Transformer

variable {t : Transformer} {instant : Instant} {header : Header} {text line kept : List Char}

theorem transform_stamped (hformat : t.format = .stamped) {timestamp : List Char}
    (hblank : ' ' ∉ timestamp) (line : List Char) :
    (t.transform (timestamp ++ ' ' :: line)).1 =
      (wrapped timestamp line ⟨Location.unknownFile, t.count + 1⟩).mapError .line := by
  have hcut : cutAt ' ' (timestamp ++ ' ' :: line) = some (timestamp, line) :=
    cutAt_eq_some_iff.2 ⟨rfl, hblank⟩
  unfold transform stamped
  simp only [hformat, hcut]
  rfl

theorem transform_enveloped (hformat : t.format = .enveloped) {line : List Char} {e : Envelope}
    (hread : Envelope.read? line = some e) :
    (t.transform line).1 =
      (wrapped e.timestamp.toList e.message.toList
        ⟨e.file.getD Location.unknownFile, t.count + 1⟩).mapError .line := by
  unfold transform
  simp only [hformat, hread]
  rfl

theorem transform_eq_classic (hformat : t.format = .classic) (line : List Char) :
    (t.transform line).1 =
      (classic t.years line ⟨Location.unknownFile, t.count + 1⟩).1.mapError .line := by
  obtain ⟨format, count, years⟩ := t
  cases hformat
  rw [transform_classic]

theorem transform_dated (hformat : t.format = .dated) (line : List Char) :
    (t.transform line).1 = (dated line ⟨Location.unknownFile, t.count + 1⟩).mapError .line := by
  unfold transform
  simp only [hformat]
  rfl

/-- **The record of a header and a text can always be made.** -/
theorem exists_record (instant : Instant) (header : Header) (text kept : List Char)
    (location : Location) :
    ∃ r, record instant ⟨header, Payload.read header text⟩ kept location = .ok r ∧
      r.Keeps instant header text kept := by
  refine ⟨⟨instant, header, .ofText header text, String.ofList kept, location⟩, ?_, rfl, rfl,
    fun p hp => ?_, fun fault hfault => ?_, rfl, rfl⟩
  · unfold record
    rw [keep_eq_ok]
    rfl
  · show Payload.ofText header text = p
    unfold Payload.ofText
    rw [hp]
  · show Payload.ofText header text = .unsupported
    unfold Payload.ofText
    rw [hfault]

theorem exists_wrapped {timestamp : List Char} {time : SyslogTime}
    (htimestamp : Line.readTimestamp timestamp = .ok instant)
    (hparts : Line.SaysSyslog time header text kept) (location : Location) :
    ∃ r, wrapped timestamp kept location = .ok r ∧ r.Keeps instant header text kept := by
  unfold wrapped
  rw [htimestamp, Line.readSyslog_eq_ok_iff.2 ⟨header, text, hparts, rfl⟩]
  exact exists_record ..

/-- **A line that has all its format needs gives a record**, whatever its text is. -/
theorem exists_of_accepts (h : t.Accepts instant header text line kept) :
    ∃ r, (t.transform line).1 = .ok r ∧ r.Keeps instant header text kept := by
  cases h with
  | classic hformat hparts hdates hinstant =>
    have hplaced : SyslogTime.inYear? _ (t.years.advance _).year = some _ := if_pos hdates
    obtain ⟨r, hr, hkeeps⟩ := exists_record instant header text line ⟨Location.unknownFile, t.count + 1⟩
    refine ⟨r, ?_, hkeeps⟩
    rw [transform_eq_classic hformat]
    unfold classic
    rw [Line.readSyslog_eq_ok_iff.2 ⟨header, text, hparts, rfl⟩]
    simp only [YearTracker.place_of_inYear? hplaced, hinstant, hr]
    rfl
  | dated hformat hparts hinstant =>
    obtain ⟨r, hr, hkeeps⟩ := exists_record instant header text line ⟨Location.unknownFile, t.count + 1⟩
    refine ⟨r, ?_, hkeeps⟩
    rw [transform_dated hformat]
    unfold dated
    rw [Line.readClock_eq_ok_iff.2 ⟨_, header, text, hparts, hinstant, rfl⟩]
    show (record instant _ line _).mapError _ = _
    rw [hr]
    rfl
  | stamped hformat hblank htimestamp hparts =>
    obtain ⟨r, hr, hkeeps⟩ := exists_wrapped htimestamp hparts ⟨Location.unknownFile, t.count + 1⟩
    refine ⟨r, ?_, hkeeps⟩
    rw [transform_stamped hformat hblank, hr]
    rfl
  | enveloped hformat hread htimestamp hparts =>
    obtain ⟨r, hr, hkeeps⟩ := exists_wrapped htimestamp hparts ⟨_, t.count + 1⟩
    refine ⟨r, ?_, hkeeps⟩
    rw [transform_enveloped hformat hread, hr]
    rfl

/-- **Only a line that has all its format needs gives a record.** -/
theorem exists_accepts {r : Record} (h : (t.transform line).1 = .ok r) :
    ∃ instant header text kept, t.Accepts instant header text line kept := by
  cases hformat : t.format with
  | classic =>
    rw [transform_eq_classic hformat] at h
    have hclassic := exists_of_mapError_eq_ok h
    unfold classic at hclassic
    split at hclassic
    · cases hclassic
    · rename_i time body hread
      obtain ⟨header, text, hparts, -⟩ := Line.readSyslog_eq_ok_iff.1 hread
      have hdates : t.Dates time := by
        by_contra hdates
        have hplaced : time.inYear? (t.years.advance time.month).year = none := if_neg hdates
        unfold YearTracker.place at hclassic
        simp only [hplaced] at hclassic
        cases hclassic
      exact ⟨_, header, text, line, .classic hformat hparts hdates rfl⟩
  | dated =>
    rw [transform_dated hformat] at h
    obtain ⟨⟨instant, body⟩, hread, -⟩ := exists_of_bind_eq_ok (exists_of_mapError_eq_ok h)
    obtain ⟨clock, header, text, hparts, hinstant, -⟩ := Line.readClock_eq_ok_iff.1 hread
    exact ⟨instant, header, text, line, .dated hformat hparts hinstant⟩
  | stamped =>
    cases hcut : cutAt ' ' line with
    | none =>
      unfold transform stamped at h
      simp only [hformat, hcut] at h
      cases h
    | some parts =>
      obtain ⟨timestamp, rest⟩ := parts
      obtain ⟨rfl, hblank⟩ := cutAt_eq_some_iff.1 hcut
      rw [transform_stamped hformat hblank] at h
      obtain ⟨instant, time, body, htimestamp, hread, -⟩ :=
        exists_of_wrapped (exists_of_mapError_eq_ok h)
      obtain ⟨header, text, hparts, -⟩ := Line.readSyslog_eq_ok_iff.1 hread
      exact ⟨instant, header, text, rest, .stamped hformat hblank htimestamp hparts⟩
  | enveloped =>
    cases hread : Envelope.read? line with
    | none =>
      unfold transform at h
      simp only [hformat, hread] at h
      cases h
    | some e =>
      rw [transform_enveloped hformat hread] at h
      obtain ⟨instant, time, body, htimestamp, hmessage, -⟩ :=
        exists_of_wrapped (exists_of_mapError_eq_ok h)
      obtain ⟨header, text, hparts, -⟩ := Line.readSyslog_eq_ok_iff.1 hmessage
      exact ⟨instant, header, text, _, .enveloped hformat hread htimestamp hparts⟩

end Transformer

/-- What a record says besides its event and its line. -/
def Record.origin (r : Record) : Instant × Header × Location := (r.time, r.header, r.location)

/-- **No text sinks its line.** Reading the event of a text only fails in ways that can be recovered
from. So in every format and after any lines, a line is accepted exactly if a time that exists, or a
timestamp, and a header can be read before its text, and its record then holds the event of the text, or
that the text is not understood, and the line whole, with its checksum. Two lines that differ in their
text alone are accepted or refused alike, as of the same moment, header and place, and leave the reader
in the same state. And an event is only ever one of the program that the header names. -/
theorem text_never_sinks_line :
    (∀ (h : Header) (text : List Char), Recoverable (Payload.read h text)) ∧
    (∀ (t : Transformer) (line : List Char),
      ((∃ r, (t.transform line).1 = .ok r) ↔
        ∃ instant header text kept, t.Accepts instant header text line kept) ∧
      ∀ (instant : Instant) (header : Header) (text kept : List Char),
        t.Accepts instant header text line kept →
          ∃ r, (t.transform line).1 = .ok r ∧ r.Keeps instant header text kept) ∧
    (∀ (t : Transformer) (o : Opening) (text text' line line' : List Char),
      t.format.Says o text line → t.format.Says o text' line' →
        (t.transform line).1.map (·.origin) = (t.transform line').1.map (·.origin) ∧
          (t.transform line).2 = (t.transform line').2) ∧
    (∀ (t : Transformer) (line : List Char) (r : Record), (t.transform line).1 = .ok r →
      (∃ o text, t.format.Says o text line) ∧
      ∀ (o : Opening) (text : List Char), t.format.Says o text line →
        r.payload = .ofText r.header text ∧ r.line = String.ofList (o.front ++ text) ∧
          r.sum = Checksum.ofText (String.ofList (o.front ++ text))) ∧
    ∀ (h : Header) (text : List Char) (p : Payload), Payload.read h text = .ok p →
      ∃ agent, p.agent? = some agent ∧ agent.Wrote h := by
  refine ⟨Payload.recoverable_read,
    fun t line => ⟨⟨?_, ?_⟩, fun _ _ _ _ => Transformer.exists_of_accepts⟩, ?_, ?_,
    fun h text p => Payload.wrote_of_read⟩
  · rintro ⟨r, hr⟩
    exact Transformer.exists_accepts hr
  · rintro ⟨instant, header, text, kept, haccepts⟩
    obtain ⟨r, hr, -⟩ := Transformer.exists_of_accepts haccepts
    exact ⟨r, hr⟩
  · intro t o text text' line line' hsays hsays'
    rw [t.transform_of_says hsays, t.transform_of_says hsays']
    refine ⟨?_, rfl⟩
    cases (t.opening o).1 <;> rfl
  · intro t line r hr
    refine ⟨Transformer.exists_says hr, fun o text hsays => ?_⟩
    rw [t.transform_of_says hsays] at hr
    cases hopening : (t.opening o).1 with
    | error f =>
      rw [hopening] at hr
      cases hr
    | ok opened =>
      rw [hopening] at hr
      cases hr
      exact ⟨rfl, rfl, rfl⟩

/-- A text that is cut short leaves its line where a whole text leaves it, and gives a record without an
event. -/
theorem text_never_sinks_line_cutShort :
    let front := "May  5 10:20:30 mail postfix/smtp[7]: ".toList
    let t : Transformer := ⟨.classic, 0, .start 2020 2021⟩
    (t.transform (front ++ "0A1B2C: to=<a@b".toList)).1.map (·.origin) =
        (t.transform (front ++ "0A1B2C: to=<a@b.c>, relay=none".toList)).1.map (·.origin) ∧
      (t.transform (front ++ "0A1B2C: to=<a@b".toList)).2 =
        (t.transform (front ++ "0A1B2C: to=<a@b.c>, relay=none".toList)).2 ∧
      ∃ r, (t.transform (front ++ "0A1B2C: to=<a@b".toList)).1 = .ok r ∧
        r.time = .ofDate ⟨2020, .may, 5⟩ 37230 ∧ r.header = ⟨"mail", "postfix", "smtp", some 7, none⟩ ∧
        r.payload = .unsupported ∧
        r.line = "May  5 10:20:30 mail postfix/smtp[7]: 0A1B2C: to=<a@b" ∧
        r.sum = Checksum.ofText "May  5 10:20:30 mail postfix/smtp[7]: 0A1B2C: to=<a@b" := by
  have hheader (text : List Char) : Header.Ends text "mail postfix/smtp[7]: ".toList :=
    ⟨"mail".toList, "postfix/smtp[7]".toList, [' '], rfl, by decide, by decide, .inl rfl⟩
  have hfront (text : List Char) :
      Line.EndsSyslog text "May  5 10:20:30 mail postfix/smtp[7]: ".toList :=
    ⟨[], "May  5 10:20:30 ".toList, "mail postfix/smtp[7]: ".toList, rfl, fun _ hc => (nomatch hc),
      by decide, by decide, hheader text⟩
  obtain ⟨-, haccepted, halike, -⟩ := text_never_sinks_line
  obtain ⟨horigin, hnext⟩ := halike ⟨.classic, 0, .start 2020 2021⟩
    ⟨[], none, "May  5 10:20:30 mail postfix/smtp[7]: ".toList⟩ _ _ _ _
    (.classic (hfront "0A1B2C: to=<a@b".toList))
    (.classic (hfront "0A1B2C: to=<a@b.c>, relay=none".toList))
  have hparts : Line.SaysSyslog ⟨.may, 5, 10, 20, 30⟩ ⟨"mail", "postfix", "smtp", some 7, none⟩
      "0A1B2C: to=<a@b".toList
      ("May  5 10:20:30 mail postfix/smtp[7]: ".toList ++ "0A1B2C: to=<a@b".toList) :=
    ⟨"May  5 10:20:30 ".toList, "mail postfix/smtp[7]: 0A1B2C: to=<a@b".toList, rfl,
      ⟨[], "May  5 10:20:30".toList, rfl, fun _ hc => (nomatch hc), by decide⟩, by decide⟩
  obtain ⟨r, hr, hkeeps⟩ := (haccepted ⟨.classic, 0, .start 2020 2021⟩ _).2 _ _ _ _
    (.classic rfl hparts (by decide) rfl)
  exact ⟨horigin, hnext, r, hr, hkeeps.moment, hkeeps.writer, hkeeps.noEvent _ rfl, hkeeps.whole,
    hkeeps.sum⟩

end MailTrace
