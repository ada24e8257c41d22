import MailTrace.Proofs.Line.Headers
import MailTrace.Proofs.Line.Origins

/-!
# Lines and their texts

A line is accepted or refused for what stands before its text, and the text decides nothing but the
event of the record.

1. What stands before a text ends a header (`Header.Ends`). The header is read from it alone, and the
   rest is the text (`Header.take?_append`).
2. So a line is read as what stands before its text, with another event (`readSyslog_append`,
   `readClock_append`), and the event never spoils the record (`record_telling`).
3. In every format a line is what stands around its text (`Format.Says`), and the reader does with it
   what it does with a line of no text (`transform_of_says`). Every accepted line is of this kind
   (`exists_says`), and its record is made of the part of it that the format keeps
   (`exists_record_of_transform`).
-/

namespace MailTrace

open MailTrace.Text MailTrace.Time

/-! ## Headers -/

/-- A header ends here: a host, a tag and a colon. A blank parts it from the text, unless there is
no text at all. -/
def Header.Ends (text front : List Char) : Prop :=
  ∃ host tag gap, front = host ++ ' ' :: (tag ++ ':' :: gap) ∧ ' ' ∉ host ∧ ':' ∉ tag ∧
    (gap = [' '] ∨ gap = [] ∧ text = [])

/-- A header is read from what stands before the text. -/
theorem Header.take?_append {text front : List Char} (h : Header.Ends text front) :
    take? (front ++ text) = (take? front).map fun (header, _) => (header, text) := by
  obtain ⟨host, tag, gap, rfl, hhost, htag, hgap⟩ := h
  have hnone : textAfterColon? gap = some [] := by
    rcases hgap with rfl | ⟨rfl, -⟩ <;> rfl
  have htext : textAfterColon? (gap ++ text) = some text := by
    rcases hgap with rfl | ⟨rfl, rfl⟩ <;> rfl
  rw [List.append_assoc, List.cons_append, List.append_assoc, List.cons_append,
    take?_of_parts hhost htag htext, take?_of_parts hhost htag hnone, Option.map_map]
  rfl

/-- A text with a header is what ends the header, and the text after it. -/
theorem Header.exists_ends {cs text : List Char} {h : Header} (htake : take? cs = some (h, text)) :
    ∃ front, cs = front ++ text ∧ Header.Ends text front := by
  simp only [take?, Option.bind_eq_bind, Option.bind_eq_some_iff, Prod.exists] at htake
  obtain ⟨host, rest, hhost, htake⟩ := htake
  split at htake
  · cases htake
  simp only [Option.bind_eq_some_iff, Prod.exists] at htake
  obtain ⟨tag, after, htag, text', htext, _, _, hpair⟩ := htake
  obtain ⟨rfl, hblank⟩ := cutAt_eq_some_iff.1 hhost
  obtain ⟨rfl, hcolon⟩ := cutAt_eq_some_iff.1 htag
  cases hpair
  unfold textAfterColon? at htext
  split at htext
  · cases htext
    exact ⟨host ++ ' ' :: (tag ++ [':']), by simp, host, tag, [], rfl, hblank, hcolon,
      .inr ⟨rfl, rfl⟩⟩
  · cases htext
    exact ⟨host ++ ' ' :: (tag ++ [':', ' ']), by simp, host, tag, [' '], rfl, hblank, hcolon, .inl rfl⟩
  · cases htext

/-! ## Lines -/

namespace Line

/-- The same header over another text. -/
def Body.telling (text : List Char) (body : Body) : Body :=
  { body with payload := Payload.read body.header text }

theorem readBody_append {text front : List Char} (h : Header.Ends text front) :
    readBody (front ++ text) = (readBody front).map (·.telling text) := by
  unfold readBody
  rw [Header.take?_append h]
  cases Header.take? front <;> rfl

/-- What stands before the text of a line with a time without a year. -/
def EndsSyslog (text front : List Char) : Prop :=
  ∃ zeros time header, front = zeros ++ (time ++ header) ∧ (∀ c ∈ zeros, c = '\x00') ∧
    time.head? ≠ some '\x00' ∧ Utf8.size time = SyslogTime.width ∧ Header.Ends text header

/-- What stands before the text of a line with a time with a year. -/
def EndsClock (text front : List Char) : Prop :=
  ∃ time header, front = time ++ ' ' :: header ∧ ' ' ∉ time ∧ Header.Ends text header

theorem readSyslog_append {text front : List Char} (h : EndsSyslog text front) :
    readSyslog (front ++ text) =
      (readSyslog front).map fun (time, body) => (time, body.telling text) := by
  obtain ⟨zeros, time, header, rfl, hzeros, hhead, hsize, hheader⟩ := h
  unfold readSyslog
  rw [List.append_assoc, List.append_assoc, takeSyslogTime_append hzeros hhead hsize,
    takeSyslogTime_append hzeros hhead hsize]
  cases require LineFault.header (before? [' '] time) with
  | error f => rfl
  | ok written =>
    cases hread : require (.time (String.ofList written)) (SyslogTime.read? written) with
    | error f => simp only [bind, Except.bind, hread, Except.map]
    | ok t =>
      simp only [bind, Except.bind, pure, Except.pure, hread, readBody_append hheader]
      cases readBody header <;> rfl

theorem readClock_append {text front : List Char} (h : EndsClock text front) :
    readClock (front ++ text) =
      (readClock front).map fun (time, body) => (time, body.telling text) := by
  obtain ⟨time, header, rfl, htime, hheader⟩ := h
  have hbody := readBody_append hheader
  have hcut (rest : List Char) : cutAt ' ' (time ++ ' ' :: rest) = some (time, rest) :=
    cutAt_eq_some_iff.2 ⟨rfl, htime⟩
  unfold readClock takeClockTime
  rw [List.append_assoc, List.cons_append, hcut, hcut]
  simp only [require_some, bind, Except.bind]
  cases require (LineFault.time (String.ofList time)) (Utf8.cut clockWidth time) with
  | error f => rfl
  | ok parts =>
    dsimp only
    cases require LineFault.impossibleTime (Clock.read? parts.1) with
    | error f => rfl
    | ok c =>
      simp only [hbody, pure, Except.pure]
      cases readBody header <;> rfl

theorem recoverable_of_readClock {line : List Char} {read : Instant × Body}
    (h : readClock line = .ok read) : Recoverable read.2.payload := by
  obtain ⟨taken, -, h⟩ := exists_of_bind_eq_ok h
  obtain ⟨body, hbody, h⟩ := exists_of_bind_eq_ok h
  cases h
  exact recoverable_of_readBody hbody

theorem exists_ends_of_readBody {cs : List Char} {body : Body} (h : readBody cs = .ok body) :
    ∃ front text, cs = front ++ text ∧ Header.Ends text front := by
  obtain ⟨⟨header, text⟩, hheader, -⟩ := exists_of_bind_eq_ok h
  obtain ⟨front, hcs, hends⟩ := Header.exists_ends (eq_some_of_require hheader)
  exact ⟨front, text, hcs, hends⟩

theorem exists_endsSyslog {line : List Char} {read : SyslogTime × Body}
    (h : readSyslog line = .ok read) : ∃ front text, line = front ++ text ∧ EndsSyslog text front := by
  obtain ⟨⟨time, rest⟩, htaken, h⟩ := exists_of_bind_eq_ok h
  obtain ⟨body, hbody, -⟩ := exists_of_bind_eq_ok h
  obtain ⟨front, rfl, zeros, written, rfl, hzeros, hread⟩ := takeSyslogTime_eq_ok_iff.1 htaken
  obtain ⟨hhead, hsize⟩ := written_of_read? hread
  obtain ⟨header, text, rfl, hends⟩ := exists_ends_of_readBody hbody
  exact ⟨zeros ++ (written ++ [' '] ++ header), text, by simp, zeros, written ++ [' '], header, rfl,
    hzeros, hhead, hsize, hends⟩

theorem exists_endsClock {line : List Char} {read : Instant × Body}
    (h : readClock line = .ok read) : ∃ front text, line = front ++ text ∧ EndsClock text front := by
  obtain ⟨⟨instant, rest⟩, htaken, h⟩ := exists_of_bind_eq_ok h
  obtain ⟨body, hbody, -⟩ := exists_of_bind_eq_ok h
  obtain ⟨clock, front, rfl, ⟨written, more, rfl, hblank, -, -⟩, -⟩ := takeClockTime_eq_ok_iff.1 htaken
  obtain ⟨header, text, rfl, hends⟩ := exists_ends_of_readBody hbody
  exact ⟨(written ++ more) ++ ' ' :: header, text, by simp, written ++ more, header, rfl, hblank, hends⟩

end Line

/-! ## Formats -/

/-- What stands around the text of a line: what dates it from outside, the file it is said to be from,
and the line up to its text. -/
structure Opening where
  timestamp : List Char
  file : Option String
  front : List Char
deriving DecidableEq, Repr

/-- A line in a format that gives a text in an opening. -/
inductive Format.Says (o : Opening) (text : List Char) : Format → List Char → Prop where
  | classic (hfront : Line.EndsSyslog text o.front) : Says o text .classic (o.front ++ text)
  | dated (hfront : Line.EndsClock text o.front) : Says o text .dated (o.front ++ text)
  | stamped (hstamp : ' ' ∉ o.timestamp) (hfront : Line.EndsSyslog text o.front) :
    Says o text .stamped (o.timestamp ++ ' ' :: (o.front ++ text))
  | enveloped {line : List Char}
    (hread : Envelope.read? line =
      some ⟨String.ofList o.timestamp, o.file, String.ofList (o.front ++ text)⟩)
    (hfront : Line.EndsSyslog text o.front) : Says o text .enveloped line

/-- The part of a line that its record stores: the line, what follows its first blank, or the message
of its envelope. -/
def Format.kept? (f : Format) (line : List Char) : Option (List Char) :=
  match f with
  | .classic | .dated => some line
  | .stamped => (cutAt ' ' line).map (·.2)
  | .enveloped => (Envelope.read? line).map (·.message.toList)

/-- What a text under a header tells of, or that it is not understood. -/
def Payload.ofText (h : Header) (text : List Char) : Payload :=
  match Payload.read h text with
  | .ok p => p
  | .error _ => .unsupported

/-- The record of a line that says something else under the same header. -/
def Record.telling (text line : List Char) (r : Record) : Record :=
  { r with payload := .ofText r.header text, line := String.ofList line }

namespace Transformer

theorem keep_eq_ok {h : Header} {text : List Char} :
    keep (Payload.read h text) = .ok (.ofText h text) := by
  unfold Payload.ofText
  cases hread : Payload.read h text with
  | ok p => rfl
  | error f => exact if_pos ((Payload.recoverable_read h text).fault f hread)

/-- The text decides nothing but the event. -/
theorem record_telling {body : Line.Body} (h : Recoverable body.payload) (time : Instant)
    (text line line' : List Char) (location : Location) :
    record time (body.telling text) line location =
      (record time body line' location).map (·.telling text line) := by
  obtain ⟨p, hkeep⟩ := keep_of_recoverable h
  have htold : keep (body.telling text).payload = .ok (.ofText body.header text) := keep_eq_ok
  unfold record
  rw [htold, hkeep]
  rfl

variable {text front : List Char}

theorem classic_append (h : Line.EndsSyslog text front) (y : YearTracker) (location : Location) :
    classic y (front ++ text) location =
      ((classic y front location).1.map (·.telling text (front ++ text)),
        (classic y front location).2) := by
  unfold classic
  rw [Line.readSyslog_append h]
  cases hread : Line.readSyslog front with
  | error f => rfl
  | ok told =>
    obtain ⟨time, body⟩ := told
    simp only [Except.map]
    split
    · rfl
    · rw [record_telling (recoverable_of_readSyslog hread) _ text (front ++ text) front]
      rfl

theorem wrapped_append (h : Line.EndsSyslog text front) (timestamp : List Char)
    (location : Location) :
    wrapped timestamp (front ++ text) location =
      (wrapped timestamp front location).map (·.telling text (front ++ text)) := by
  unfold wrapped
  cases Line.readTimestamp timestamp with
  | error f => rfl
  | ok time =>
    rw [Line.readSyslog_append h]
    cases hread : Line.readSyslog front with
    | error f => rfl
    | ok told => exact record_telling (recoverable_of_readSyslog hread) ..

theorem dated_append (h : Line.EndsClock text front) (location : Location) :
    dated (front ++ text) location =
      (dated front location).map (·.telling text (front ++ text)) := by
  unfold dated
  rw [Line.readClock_append h]
  cases hread : Line.readClock front with
  | error f => rfl
  | ok told => exact record_telling (Line.recoverable_of_readClock hread) ..

/-- What the reader does with what stands around a text. -/
def opening (t : Transformer) (o : Opening) : Except FormatFault Record × Transformer :=
  let next := t.advance
  let location : Location := ⟨Location.unknownFile, next.count⟩
  match t.format with
  | .classic | .dated => t.transform o.front
  | .stamped => ((wrapped o.timestamp o.front location).mapError .line, next)
  | .enveloped =>
    let location := { location with file := o.file.getD Location.unknownFile }
    ((wrapped o.timestamp o.front location).mapError .line, next)

theorem map_mapError {α β : Type} (x : Except LineFault α) (g : α → β) :
    (x.map g).mapError FormatFault.line = (x.mapError .line).map g := by
  cases x <;> rfl

/-- **Reading a line is reading what stands around its text.** -/
theorem transform_of_says (t : Transformer) {o : Opening} {line : List Char}
    (h : t.format.Says o text line) :
    t.transform line =
      ((t.opening o).1.map (·.telling text (o.front ++ text)), (t.opening o).2) := by
  obtain ⟨format, count, years⟩ := t
  cases h with
  | classic hfront =>
    show transform ⟨.classic, count, years⟩ _ = _
    unfold opening
    rw [transform_classic, transform_classic, classic_append hfront, map_mapError]
  | dated hfront =>
    unfold opening transform
    dsimp only
    rw [dated_append hfront, map_mapError]
  | stamped hstamp hfront =>
    have hcut : cutAt ' ' (o.timestamp ++ ' ' :: (o.front ++ text)) =
        some (o.timestamp, o.front ++ text) := cutAt_eq_some_iff.2 ⟨rfl, hstamp⟩
    unfold opening transform stamped
    simp only [hcut, wrapped_append hfront, map_mapError]
  | enveloped hread hfront =>
    unfold opening transform
    simp only [hread, String.toList_ofList, wrapped_append hfront, map_mapError]

theorem exists_of_mapError_eq_ok {α : Type} {x : Except LineFault α} {a : α}
    (h : x.mapError FormatFault.line = .ok a) : x = .ok a := by
  cases x with
  | error f => cases h
  | ok b => exact congrArg Except.ok (Except.ok.inj h)

/-- Of a wrapped line that is accepted the timestamp and the line can be read. -/
theorem exists_of_wrapped {timestamp line : List Char} {location : Location} {r : Record}
    (h : wrapped timestamp line location = .ok r) :
    ∃ instant time body, Line.readTimestamp timestamp = .ok instant ∧
      Line.readSyslog line = .ok (time, body) ∧ record instant body line location = .ok r := by
  obtain ⟨instant, htimestamp, h⟩ := exists_of_bind_eq_ok h
  obtain ⟨⟨time, body⟩, hread, h⟩ := exists_of_bind_eq_ok h
  exact ⟨instant, time, body, htimestamp, hread, h⟩

/-- **A record is made of what its format keeps of the line, with the next number.** -/
theorem exists_record_of_transform {t : Transformer} {line : List Char} {r : Record}
    (h : (t.transform line).1 = .ok r) :
    ∃ time body kept file, t.format.kept? line = some kept ∧
      record time body kept ⟨file, t.count + 1⟩ = .ok r := by
  obtain ⟨format, count, years⟩ := t
  cases format with
  | classic =>
    have hclassic := exists_of_mapError_eq_ok h
    split at hclassic
    · cases hclassic
    · split at hclassic
      · cases hclassic
      · exact ⟨_, _, line, _, rfl, hclassic⟩
  | dated =>
    obtain ⟨told, -, hrecord⟩ := exists_of_bind_eq_ok (exists_of_mapError_eq_ok h)
    exact ⟨told.1, told.2, line, _, rfl, hrecord⟩
  | stamped =>
    unfold transform stamped at h
    dsimp only at h
    split at h
    · cases h
    · rename_i timestamp rest hcut
      obtain ⟨instant, _, body, -, -, hrecord⟩ := exists_of_wrapped (exists_of_mapError_eq_ok h)
      exact ⟨instant, body, rest, _, Option.map_eq_some_iff.2 ⟨_, hcut, rfl⟩, hrecord⟩
  | enveloped =>
    unfold transform at h
    dsimp only at h
    split at h
    · cases h
    · rename_i e hread
      obtain ⟨instant, _, body, -, -, hrecord⟩ := exists_of_wrapped (exists_of_mapError_eq_ok h)
      exact ⟨instant, body, e.message.toList, _, Option.map_eq_some_iff.2 ⟨e, hread, rfl⟩, hrecord⟩

theorem record_eq_ok {time : Instant} {body : Line.Body} {line : List Char} {location : Location}
    {r : Record} (h : record time body line location = .ok r) :
    r.line = String.ofList line ∧ r.location = location := by
  obtain ⟨payload, -, h⟩ := exists_of_bind_eq_ok h
  cases h
  exact ⟨rfl, rfl⟩

/-- Every accepted line says a text. -/
theorem exists_says {t : Transformer} {line : List Char} {r : Record}
    (h : (t.transform line).1 = .ok r) : ∃ o text, t.format.Says o text line := by
  obtain ⟨format, count, years⟩ := t
  cases format with
  | classic =>
    have hclassic := exists_of_mapError_eq_ok h
    split at hclassic
    · cases hclassic
    · rename_i hread
      obtain ⟨front, text, rfl, hfront⟩ := Line.exists_endsSyslog hread
      exact ⟨⟨[], none, front⟩, text, .classic hfront⟩
  | dated =>
    obtain ⟨told, hread, -⟩ := exists_of_bind_eq_ok (exists_of_mapError_eq_ok h)
    obtain ⟨front, text, rfl, hfront⟩ := Line.exists_endsClock hread
    exact ⟨⟨[], none, front⟩, text, .dated hfront⟩
  | stamped =>
    unfold transform stamped at h
    dsimp only at h
    split at h
    · cases h
    · rename_i timestamp rest hcut
      obtain ⟨rfl, hstamp⟩ := cutAt_eq_some_iff.1 hcut
      obtain ⟨_, _, _, -, hline, -⟩ := exists_of_wrapped (exists_of_mapError_eq_ok h)
      obtain ⟨front, text, rfl, hfront⟩ := Line.exists_endsSyslog hline
      exact ⟨⟨timestamp, none, front⟩, text, .stamped hstamp hfront⟩
  | enveloped =>
    unfold transform at h
    dsimp only at h
    split at h
    · cases h
    · rename_i e hread
      obtain ⟨_, _, _, -, hline, -⟩ := exists_of_wrapped (exists_of_mapError_eq_ok h)
      obtain ⟨front, text, hmessage, hfront⟩ := Line.exists_endsSyslog hline
      refine ⟨⟨e.timestamp.toList, e.file, front⟩, text, .enveloped ?_ hfront⟩
      rw [hread, ← hmessage, String.ofList_toList, String.ofList_toList]

end Transformer

end MailTrace
