import Mathlib.Data.List.Induction
import MailTrace.Payload.Relayed
import MailTrace.Proofs.Line.Fields

/-!
# Reports of bounces, written

A report is written field by field, each value in quotes, in angle brackets or bare, and reading gives
back the last value of every key that is known.

1. A value ends where it was written to end: whatever stands in quotes, with its quotes and backslashes
   escaped, closes nothing (`untilQuote_escape`, `value_write`).
2. So the fields are regained one by one (`fields_write`).
3. Only the last value of a key counts (`foldl_set`), so the order of fields with different keys says
   nothing (`latest_eq_of_perm`).
-/

namespace MailTrace

open MailTrace.Net MailTrace.Text MailTrace.Field

namespace RelayedBounce

/-! ## Values -/

/-- A text with a backslash before each of its double quotes and backslashes. -/
def escape (text : List Char) : List Char :=
  text.flatMap fun c => if c = '"' ∨ c = '\\' then ['\\', c] else [c]

/-- A value in one of the forms that it is written in. -/
inductive WrittenValue where
  /-- Any text, in double quotes. -/
  | quoted (text : List Char)
  /-- An address, in angle brackets. -/
  | angled (inner : List Char)
  /-- A text as it is. -/
  | bare (text : List Char)
deriving DecidableEq, Repr

namespace WrittenValue

/-- What a value says. -/
def content : WrittenValue → List Char
  | quoted text | angled text | bare text => text

/-- A value as it stands in a line. -/
def write : WrittenValue → List Char
  | quoted text => '"' :: (escape text ++ ['"'])
  | angled inner => '<' :: (inner ++ ['>'])
  | bare text => text

/-- A value can be told from what is written of it. -/
def Writable : WrittenValue → Prop
  | quoted _ => True
  | angled inner => '"' ∉ inner ∧ '>' ∉ inner
  | bare text => ',' ∉ text ∧ text.head? ≠ some '"' ∧ text.head? ≠ some '<'

instance : DecidablePred Writable := fun v => by cases v <;> unfold Writable <;> infer_instance

end WrittenValue

theorem untilQuote_escape (text : List Char) {rest : List Char} (h : endsValue rest = true) :
    untilQuote (escape text ++ '"' :: rest) = some (text, rest) := by
  induction text with
  | nil => simp [escape, untilQuote, h]
  | cons c text ih =>
    have hcons : escape (c :: text) =
        (if c = '"' ∨ c = '\\' then ['\\', c] else [c]) ++ escape text := List.flatMap_cons
    rw [hcons]
    by_cases hc : c = '"' ∨ c = '\\'
    · rw [if_pos hc]
      simp [untilQuote, ih]
    · rw [if_neg hc]
      obtain ⟨hquote, hslash⟩ := not_or.1 hc
      simp [untilQuote, ih, hquote, hslash]

/-- A value ends where it was written to end, at the end of the text or before a comma. -/
theorem value_write {v : WrittenValue} (hv : v.Writable) {rest : List Char}
    (h : endsValue rest = true) : value (v.write ++ rest) = .ok (v.content, rest) := by
  cases v with
  | quoted text =>
    have hquote : quoted? ('"' :: (escape text ++ '"' :: rest)) = some (text, rest) :=
      untilQuote_escape text h
    simp only [WrittenValue.write, WrittenValue.content, List.cons_append, List.append_assoc,
      List.nil_append]
    show need .unterminatedQuote (quoted? ('"' :: (escape text ++ '"' :: rest))) = _
    rw [hquote]
    rfl
  | angled inner =>
    have hinner : ∀ c ∈ inner, c ≠ '"' ∧ (false = false → c ≠ '>') :=
      fun c hc => ⟨fun e => hv.1 (e ▸ hc), fun _ e => hv.2 (e ▸ hc)⟩
    have hangle : angle? ('<' :: (inner ++ '>' :: rest)) = some (inner, rest) := by
      show untilAngle false (inner ++ '>' :: rest) = _
      rw [untilAngle_append hinner]
      simp [untilAngle]
    simp only [WrittenValue.write, WrittenValue.content, List.cons_append, List.append_assoc,
      List.nil_append]
    show need .unterminatedAddress (angle? ('<' :: (inner ++ '>' :: rest))) = _
    rw [hangle]
    rfl
  | bare text =>
    obtain ⟨hcomma, hquote, hangle⟩ := hv
    have hplain : ∀ c ∈ text, (decide (c ≠ ',')) = true :=
      fun c hc => decide_eq_true fun e => hcomma (e ▸ hc)
    have htake : (text ++ rest).takeWhile (· ≠ ',') = text ∧
        (text ++ rest).dropWhile (· ≠ ',') = rest := by
      rw [List.takeWhile_append_of_pos hplain, List.dropWhile_append_of_pos hplain]
      cases rest with
      | nil => simp
      | cons c rest =>
        rw [beq_iff_eq.1 h]
        simp
    have hhead (c : Char) (hc : (text ++ rest).head? = some c) : c ≠ '"' ∧ c ≠ '<' := by
      cases text with
      | nil =>
        cases rest with
        | nil => cases hc
        | cons d rest =>
          cases hc
          rw [beq_iff_eq.1 h]
          decide
      | cons d text =>
        cases hc
        exact ⟨fun e => hquote (congrArg some e), fun e => hangle (congrArg some e)⟩
    show value (text ++ rest) = .ok (text, rest)
    unfold value
    split
    · rename_i heq
      exact absurd rfl (hhead '"' (by rw [heq]; rfl)).1
    · rename_i heq
      exact absurd rfl (hhead '<' (by rw [heq]; rfl)).2
    · rw [htake.1, htake.2]

/-! ## Fields -/

/-- A key with its value. -/
structure WrittenField where
  key : List Char
  value : WrittenValue
deriving DecidableEq, Repr

namespace WrittenField

/-- A field as it stands in a line. -/
def write (f : WrittenField) : List Char := f.key ++ '=' :: f.value.write

/-- A field can be told from what is written of it. -/
structure Writable (f : WrittenField) : Prop where
  key_equals : '=' ∉ f.key
  key_blank : ∀ c ∈ f.key.head?, isBlank c = false
  value : f.value.Writable

theorem write_ne_nil (f : WrittenField) : f.write ≠ [] := by simp [write]

theorem trimStart_write {f : WrittenField} (h : f.Writable) (rest : List Char) :
    trimStart (f.write ++ rest) = f.write ++ rest := by
  unfold write
  cases hkey : f.key with
  | nil => rfl
  | cons c key => exact trimStart_eq_self_of_head (h.key_blank c (by rw [hkey]; rfl))

end WrittenField

/-- Fields with a comma and a blank between them. -/
def writeFields (fs : List WrittenField) : List Char := IPAddress.join ", ".toList (fs.map (·.write))

theorem writeFields_singleton (f : WrittenField) : writeFields [f] = f.write := rfl

theorem writeFields_cons_cons (f g : WrittenField) (fs : List WrittenField) :
    writeFields (f :: g :: fs) = f.write ++ (", ".toList ++ writeFields (g :: fs)) :=
  List.append_assoc ..

theorem trimStart_writeFields {f : WrittenField} (h : f.Writable) (fs : List WrittenField) :
    trimStart (writeFields (f :: fs)) = writeFields (f :: fs) := by
  cases fs with
  | nil => simpa [writeFields_singleton] using f.trimStart_write h []
  | cons g fs =>
    rw [writeFields_cons_cons]
    exact f.trimStart_write h _

theorem field_write {f : WrittenField} (hf : f.Writable) {rest after : List Char}
    (h : endsValue rest = true) (hnext : next rest = .ok after) :
    field (f.write ++ rest) = .ok ((f.key, f.value.content), after) := by
  have hcut : cutAt '=' (f.write ++ rest) = some (f.key, f.value.write ++ rest) :=
    cutAt_eq_some_iff.2 ⟨by simp [WrittenField.write], hf.key_equals⟩
  unfold field
  simp only [need, hcut, require_some, bind, Except.bind, value_write hf.value h, hnext]
  rfl

theorem fields_eq_cons {cs rest : List Char} {kv : List Char × List Char} (hne : cs ≠ [])
    (h : field cs = .ok (kv, rest)) : fields cs = (fields rest).map (kv :: ·) := by
  rw [fields]
  have hempty : cs.isEmpty = false := by simpa using hne
  rw [hempty]
  simp only [Bool.false_eq_true, if_false]
  split
  · rename_i hfield
    rw [h] at hfield
    cases hfield
  · rename_i hfield
    rw [h] at hfield
    cases hfield
    rfl

/-- The fields are regained, each with what its value says. -/
theorem fields_write {fs : List WrittenField} (h : ∀ f ∈ fs, f.Writable) :
    fields (writeFields fs) = .ok (fs.map fun f => (f.key, f.value.content)) := by
  induction fs with
  | nil => rw [writeFields, List.map_nil, IPAddress.join, fields]; rfl
  | cons f fs ih =>
    obtain ⟨hf, hfs⟩ := List.forall_mem_cons.1 h
    cases fs with
    | nil =>
      have hend : endsValue [] = true := rfl
      have hfield : field f.write = .ok ((f.key, f.value.content), []) := by
        simpa using field_write hf hend rfl
      rw [writeFields_singleton, fields_eq_cons f.write_ne_nil hfield, fields]
      rfl
    | cons g fs =>
      have hnext : next (", ".toList ++ writeFields (g :: fs)) = .ok (writeFields (g :: fs)) :=
        congrArg Except.ok (trimStart_writeFields (hfs g List.mem_cons_self) fs)
      have hne : writeFields (f :: g :: fs) ≠ [] := by
        rw [writeFields_cons_cons]
        exact List.append_ne_nil_of_left_ne_nil f.write_ne_nil _
      have hfield : field (writeFields (f :: g :: fs)) =
          .ok ((f.key, f.value.content), writeFields (g :: fs)) := by
        rw [writeFields_cons_cons]
        exact field_write hf rfl hnext
      rw [fields_eq_cons hne hfield, ih hfs]
      rfl

/-- The loop over the fields ends on every text, since each round leaves a shorter one. -/
theorem wellFounded_field :
    WellFounded fun rest cs : List Char => ∃ kv, field cs = .ok (kv, rest) :=
  Subrelation.wf (fun ⟨_, h⟩ => length_field h) (measure List.length).wf

/-! ## What a report carries -/

/-- The last value of a key, or nothing. -/
def latest (fs : List WrittenField) (key : String) : List Char :=
  ((fs.filter fun f => f.key = key.toList).getLast?.map (·.value.content)).getD []

/-- The report that fields make: the last value of each known key. -/
def ofFields (origin : Option String) (fs : List WrittenField) : RelayedBounce where
  queue := origin
  dsn := String.ofList (latest fs "code")
  sender := Address.ofChars (latest fs "sender")
  recipient := Address.ofChars (latest fs "recipient")
  reportingMta := String.ofList (latest fs "mta")
  message := String.ofList (latest fs "message")

theorem latest_concat (fs : List WrittenField) (f : WrittenField) (key : String) :
    latest (fs ++ [f]) key = if f.key = key.toList then f.value.content else latest fs key := by
  unfold latest
  rw [List.filter_append, List.filter_cons, List.filter_nil]
  by_cases hkey : f.key = key.toList
  · simp [hkey]
  · simp [hkey]

/-- One more field changes what its key says, and nothing if its key is unknown. -/
theorem set_ofFields (origin : Option String) (fs : List WrittenField) (f : WrittenField) :
    (ofFields origin fs).set (f.key, f.value.content) = ofFields origin (fs ++ [f]) := by
  have hkey (key : String) : f.key = key.toList ↔ String.ofList f.key = key := by
    rw [← String.toList_inj, String.toList_ofList]
  unfold set ofFields
  simp only [latest_concat, hkey]
  split <;> simp_all

theorem foldl_set (origin : Option String) (fs : List WrittenField) :
    (fs.map fun f => (f.key, f.value.content)).foldl set (blank origin) = ofFields origin fs := by
  induction fs using List.reverseRecOn with
  | nil => rfl
  | append_singleton fs f ih =>
    rw [List.map_append, List.foldl_append, ih]
    exact set_ofFields origin fs f

/-- Of fields with different keys at most one has a given key, wherever it stands. -/
theorem latest_eq_of_perm {fs gs : List WrittenField} (hperm : fs.Perm gs)
    (hnodup : (fs.map (·.key)).Nodup) (key : String) : latest gs key = latest fs key := by
  have hshort : (fs.filter fun f => f.key = key.toList).length ≤ 1 := by
    have hkeys : ((fs.filter fun f => f.key = key.toList).map (·.key)).Nodup :=
      hnodup.sublist (List.filter_sublist.map _)
    have hsame : (fs.filter fun f => f.key = key.toList).map (·.key) =
        List.replicate (fs.filter fun f => f.key = key.toList).length key.toList := by
      refine List.eq_replicate_iff.2 ⟨List.length_map _, fun k hk => ?_⟩
      obtain ⟨f, hf, rfl⟩ := List.mem_map.1 hk
      exact of_decide_eq_true (List.mem_filter.1 hf).2
    rw [hsame] at hkeys
    exact List.nodup_replicate.1 hkeys
  have hfilter := hperm.filter fun f => f.key = key.toList
  have heq : (gs.filter fun f => f.key = key.toList) = fs.filter fun f => f.key = key.toList := by
    cases hfs : fs.filter fun f => f.key = key.toList with
    | nil =>
      rw [hfs] at hfilter
      exact hfilter.nil_eq.symm
    | cons f rest =>
      rw [hfs] at hshort hfilter
      obtain rfl : rest = [] := List.eq_nil_of_length_eq_zero (by simpa using hshort)
      exact List.perm_singleton.1 hfilter.symm
  unfold latest
  rw [heq]

/-- A message is said last. -/
theorem ofFields_message (origin : Option String) (fs : List WrittenField) (text : List Char) :
    ofFields origin (fs ++ [⟨"message".toList, .quoted text⟩]) =
      { ofFields origin fs with message := String.ofList text } := by
  rw [← set_ofFields]
  rfl

theorem message_writable (text : List Char) :
    WrittenField.Writable ⟨"message".toList, .quoted text⟩ where
  key_equals := show '=' ∉ "message".toList by decide
  key_blank := by
    rintro c ⟨rfl⟩
    rfl
  value := trivial

/-! ## Whole reports -/

/-- The queue id before the fields, or the word for a bounce. -/
def writeOrigin (origin : Option String) : List Char := (origin.getD "Bounce").toList

/-- The text of a report. -/
def write (origin : Option String) (fs : List WrittenField) : List Char :=
  writeOrigin origin ++ (": ".toList ++ writeFields fs)

/-- A queue id is told from the word for a bounce. -/
theorem start_write {origin : Option String}
    (h : ∀ queue, origin = some queue → isQueueId queue.toList = true ∧ queue ≠ "Bounce") (rest : List Char) :
    start (writeOrigin origin ++ (": ".toList ++ rest)) = some (origin, rest) := by
  cases origin with
  | none =>
    have hafter : after? "Bounce: ".toList (writeOrigin none ++ (": ".toList ++ rest)) = some rest :=
      after?_eq_some_iff.2 rfl
    unfold start
    rw [hafter]
  | some queue =>
    obtain ⟨hid, hne⟩ := h queue rfl
    have hqueue : queue? (writeOrigin (some queue) ++ (": ".toList ++ rest)) = some (queue, rest) :=
      queue?_append hid rest
    have hafter : after? "Bounce: ".toList (writeOrigin (some queue) ++ (": ".toList ++ rest)) =
        none := by
      refine Option.eq_none_iff_forall_ne_some.2 fun rest' hrest => hne ?_
      have heq : queue.toList ++ (": ".toList ++ rest) = "Bounce: ".toList ++ rest' :=
        after?_eq_some_iff.1 hrest
      have hword : isQueueId "Bounce".toList = true := by decide
      exact (queue_append_inj hid hword heq).1
    unfold start
    rw [hafter, hqueue]
    rfl

/-- A report has to say its code and its recipient, and is what its fields make. -/
theorem read_write {origin : Option String} {fs : List WrittenField}
    (horigin : ∀ queue, origin = some queue → isQueueId queue.toList = true ∧ queue ≠ "Bounce")
    (hfs : ∀ f ∈ fs, f.Writable) :
    read (write origin fs) =
      if (ofFields origin fs).dsn = "" ∨ (ofFields origin fs).recipient = .null then
        .error (.payload .relay .missingCodeOrRecipient)
      else .ok (ofFields origin fs) := by
  have hnull (a : Address) : a.isNull = true ↔ a = .null := by
    obtain ⟨localPart, domain⟩ := a
    simp [Address.isNull, Address.null]
  unfold read write
  simp only [start_write horigin, require_some, bind, Except.bind, fields_write hfs, foldl_set,
    Bool.or_eq_true, String.isEmpty_iff, hnull]
  rfl

/-- **Reports are regained, whatever the order of their fields.** What is written of a report is read as
the last value of each known key, and refused exactly if the code is missing or the recipient is no
one. So fields with different keys can stand in any order, and any text whatever gets through as a
quoted message. Reading the fields comes to an end on every text. -/
theorem report_regained (origin : Option String) (fs : List WrittenField)
    (horigin : ∀ queue, origin = some queue → isQueueId queue.toList = true ∧ queue ≠ "Bounce")
    (hfs : ∀ f ∈ fs, f.Writable) :
    (read (write origin fs) =
      if latest fs "code" = [] ∨ Address.ofChars (latest fs "recipient") = .null then
        .error (.payload .relay .missingCodeOrRecipient)
      else .ok (ofFields origin fs)) ∧
    (∀ gs, fs.Perm gs → (fs.map (·.key)).Nodup →
      read (write origin gs) = read (write origin fs)) ∧
    (∀ text, read (write origin (fs ++ [⟨"message".toList, .quoted text⟩])) =
      (read (write origin fs)).map ({ · with message := String.ofList text })) ∧
    WellFounded fun rest cs : List Char => ∃ kv, field cs = .ok (kv, rest) := by
  refine ⟨?_, fun gs hperm hnodup => ?_, fun text => ?_, wellFounded_field⟩
  · have hdsn : (ofFields origin fs).dsn = "" ↔ latest fs "code" = [] := by
      rw [← String.toList_eq_nil_iff]
      simp [ofFields]
    simp only [read_write horigin hfs, hdsn]
    rfl
  · have hgs : ∀ g ∈ gs, g.Writable := fun g hg => hfs g (hperm.mem_iff.2 hg)
    have hsame : ofFields origin gs = ofFields origin fs := by
      simp only [ofFields, latest_eq_of_perm hperm hnodup]
    rw [read_write horigin hgs, read_write horigin hfs, hsame]
  · have hmessage : ∀ f ∈ fs ++ [⟨"message".toList, .quoted text⟩], f.Writable :=
      List.forall_mem_append.2 ⟨hfs, List.forall_mem_singleton.2 (message_writable text)⟩
    rw [read_write horigin hmessage, read_write horigin hfs, ofFields_message]
    split <;> rfl

/-- A report with a key given twice, one that no one knows, and a message that looks like more fields. -/
def tangled : List WrittenField :=
  [⟨"code".toList, .bare "4.0.0".toList⟩,
    ⟨"message".toList, .quoted "said \"no\", code=\"2.0.0\", \\".toList⟩,
    ⟨"recipient".toList, .angled "a@b@example.com".toList⟩,
    ⟨"note, unknown".toList, .bare []⟩,
    ⟨"code".toList, .quoted "5.1.1".toList⟩]

theorem tangled_writable : ∀ f ∈ tangled, f.Writable := by
  have hall : ∀ f ∈ tangled, '=' ∉ f.key ∧ f.key.head?.any isBlank = false ∧ f.value.Writable := by
    decide
  intro f hf
  obtain ⟨hequals, hblank, hvalue⟩ := hall f hf
  exact ⟨hequals, fun c hc => by simpa [Option.mem_def.1 hc] using hblank, hvalue⟩

theorem tangled_regained :
    read (write (some "0A1B2C") tangled) =
      .ok ⟨some "0A1B2C", "5.1.1", .null, ⟨"a@b", "example.com"⟩, "",
        "said \"no\", code=\"2.0.0\", \\"⟩ := by
  have horigin : ∀ queue, some "0A1B2C" = some queue →
      isQueueId queue.toList = true ∧ queue ≠ "Bounce" := by
    rintro queue ⟨rfl⟩
    decide
  rw [(report_regained (some "0A1B2C") tangled horigin tangled_writable).1]
  rfl

end RelayedBounce

end MailTrace
