import MailTrace.Payload.Delivery
import MailTrace.Proofs.Line.Fields
import MailTrace.Proofs.Net.Notation

/-!
# Attempts, written

The text of an attempt is written field by field, and reading gives every value back.

1. A field ends where what parts it from the next one first stands, so each value must not hold that
   (`takeRecipient_write`, `takeValue_write`); the readers of the values need no more than their texts
   (`readRelay_of_written`, `readDelays_of_texts`).
2. The fields together are the attempt (`Attempt.read_write`).
3. The answer of a content filter is found in the last field exactly if it is written there
   (`requeued?_eq_some_iff`).
-/

namespace MailTrace

open MailTrace.Net MailTrace.Text MailTrace.Field

/-! ## Relays -/

namespace Relay

/-- A port, after a colon. Port 0 is left out. -/
def writePort (port : UInt16) : List Char :=
  if port = 0 then [] else ':' :: Nat.toDigits 10 port.toNat

/-- A name with what stands in brackets after it, and a port. -/
def writeBracketed (name : String) (inner : List Char) (port : UInt16) : List Char :=
  name.toList ++ '[' :: (inner ++ ']' :: writePort port)

/-- The texts for a next hop. An address stands in any of its notations. -/
inductive Written : Relay → List Char → Prop where
  | none : Written .none "none".toList
  | bare {name : String} (hname : name ≠ "none") (hbracket : '[' ∉ name.toList) :
    Written { Relay.none with name } name.toList
  | address {name : String} {ip : IPAddress} {written : List Char} {port : UInt16}
    (hbracket : '[' ∉ name.toList) (hip : IPAddress.read? written = some ip) :
    Written ⟨name, some ip, .none, port⟩ (writeBracketed name written port)
  | path {name path : String} {port : UInt16} (hbracket : '[' ∉ name.toList) (hpath : path ≠ "")
    (hip : IPAddress.read? path.toList = .none) :
    Written ⟨name, .none, some path, port⟩ (writeBracketed name path.toList port)

end Relay

namespace Attempt

theorem relayOf_writePort (name inner : List Char) (port : UInt16) :
    relayOf name inner (Relay.writePort port) =
      match IPAddress.read? inner with
      | some ip => .ok ⟨String.ofList name, some ip, none, port⟩
      | none => .ok ⟨String.ofList name, none,
          if inner.isEmpty then none else some (String.ofList inner), port⟩ := by
  unfold relayOf Relay.writePort
  by_cases hport : port = 0
  · rw [if_pos hport, hport]
    cases IPAddress.read? inner <;> rfl
  · rw [if_neg hport]
    simp only [need, unsigned16?_toDigits, require_some]
    cases IPAddress.read? inner <;> rfl

/-- The last bracket that closes is the one that was written, whatever brackets stand in a path. -/
theorem readRelay_writeBracketed {name : String} (hname : '[' ∉ name.toList) (inner : List Char)
    (port : UInt16) :
    readRelay (Relay.writeBracketed name inner port) =
      relayOf name.toList inner (Relay.writePort port) := by
  have hopen : cutAt '[' (Relay.writeBracketed name inner port) =
      some (name.toList, inner ++ ']' :: Relay.writePort port) := cutAt_eq_some_iff.2 ⟨rfl, hname⟩
  have hport : ']' ∉ Relay.writePort port := by
    unfold Relay.writePort
    split
    · exact List.not_mem_nil
    · refine fun hmem => ?_
      rcases List.mem_cons.1 hmem with heq | hmem
      · exact absurd heq (by decide)
      · exact absurd (isDigit_of_mem_toDigits hmem) (by decide)
  have hclose : cutLast ']' (inner ++ ']' :: Relay.writePort port) =
      some (inner, Relay.writePort port) := cutLast_eq_some_iff.2 ⟨rfl, hport⟩
  have hnone : Relay.writeBracketed name inner port ≠ "none".toList := by
    intro heq
    have hmem : '[' ∈ Relay.writeBracketed name inner port := by simp [Relay.writeBracketed]
    rw [heq] at hmem
    exact absurd hmem (by decide)
  unfold readRelay
  rw [if_neg hnone, hopen]
  simp only [need, hclose, require_some]
  rfl

theorem readRelay_of_written {r : Relay} {text : List Char} (h : r.Written text) :
    readRelay text = .ok r := by
  cases h with
  | none => rfl
  | bare hname hbracket =>
    unfold readRelay
    rw [if_neg (mt String.toList_inj.1 hname), cutAt_eq_none_iff.2 hbracket]
    simp only [String.ofList_toList]
  | address hbracket hip =>
    rw [readRelay_writeBracketed hbracket, relayOf_writePort, hip]
    simp only [String.ofList_toList]
  | path hbracket hpath hip =>
    rw [readRelay_writeBracketed hbracket, relayOf_writePort, hip]
    simp [hpath]

/-! ## Numbers -/

/-- Four numbers with slashes between them. -/
def writeDelays (smtpd cleanup qmgr smtp : List Char) : List Char :=
  smtpd ++ '/' :: (cleanup ++ '/' :: (qmgr ++ '/' :: smtp))

theorem readDelays_of_texts {smtpd cleanup qmgr smtp : List Char} {d : Delays}
    (hsmtpd : Binary32.read? smtpd = some d.smtpd) (hcleanup : Binary32.read? cleanup = some d.cleanup)
    (hqmgr : Binary32.read? qmgr = some d.qmgr) (hsmtp : Binary32.read? smtp = some d.smtp) :
    readDelays (writeDelays smtpd cleanup qmgr smtp) = .ok d := by
  have hplain {cs : List Char} {b : Binary32} (h : Binary32.read? cs = some b) :
      ∀ c ∈ cs, (c == '/') = false :=
    fun c hc => beq_eq_false_iff_ne.2 (Binary32.noSeparator_of_read? h c hc).2
  have hpieces : pieces (· == '/') (writeDelays smtpd cleanup qmgr smtp) =
      [smtpd, cleanup, qmgr, smtp] := by
    unfold writeDelays
    rw [pieces_append_cons (hplain hsmtpd) rfl, pieces_append_cons (hplain hcleanup) rfl,
      pieces_append_cons (hplain hqmgr) rfl, pieces_of_forall (hplain hsmtp)]
  unfold readDelays
  rw [hpieces]
  simp only [List.mapM_cons, List.mapM_nil, readSeconds, need, hsmtpd, hcleanup, hqmgr, hsmtp,
    require_some]
  rfl

/-! ## Fields -/

/-- An address in angle brackets, before the fields that follow. -/
def writeAddress (quoted : Bool) (a : Address) (rest : List Char) : List Char :=
  '<' :: (a.write quoted ++ '>' :: (", ".toList ++ rest))

theorem takeRecipient_write {quoted : Bool} {a : Address} (h : a.Writable quoted) (field : String)
    (rest : List Char) : takeRecipient field (writeAddress quoted a rest) = .ok (a, rest) := by
  unfold takeRecipient writeAddress
  rw [address?_write h]
  simp only [need, require_some, bind, Except.bind, skipComma_append]
  rfl

/-- The original recipient, if there is one. -/
def writeOrig (quoted : Bool) (orig : Option Address) (rest : List Char) : List Char :=
  match orig with
  | none => rest
  | some a => "orig_to=".toList ++ writeAddress quoted a rest

theorem takeOrigRecipient?_write {quoted : Bool} {orig : Option Address}
    (h : ∀ a, orig = some a → a.Writable quoted) (value rest : List Char) :
    takeOrigRecipient? (writeOrig quoted orig (writeNamed "relay" value rest)) =
      .ok (orig, writeNamed "relay" value rest) := by
  unfold takeOrigRecipient? writeOrig
  cases orig with
  | none =>
    have hrelay : ("relay" ++ "=").toList = 'r' :: "elay=".toList := by decide
    have hnone : after? "orig_to=".toList (writeNamed "relay" value rest) = none := by
      unfold writeNamed
      rw [hrelay, List.cons_append]
      rfl
    simp only [hnone]
  | some a =>
    simp only [after?_append, takeRecipient_write (h a rfl)]
    rfl

theorem takeValue_write (field : String) {value : List Char} (h : ¬ ", ".toList <:+: value)
    (rest : List Char) : takeValue field (writeNamed field value rest) = .ok (value, rest) := by
  unfold takeValue
  rw [named?_writeNamed field h]
  rfl

theorem readSeconds_of_read? {cs : List Char} {b : Binary32} (h : Binary32.read? cs = some b) :
    readSeconds cs = .ok b := by
  unfold readSeconds
  rw [h]
  rfl

/-- What follows the status, if anything does. -/
def writeExtra (extra : String) : List Char := if extra = "" then [] else ' ' :: extra.toList

theorem cutAt_status (status : Status) (extra : String) :
    (cutAt ' ' (status.name.toList ++ writeExtra extra)).getD
        (status.name.toList ++ writeExtra extra, []) = (status.name.toList, extra.toList) := by
  have hblank : ' ' ∉ status.name.toList := by cases status <;> decide
  unfold writeExtra
  split
  · rename_i hextra
    rw [List.append_nil, cutAt_eq_none_iff.2 hblank, hextra]
    rfl
  · rw [cutAt_eq_some_iff.2 ⟨rfl, hblank⟩]
    rfl

theorem ofName?_name {s : Status} (h : s ≠ .received) : Status.ofName? s.name = some s := by
  cases s with
  | received => exact absurd rfl h
  | _ => decide

/-! ## Whole texts -/

/-- The choices in writing an attempt: which local parts stand in quotes, the text for the next hop,
and the texts for the numbers. -/
structure Form where
  quoted : Bool
  origQuoted : Bool
  relay : List Char
  delay : List Char
  smtpd : List Char
  cleanup : List Char
  qmgr : List Char
  smtp : List Char

/-- The text of an attempt. -/
def write (f : Form) (a : Attempt) : List Char :=
  a.queue.toList ++ (": ".toList ++ ("to=".toList ++ writeAddress f.quoted a.recipient
    (writeOrig f.origQuoted a.origRecipient (writeNamed "relay" f.relay (writeNamed "delay" f.delay
      (writeNamed "delays" (writeDelays f.smtpd f.cleanup f.qmgr f.smtp)
        (writeNamed "dsn" a.dsn.toList
          ("status=".toList ++ (a.status.name.toList ++ writeExtra a.extraMessage)))))))))

/-- An attempt can be told from what is written of it. -/
structure Writable (f : Form) (a : Attempt) : Prop where
  queue : isQueueId a.queue.toList = true
  recipient : a.recipient.Writable f.quoted
  orig : ∀ o, a.origRecipient = some o → o.Writable f.origQuoted
  relay : a.relay.Written f.relay
  relay_comma : ¬ ", ".toList <:+: f.relay
  delay : Binary32.read? f.delay = some a.delay
  smtpd : Binary32.read? f.smtpd = some a.delays.smtpd
  cleanup : Binary32.read? f.cleanup = some a.delays.cleanup
  qmgr : Binary32.read? f.qmgr = some a.delays.qmgr
  smtp : Binary32.read? f.smtp = some a.delays.smtp
  dsn_comma : ¬ ", ".toList <:+: a.dsn.toList
  extra : trim a.extraMessage.toList = a.extraMessage.toList

variable {f : Form} {a : Attempt}

theorem comma_notMem_of_read? {cs : List Char} {b : Binary32} (h : Binary32.read? cs = some b) :
    ',' ∉ cs := fun hmem => (Binary32.noSeparator_of_read? h ',' hmem).1 rfl

theorem Writable.delays_comma (h : a.Writable f) :
    ¬ ", ".toList <:+: writeDelays f.smtpd f.cleanup f.qmgr f.smtp := by
  refine not_infix_of_notMem (s := ',') ?_ (by decide)
  simp [writeDelays, comma_notMem_of_read? h.smtpd, comma_notMem_of_read? h.cleanup,
    comma_notMem_of_read? h.qmgr, comma_notMem_of_read? h.smtp]

/-- **An attempt is regained from what is written of it**, and what its last field tells besides. -/
theorem read_write (h : a.Writable f) (hstatus : a.status ≠ .received) :
    read (a.write f) = .ok { a with requeued := requeued? a.extraMessage.toList } := by
  have hdelay : ¬ ", ".toList <:+: f.delay :=
    not_infix_of_notMem (comma_notMem_of_read? h.delay) (by decide)
  unfold read write
  simp only [queue?_append h.queue, require_some, bind, Except.bind, after?_append,
    takeRecipient_write h.recipient, takeOrigRecipient?_write h.orig,
    takeValue_write _ h.relay_comma, takeValue_write _ hdelay, takeValue_write _ h.delays_comma,
    takeValue_write _ h.dsn_comma, need, cutAt_status, String.ofList_toList, ofName?_name hstatus,
    readRelay_of_written h.relay, readSeconds_of_read? h.delay,
    readDelays_of_texts h.smtpd h.cleanup h.qmgr h.smtp, h.extra, pure, Except.pure]

/-! ## Answers of content filters -/

/-- What a content filter answers: who it is and what it did with the message. -/
def writeAnswer (ip port text queue : List Char) : List Char :=
  "from MTA(smtp:[".toList ++ (ip ++ ("]:".toList ++ (port ++ ("): ".toList ++
    (text ++ ("queued as ".toList ++ queue))))))

/-- The last field is the answer of a content filter: its numbers are written in decimal and its
address in any notation, and the queue id follows the first time that `queued as` is said. -/
def Requeues (extra : List Char) (r : Requeued) : Prop :=
  ∃ code ip port text : List Char,
    extra = '(' :: (code ++ ' ' :: (r.dsn.toList ++ ' ' ::
      (writeAnswer ip port text r.queue.toList ++ [')']))) ∧
    unsigned16? code = some r.smtpCode ∧ ' ' ∉ r.dsn.toList ∧ IPAddress.read? ip = some r.ip ∧
    unsigned16? port = some r.port ∧ ¬ "queued as ".toList <:+: text ∧ r.queue ≠ ""

theorem isDigit_or_of_unsigned16? {cs : List Char} {n : UInt16} (h : unsigned16? cs = some n) :
    ∀ c ∈ cs, isDigit c = true ∨ c = '+' := by
  obtain ⟨m, hm, -⟩ := Option.map_eq_some_iff.1 h
  exact isDigit_or_of_unsigned? hm

theorem cutText_ip {cs : List Char} {ip : IPAddress} (h : IPAddress.read? cs = some ip)
    (rest : List Char) : cutText [']', ':'] (cs ++ ("]:".toList ++ rest)) = some (cs, rest) := by
  have hbracket : ']' ∉ cs := fun hmem =>
    absurd (IPAddress.isNotation_of_read? h ']' hmem) (by decide)
  exact cutText_append (by decide) (by decide) (not_infix_of_notMem hbracket (by decide))

theorem cutText_port {cs : List Char} {port : UInt16} (h : unsigned16? cs = some port)
    (rest : List Char) : cutText [')', ':', ' '] (cs ++ ("): ".toList ++ rest)) = some (cs, rest) := by
  have hparen : ')' ∉ cs := fun hmem => absurd (isDigit_or_of_unsigned16? h ')' hmem) (by decide)
  exact cutText_append (by decide) (by decide) (not_infix_of_notMem hparen (by decide))

theorem requeued?_of_requeues {extra : List Char} {r : Requeued} (h : Requeues extra r) :
    requeued? extra = some r := by
  obtain ⟨code, ip, port, text, rfl, hcode, hdsn, hip, hport, htext, hqueue⟩ := h
  have hblank : ' ' ∉ code := fun hmem =>
    absurd (isDigit_or_of_unsigned16? hcode ' ' hmem) (by decide)
  -- the parentheses come off first, so what stands in them after the blanks is kept together
  have hinner (answer : List Char) :
      before? [')'] (code ++ ' ' :: (r.dsn.toList ++ ' ' :: (answer ++ [')']))) =
        some (code ++ ' ' :: (r.dsn.toList ++ ' ' :: answer)) :=
    before?_eq_some_iff.2 (by simp)
  have hcutCode (answer : List Char) :
      cutAt ' ' (code ++ ' ' :: (r.dsn.toList ++ ' ' :: answer)) =
        some (code, r.dsn.toList ++ ' ' :: answer) := cutAt_eq_some_iff.2 ⟨rfl, hblank⟩
  have hcutDsn (answer : List Char) :
      cutAt ' ' (r.dsn.toList ++ ' ' :: answer) = some (r.dsn.toList, answer) :=
    cutAt_eq_some_iff.2 ⟨rfl, hdsn⟩
  have hcutText : cutText "queued as ".toList (text ++ ("queued as ".toList ++ r.queue.toList)) =
      some (text, r.queue.toList) := cutText_append (by decide) (by decide) htext
  have hne : r.queue.toList.isEmpty = false := by simpa using hqueue
  have hopen (rest : List Char) : after? ['('] ('(' :: rest) = some rest := after?_append ['('] rest
  unfold requeued?
  rw [hopen]
  simp only [Option.bind_eq_bind, Option.bind_some, hinner, hcutCode, hcutDsn]
  unfold writeAnswer
  simp only [Option.bind_some, after?_append, cutText_ip hip, cutText_port hport, hcutText, hne,
    Bool.false_eq_true, if_false, hcode, hip, hport, String.ofList_toList, pure]

theorem requeues_of_requeued? {extra : List Char} {r : Requeued} (h : requeued? extra = some r) :
    Requeues extra r := by
  simp only [requeued?, Option.bind_eq_bind, Option.bind_eq_some_iff, Prod.exists] at h
  obtain ⟨closed, hopen, inner, hclose, code, rest₁, hcode, dsn, rest₂, hdsn, rest₃, hfrom, ip,
    rest₄, hip, port, rest₅, hport, text, queue, htext, h⟩ := h
  split at h
  · cases h
  rename_i hqueue
  simp only [Option.bind_eq_some_iff] at h
  obtain ⟨codeValue, hcodeValue, ipValue, hipValue, portValue, hportValue, heq⟩ := h
  cases heq
  obtain ⟨rfl, -⟩ := cutAt_eq_some_iff.1 hcode
  obtain ⟨rfl, hblank⟩ := cutAt_eq_some_iff.1 hdsn
  obtain ⟨rfl, hfirst⟩ := (cutText_eq_some_iff (by decide) (by decide)).1 htext
  have hanswer : rest₂ = writeAnswer ip port text queue := by
    unfold writeAnswer
    rw [after?_eq_some_iff.1 hfrom, eq_append_of_cutText hip, eq_append_of_cutText hport]
    simp only [List.append_assoc]
    rfl
  refine ⟨code, ip, port, text, ?_, hcodeValue, ?_, hipValue, hportValue, hfirst, ?_⟩
  · rw [after?_eq_some_iff.1 hopen, before?_eq_some_iff.1 hclose, hanswer]
    simp only [String.toList_ofList, List.append_assoc, List.cons_append, List.nil_append]
  · rwa [String.toList_ofList]
  · simpa using hqueue

/-- **An attempt says that the message was queued again exactly if its last field does.** -/
theorem requeued?_eq_some_iff {extra : List Char} {r : Requeued} :
    requeued? extra = some r ↔ Requeues extra r :=
  ⟨requeues_of_requeued?, requeued?_of_requeues⟩

end Attempt

/-- **Attempts are regained.** The text that is written of an attempt, with its addresses bare or
quoted, its next hop in any notation and its numbers as any texts for them, is read as an attempt of
exactly its values. What it says of a message queued again is what its last field says. -/
theorem attempt_regained (f : Attempt.Form) (a : Attempt) (h : a.Writable f)
    (hstatus : a.status ≠ .received) :
    ∃ requeued, Attempt.read (a.write f) = .ok { a with requeued } ∧
      ∀ r, requeued = some r ↔ Attempt.Requeues a.extraMessage.toList r :=
  ⟨_, Attempt.read_write h hstatus, fun _ => Attempt.requeued?_eq_some_iff⟩

/-- A message that a content filter queued again, after an attempt over IPv6. -/
def filtered : Attempt where
  queue := "3A1973E542"
  recipient := ⟨"a>b", "example.com"⟩
  origRecipient := some ⟨"root", ""⟩
  relay := ⟨"filter", some (.v6 ⟨[0x2001, 0xDB8, 0, 0, 0, 0, 0, 1], rfl⟩), none, 10025⟩
  delay := ⟨0x3F000000⟩
  delays := ⟨⟨0x3F000000⟩, ⟨0⟩, ⟨0x40000000⟩, ⟨0x7F800000⟩⟩
  dsn := "2.0.0"
  status := .sent
  extraMessage := "(250 2.6.0 from MTA(smtp:[127.0.0.1]:10025): 250 Ok: queued as 5B2A)"
  requeued := none

/-- Texts for its values. -/
def filteredForm : Attempt.Form where
  quoted := true
  origQuoted := false
  relay := "filter[2001:DB8::1]:10025".toList
  delay := "0.5".toList
  smtpd := "5e-1".toList
  cleanup := "0".toList
  qmgr := "2".toList
  smtp := "inf".toList

theorem filtered_relay : filtered.relay.Written filteredForm.relay := by
  have hrelay : filtered.relay.Written
      (Relay.writeBracketed "filter" "2001:DB8::1".toList 10025) := .address (by decide) rfl
  exact hrelay

theorem filtered_writable : filtered.Writable filteredForm where
  queue := by decide
  recipient := ⟨by decide, by decide, by decide, by decide, by decide, by decide⟩
  orig := by
    rintro o ho
    cases ho
    exact ⟨by decide, by decide, by decide, by decide, by decide, by decide⟩
  relay := filtered_relay
  relay_comma := not_infix_of_notMem (s := ',') (by decide) (by decide)
  delay := by decide
  smtpd := by decide
  cleanup := by decide
  qmgr := by decide
  smtp := by decide
  dsn_comma := not_infix_of_notMem (s := ',') (by decide) (by decide)
  extra := by decide

theorem filtered_regained :
    ∃ requeued, Attempt.read (filtered.write filteredForm) = .ok { filtered with requeued } ∧
      requeued = some ⟨250, "2.6.0", .v4 127 0 0 1, 10025, "5B2A"⟩ := by
  obtain ⟨requeued, hread, hiff⟩ := attempt_regained filteredForm filtered filtered_writable
    (by decide)
  refine ⟨requeued, hread, (hiff _).2 ?_⟩
  exact ⟨"250".toList, "127.0.0.1".toList, "10025".toList, "250 Ok: ".toList, by decide, by decide,
    by decide, by decide, by decide, not_infix_of_notMem (s := 'q') (by decide) (by decide),
    by decide⟩

/-- An attempt with the one status that no line names. -/
def receivedAttempt : Attempt where
  queue := "3A1973E542"
  recipient := ⟨"a", "b.c"⟩
  origRecipient := none
  relay := ⟨"mx.b.c", some (.v4 1 2 3 4), none, 25⟩
  delay := ⟨0x3F000000⟩
  delays := ⟨⟨0x3DCCCCCD⟩, ⟨0x3DCCCCCD⟩, ⟨0x3E4CCCCD⟩, ⟨0x3DCCCCCD⟩⟩
  dsn := "2.0.0"
  status := .received
  extraMessage := "(x)"
  requeued := none

/-- Texts for its values. -/
def receivedForm : Attempt.Form where
  quoted := false
  origQuoted := false
  relay := "mx.b.c[1.2.3.4]:25".toList
  delay := "0.5".toList
  smtpd := "0.1".toList
  cleanup := "0.1".toList
  qmgr := "0.2".toList
  smtp := "0.1".toList

theorem received_refused :
    receivedAttempt.Writable receivedForm ∧
      receivedAttempt.write receivedForm =
        "3A1973E542: to=<a@b.c>, relay=mx.b.c[1.2.3.4]:25, ".toList ++
          "delay=0.5, delays=0.1/0.1/0.2/0.1, dsn=2.0.0, status=received (x)".toList ∧
      Attempt.read (receivedAttempt.write receivedForm) =
        .error (.payload .delivery (.unknownStatus "received")) := by
  have hrelay : receivedAttempt.relay.Written
      (Relay.writeBracketed "mx.b.c" "1.2.3.4".toList 25) := .address (by decide) rfl
  have hwritable : receivedAttempt.Writable receivedForm := {
    queue := by decide
    recipient := ⟨by decide, by decide, by decide, by decide, by decide, by decide⟩
    orig := fun _ ho => nomatch ho
    relay := hrelay
    relay_comma := not_infix_of_notMem (s := ',') (by decide) (by decide)
    delay := by decide
    smtpd := by decide
    cleanup := by decide
    qmgr := by decide
    smtp := by decide
    dsn_comma := not_infix_of_notMem (s := ',') (by decide) (by decide)
    extra := by decide }
  exact ⟨hwritable, rfl, rfl⟩

end MailTrace
