import MailTrace.Proofs.Format.Years
import MailTrace.Proofs.Net.Notation

/-!
# Lines, written

A line is written from its time, its header and its text, and reading gives all three back. The parts
of a tag hold each other's separators, so it matters from which end each is taken off:

1. the process number from the end, whatever brackets the daemon holds (`splitPid_write`);
2. one slash at the start, then the daemon after the first slash, whatever slashes follow
   (`cutAt_program`);
3. the address after the last hyphen, whatever hyphens the process holds (`splitAddress_write`).
-/

namespace MailTrace

open MailTrace.Net MailTrace.Text MailTrace.Time

namespace Header

/-! ## Writing -/

/-- What a tag may hold that says nothing. -/
structure Style where
  /-- A slash stands before the process. -/
  leadingSlash : Bool
  /-- A slash stands after the process also where no daemon follows. -/
  trailingSlash : Bool
deriving DecidableEq, Repr

variable (style : Style) (h : Header)

/-- The address of a process, after a hyphen. -/
def writeAddress : Option IPAddress → List Char
  | none => []
  | some ip => '-' :: ip.write

/-- A process number, in brackets. -/
def writePid : Option UInt32 → List Char
  | none => []
  | some pid => '[' :: (Nat.toDigits 10 pid.toNat ++ [']'])

/-- The process with its address. -/
def writeProcess : List Char := h.process.toList ++ writeAddress h.processIp

/-- The daemon, after a slash. -/
def writeDaemon : List Char :=
  if h.daemon = "" ∧ style.trailingSlash = false then [] else '/' :: h.daemon.toList

/-- The process and the daemon. -/
def writeProgram : List Char :=
  (if style.leadingSlash then ['/'] else []) ++ (h.writeProcess ++ h.writeDaemon style)

/-- Everything between the host and the colon. -/
def writeTag : List Char := h.writeProgram style ++ writePid h.pid

/-- A header up to its text. -/
def write : List Char := h.host.toList ++ ' ' :: (h.writeTag style ++ [':', ' '])

/-- A header can be told from what is written of it. -/
structure Writable : Prop where
  host_ne : h.host ≠ ""
  host_blank : ' ' ∉ h.host.toList
  process_ne : h.process ≠ ""
  process_chars : ∀ c ∈ h.process.toList, c ≠ '/' ∧ c ≠ ':' ∧ isBlank c = false
  daemon_chars : ∀ c ∈ h.daemon.toList, c ≠ ':' ∧ isBlank c = false
  /-- Only addresses of four octets have no colons. -/
  address : ∀ ip, h.processIp = some ip → ∃ a b c d, ip = .v4 a b c d
  /-- A process without an address does not end like one with an address. -/
  no_address : h.processIp = none → ∀ front last,
    h.process.toList = front ++ '-' :: last → '-' ∉ last → IPAddress.read? last = none
  /-- A tag without a process number does not end like one with a number. -/
  no_pid : h.pid = none → (h.writeTag style).getLast? ≠ some ']'

variable {style h}

/-! ## Cutting -/

/-- The header of a host and a tag. -/
def ofParts? (host tag : List Char) : Option Header :=
  if host.isEmpty then none else ofTag? host tag

/-- A header is cut at the first blank, and at the first colon after it. -/
theorem take?_of_parts {host tag rest text : List Char} (hhost : ' ' ∉ host) (htag : ':' ∉ tag)
    (htext : textAfterColon? rest = some text) :
    take? (host ++ ' ' :: (tag ++ ':' :: rest)) = (ofParts? host tag).map (·, text) := by
  have hcutHost : cutAt ' ' (host ++ ' ' :: (tag ++ ':' :: rest)) =
      some (host, tag ++ ':' :: rest) := cutAt_eq_some_iff.2 ⟨rfl, hhost⟩
  have hcutTag : cutAt ':' (tag ++ ':' :: rest) = some (tag, rest) :=
    cutAt_eq_some_iff.2 ⟨rfl, htag⟩
  unfold take? ofParts?
  simp only [hcutHost, hcutTag, htext, Option.bind_eq_bind, Option.bind_some]
  split
  · rfl
  · cases ofTag? host tag <;> rfl

/-! ## The parts of a tag -/

theorem splitPid_write (hw : h.Writable style) :
    splitPid (h.writeTag style) = some (h.writeProgram style, h.pid) := by
  have hlast := hw.no_pid
  unfold writeTag at hlast ⊢
  cases hpid : h.pid with
  | none =>
    rw [hpid] at hlast
    have hopen : before? [']'] (h.writeProgram style ++ writePid none) = none := by
      refine Option.eq_none_iff_forall_ne_some.2 fun front hfront => hlast rfl ?_
      rw [before?_eq_some_iff.1 hfront]
      exact List.getLast?_concat
    unfold splitPid
    rw [hopen]
    simp [writePid]
  | some pid =>
    have hclosed : before? [']'] (h.writeProgram style ++ writePid (some pid)) =
        some (h.writeProgram style ++ '[' :: Nat.toDigits 10 pid.toNat) :=
      before?_eq_some_iff.2 (by simp [writePid])
    have hbracket : '[' ∉ Nat.toDigits 10 pid.toNat := fun hmem =>
      absurd (isDigit_of_mem_toDigits hmem) (by decide)
    have hcut : cutLast '[' (h.writeProgram style ++ '[' :: Nat.toDigits 10 pid.toNat) =
        some (h.writeProgram style, Nat.toDigits 10 pid.toNat) :=
      cutLast_eq_some_iff.2 ⟨rfl, hbracket⟩
    unfold splitPid
    rw [hclosed]
    simp only [hcut, Option.bind_eq_bind, Option.bind_some, unsigned32?_toDigits]
    rfl

theorem splitAddress_write (hw : h.Writable style) :
    splitAddress h.writeProcess = (h.process.toList, h.processIp) := by
  unfold writeProcess
  cases hip : h.processIp with
  | none =>
    unfold splitAddress writeAddress
    rw [List.append_nil]
    split
    · rfl
    · rename_i front last hcut
      obtain ⟨hprocess, hlast⟩ := cutLast_eq_some_iff.1 hcut
      rw [hw.no_address hip front last hprocess hlast]
  | some ip =>
    have hhyphen : '-' ∉ ip.write := fun hmem =>
      absurd (IPAddress.isNotation_of_mem_write _ hmem) (by decide)
    have hcut : cutLast '-' (h.process.toList ++ '-' :: ip.write) =
        some (h.process.toList, ip.write) := cutLast_eq_some_iff.2 ⟨rfl, hhyphen⟩
    unfold splitAddress writeAddress
    rw [hcut]
    simp only [IPAddress.read?_write]

theorem slash_notMem_writeProcess (hw : h.Writable style) : '/' ∉ h.writeProcess := by
  unfold writeProcess writeAddress
  rw [List.mem_append, not_or]
  refine ⟨fun hmem => (hw.process_chars _ hmem).1 rfl, ?_⟩
  cases h.processIp with
  | none => exact List.not_mem_nil
  | some ip =>
    refine fun hmem => ?_
    rcases List.mem_cons.1 hmem with heq | hmem
    · exact absurd heq (by decide)
    · exact absurd (IPAddress.isNotation_of_mem_write _ hmem) (by decide)

theorem exists_writeProcess_cons (hw : h.Writable style) :
    ∃ c rest, h.writeProcess = c :: rest ∧ c ≠ '/' := by
  obtain ⟨c, rest, hprocess⟩ :=
    List.exists_cons_of_ne_nil (mt String.toList_eq_nil_iff.1 hw.process_ne)
  refine ⟨c, rest ++ writeAddress h.processIp, by simp [writeProcess, hprocess], ?_⟩
  exact (hw.process_chars c (by simp [hprocess])).1

/-- The slash before the process, if it is there, is not a part of the program. -/
theorem getD_after?_program (hw : h.Writable style) :
    (after? ['/'] (h.writeProgram style)).getD (h.writeProgram style) =
      h.writeProcess ++ h.writeDaemon style := by
  unfold writeProgram
  split
  · rw [after?_append]
    rfl
  · obtain ⟨c, rest, hprocess, hc⟩ := exists_writeProcess_cons hw
    have hnone : after? ['/'] (c :: (rest ++ h.writeDaemon style)) = none := by
      simp [after?, Ne.symm hc]
    rw [List.nil_append, hprocess, List.cons_append, hnone]
    rfl

theorem cutAt_program (hw : h.Writable style) :
    (cutAt '/' (h.writeProcess ++ h.writeDaemon style)).getD
        (h.writeProcess ++ h.writeDaemon style, []) = (h.writeProcess, h.daemon.toList) := by
  have hslash := slash_notMem_writeProcess hw
  unfold writeDaemon
  split
  · rename_i hempty
    rw [List.append_nil, cutAt_eq_none_iff.2 hslash, hempty.1]
    rfl
  · rw [cutAt_eq_some_iff.2 ⟨rfl, hslash⟩]
    rfl

theorem plain_of_isDigit {c : Char} (h : isDigit c = true) : c ≠ ':' ∧ isBlank c = false :=
  ⟨fun hcolon => absurd (hcolon ▸ h) (by decide), isBlank_of_isDigit h⟩

theorem forall_writeAddress (hw : h.Writable style) :
    ∀ c ∈ writeAddress h.processIp, c ≠ ':' ∧ isBlank c = false := by
  cases hip : h.processIp with
  | none => simp [writeAddress]
  | some ip =>
    obtain ⟨a, b, c, d, rfl⟩ := hw.address ip hip
    refine List.forall_mem_cons.2 ⟨by decide, fun char hchar => ?_⟩
    rcases IPAddress.forall_of_readV4? (IPAddress.readV4?_writeV4 a b c d) char hchar with
      hdigit | rfl
    · exact plain_of_isDigit hdigit
    · decide

theorem forall_writePid (pid : Option UInt32) :
    ∀ c ∈ writePid pid, c ≠ ':' ∧ isBlank c = false := by
  cases pid with
  | none => simp [writePid]
  | some pid =>
    refine List.forall_mem_cons.2 ⟨by decide, List.forall_mem_append.2 ⟨?_, ?_⟩⟩
    · exact fun c hc => plain_of_isDigit (isDigit_of_mem_toDigits hc)
    · exact List.forall_mem_singleton.2 (by decide)

/-- No part of a tag has a colon or a blank. -/
theorem forall_writeTag (hw : h.Writable style) :
    ∀ c ∈ h.writeTag style, c ≠ ':' ∧ isBlank c = false := by
  have hslash : '/' ≠ ':' ∧ isBlank '/' = false := by decide
  have hleading : ∀ c ∈ (if style.leadingSlash then ['/'] else []), c ≠ ':' ∧ isBlank c = false := by
    split
    · exact List.forall_mem_singleton.2 hslash
    · simp
  have hprocess : ∀ c ∈ h.writeProcess, c ≠ ':' ∧ isBlank c = false :=
    List.forall_mem_append.2 ⟨fun c hc => (hw.process_chars c hc).2, forall_writeAddress hw⟩
  have hdaemon : ∀ c ∈ h.writeDaemon style, c ≠ ':' ∧ isBlank c = false := by
    unfold writeDaemon
    split
    · simp
    · exact List.forall_mem_cons.2 ⟨hslash, hw.daemon_chars⟩
  unfold writeTag writeProgram
  simp only [List.forall_mem_append]
  exact ⟨⟨hleading, hprocess, hdaemon⟩, forall_writePid h.pid⟩

theorem ofTag?_writeTag (hw : h.Writable style) :
    ofTag? h.host.toList (h.writeTag style) = some h := by
  have hblank : (h.writeTag style).any isBlank = false :=
    List.any_eq_false.2 fun c hc => by simp [(forall_writeTag hw c hc).2]
  have hne : (h.writeTag style).isEmpty = false := by
    obtain ⟨c, rest, hprocess, -⟩ := exists_writeProcess_cons hw
    simp [writeTag, writeProgram, hprocess]
  have hprocess : h.process.toList.isEmpty = false := by simpa using hw.process_ne
  unfold ofTag?
  rw [hblank, hne]
  simp only [Bool.or_self, Bool.false_eq_true, if_false, splitPid_write hw, Option.bind_eq_bind,
    Option.bind_some, getD_after?_program hw, cutAt_program hw, splitAddress_write hw, hprocess,
    String.ofList_toList]
  rfl

theorem take?_write (hw : h.Writable style) (text : List Char) :
    take? (h.write style ++ text) = some (h, text) := by
  have hcolon : ':' ∉ h.writeTag style := fun hmem => (forall_writeTag hw _ hmem).1 rfl
  have hwritten : h.write style ++ text =
      h.host.toList ++ ' ' :: (h.writeTag style ++ ':' :: ' ' :: text) := by simp [write]
  have hhost : h.host.toList.isEmpty = false := by simpa using hw.host_ne
  have htext : textAfterColon? (' ' :: text) = some text := rfl
  rw [hwritten, take?_of_parts hw.host_blank hcolon htext]
  unfold ofParts?
  rw [hhost, ofTag?_writeTag hw]
  rfl

end Header

/-! ## Lines -/

namespace Line

theorem readSyslog_write {t : SyslogTime} {style : Header.Style} {h : Header} (ht : t.Short)
    (hw : h.Writable style) (n : Nat) (pad : DayPadding) (text : List Char) :
    readSyslog (List.replicate n '\x00' ++ (t.write pad ++ ' ' :: (h.write style ++ text))) =
      .ok (t, ⟨h, Payload.read h text⟩) := by
  have hbody : readBody (h.write style ++ text) = .ok ⟨h, Payload.read h text⟩ := by
    unfold readBody
    rw [Header.take?_write hw]
    rfl
  have hread := readSyslog_of_tells (tellsSyslog_write ht n pad) (h.write style ++ text)
  rw [hbody, List.append_assoc, List.append_assoc] at hread
  exact hread

end Line

/-- **Lines are regained.** A line written of a time and a header, after any number of zero characters
and before any text, is read as exactly this time and this header, and its event is read from exactly
this text. And nothing is read as a time but what was written of one in fifteen octets, its day padded
with a zero or an ASCII blank. -/
theorem line_regained :
    (∀ (n : Nat) (t : SyslogTime) (pad : DayPadding) (style : Header.Style) (h : Header)
        (text : List Char), t.Short → h.Writable style →
      Header.take? (h.write style ++ text) = some (h, text) ∧
        Line.readSyslog (List.replicate n '\x00' ++ (t.write pad ++ ' ' :: (h.write style ++ text))) =
          .ok (t, ⟨h, Payload.read h text⟩)) ∧
    ∀ (cs : List Char) (t : SyslogTime), SyslogTime.read? cs = some t ↔
      t.Short ∧ ∃ pad, PadsDay pad ∧ cs = t.writeWith pad ∧ Utf8.size cs = 15 := by
  refine ⟨fun n t pad style h text ht hw => ?_, fun cs t => ?_⟩
  · exact ⟨Header.take?_write hw text, Line.readSyslog_write ht hw n pad text⟩
  · rw [SyslogTime.read?_eq_some_iff]
    refine and_congr_right fun ht => exists_congr fun pad => and_congr_right fun hpad => ?_
    exact ⟨fun h => ⟨h, h ▸ SyslogTime.size_writeWith ht hpad⟩, And.left⟩

/-- A named instance bound to an address, with a daemon of two parts. -/
def submission : Header :=
  ⟨"mail", "postfix-out", "submission/smtpd", some 42, some (.v4 10 20 30 40)⟩

theorem submission_writable : submission.Writable ⟨true, false⟩ where
  host_ne := by decide
  host_blank := by decide
  process_ne := by decide
  process_chars := by
    have hall : submission.process.toList.all (fun c => c != '/' && c != ':' && !isBlank c) := by
      decide
    simpa [and_assoc] using List.all_eq_true.1 hall
  daemon_chars := by
    have hall : submission.daemon.toList.all (fun c => c != ':' && !isBlank c) := by decide
    simpa using List.all_eq_true.1 hall
  address := fun _ hip => ⟨10, 20, 30, 40, (Option.some.inj hip).symm⟩
  no_address := fun hnone => absurd hnone (by decide)
  no_pid := fun hnone => absurd hnone (by decide)

theorem submission_regained :
    Line.readSyslog
        "\x00\x00Feb  4 09:29:33 mail /postfix-out-10.20.30.40/submission/smtpd[42]: connect".toList =
      .ok (⟨.february, 4, 9, 29, 33⟩, ⟨submission, Payload.read submission "connect".toList⟩) :=
  (line_regained.1 2 ⟨.february, 4, 9, 29, 33⟩ .blank ⟨true, false⟩ submission "connect".toList
    ⟨by decide, by decide, by decide, by decide⟩ submission_writable).2

end MailTrace
