import Mathlib.Data.List.Forall2
import MailTrace.Proofs.Line.Faults
import MailTrace.Proofs.Line.Fields
import MailTrace.Proofs.Line.Origins
import MailTrace.Proofs.Net.Notation

/-!
# Events, written

Every program but those that deliver has a few kinds of texts, one for each kind of event, and each is
read as the event that it was written of (`event_regained`). The kinds of one program are tried in
turn, so a text must not begin like one of a kind that is tried before its own. A text about a queue
never does (`after?_queue_eq_none`), but for what the server says of a message that has no queue id
(`after?_unqueued_eq_none`).
-/

namespace MailTrace

open MailTrace.Net MailTrace.Text MailTrace.Field

/-! ## Clients -/

namespace Client

/-- A character of a word in the brackets after a host. -/
def InBrackets (c : Char) : Prop := c ≠ ']' ∧ c ≠ ',' ∧ isBlank c = false

instance : DecidablePred InBrackets := fun _ => inferInstanceAs (Decidable (_ ∧ _ ∧ _))

theorem inBrackets_of_isNotation {c : Char} (h : IPAddress.IsNotation c) : InBrackets c := by
  have hall : ∀ n < 128, IPAddress.IsNotation (Char.ofNat n) → InBrackets (Char.ofNat n) := by
    decide
  have hc := hall c.toNat (IPAddress.toNat_lt_of_isNotation h)
  rw [Char.ofNat_toNat] at hc
  exact hc h

/-- The texts for a client: the host with its address in brackets, in any notation, or with a word that
is no address. -/
inductive Written : Client → List Char → Prop where
  | known {host : String} {ip : IPAddress} {written : List Char} (hhost : '[' ∉ host.toList)
    (hip : IPAddress.read? written = some ip) :
    Written ⟨host, some ip⟩ (host.toList ++ '[' :: (written ++ [']']))
  | unknown {host : String} {word : List Char} (hhost : '[' ∉ host.toList)
    (hword : ∀ c ∈ word, InBrackets c) (hip : IPAddress.read? word = none) :
    Written ⟨host, none⟩ (host.toList ++ '[' :: (word ++ [']']))

/-- What stands in the brackets is the address, or a word that is none. -/
theorem Written.exists_word {c : Client} {text : List Char} (h : c.Written text) :
    ∃ word, text = c.host.toList ++ '[' :: (word ++ [']']) ∧ '[' ∉ c.host.toList ∧
      (∀ x ∈ word, InBrackets x) ∧ IPAddress.read? word = c.ip := by
  cases h with
  | known hhost hip =>
    exact ⟨_, rfl, hhost,
      fun x hx => inBrackets_of_isNotation (IPAddress.isNotation_of_read? hip x hx), hip⟩
  | unknown hhost hword hip => exact ⟨_, rfl, hhost, hword, hip⟩

/-- What follows the host has no comma, so what parts fields stands nowhere if not in the host. -/
theorem Written.not_infix {c : Client} {text : List Char} (h : c.Written text)
    (hcomma : ¬ ", ".toList <:+: c.host.toList) : ¬ ", ".toList <:+: text := by
  obtain ⟨word, rfl, -, hword, -⟩ := h.exists_word
  have hrest : ',' ∉ word ++ [']'] := fun hmem =>
    (List.mem_append.1 hmem).elim (fun hc => (hword _ hc).2.1 rfl) (by decide)
  exact not_infix_append_cons hcomma (by decide) (not_infix_of_notMem hrest (by decide))

theorem Written.notMem {c : Client} {text : List Char} (h : c.Written text)
    (hblank : ' ' ∉ c.host.toList) : ' ' ∉ text := by
  obtain ⟨word, rfl, -, hword, -⟩ := h.exists_word
  have hplain : ' ' ∉ word := fun hmem => absurd (hword _ hmem) (by decide)
  simp [hblank, hplain]

end Client

theorem Field.client?_of_written {c : Client} {text : List Char} (h : c.Written text) :
    client? text = some c := by
  obtain ⟨word, rfl, hhost, hword, hip⟩ := h.exists_word
  have hopen : cutAt '[' (c.host.toList ++ '[' :: (word ++ [']'])) =
      some (c.host.toList, word ++ [']']) := cutAt_eq_some_iff.2 ⟨rfl, hhost⟩
  have hopenText : cutText ['['] (c.host.toList ++ (['['] ++ (word ++ [']']))) =
      some (c.host.toList, word ++ [']']) :=
    cutText_append (by decide) (by decide) (not_infix_of_notMem hhost (by decide))
  have hclose : cutText [']'] (word ++ ([']'] ++ [])) = some (word, []) :=
    cutText_append (by decide) (by decide)
      (not_infix_of_notMem (fun hmem => (hword _ hmem).1 rfl) (by decide))
  have hbetween : between ['['] [']'] (c.host.toList ++ '[' :: (word ++ [']'])) = some word := by
    show (cutText ['['] (c.host.toList ++ (['['] ++ (word ++ [']'])))).bind _ = _
    rw [hopenText]
    show (cutText [']'] (word ++ ([']'] ++ []))).bind _ = _
    rw [hclose]
    exact congrArg some (trim_of_forall fun x hx => (hword x hx).2.2)
  unfold client?
  simp only [hopen, hbetween, Option.bind_eq_bind, Option.bind_some, String.ofList_toList, hip]
  rfl

namespace Server

theorem client_of_written {c : Client} {text : List Char} (h : c.Written text) :
    client text = .ok c := by
  unfold client
  rw [client?_of_written h]
  rfl

/-! ## Counters -/

/-- The texts for how often a command was used: one number if it always was with success, or the number
of successes and the total. -/
inductive Counts : CommandCount → List Char → Prop where
  | equal {command : String} {n : UInt32} (hequals : '=' ∉ command.toList)
    (hblank : ∀ c ∈ command.toList, isBlank c = false) :
    Counts ⟨command, n, n⟩ (command.toList ++ '=' :: Nat.toDigits 10 n.toNat)
  | both {command : String} {success total : UInt32} (hequals : '=' ∉ command.toList)
    (hblank : ∀ c ∈ command.toList, isBlank c = false) :
    Counts ⟨command, success, total⟩ (command.toList ++
      '=' :: (Nat.toDigits 10 success.toNat ++ '/' :: Nat.toDigits 10 total.toNat))

theorem isBlank_of_mem_toDigits {n : Nat} : ∀ c ∈ Nat.toDigits 10 n, isBlank c = false :=
  fun _ hc => isBlank_of_isDigit (isDigit_of_mem_toDigits hc)

theorem Counts.word {k : CommandCount} {text : List Char} (h : Counts k text) :
    text ≠ [] ∧ ∀ c ∈ text, isBlank c = false := by
  have hequals : isBlank '=' = false := by decide
  have hslash : isBlank '/' = false := by decide
  cases h with
  | equal _ hblank =>
    exact ⟨by simp, List.forall_mem_append.2
      ⟨hblank, List.forall_mem_cons.2 ⟨hequals, isBlank_of_mem_toDigits⟩⟩⟩
  | both _ hblank =>
    exact ⟨by simp, List.forall_mem_append.2 ⟨hblank, List.forall_mem_cons.2 ⟨hequals,
      List.forall_mem_append.2 ⟨isBlank_of_mem_toDigits,
        List.forall_mem_cons.2 ⟨hslash, isBlank_of_mem_toDigits⟩⟩⟩⟩⟩

theorem Counts.words {counts : List CommandCount} {texts : List (List Char)}
    (h : List.Forall₂ Counts counts texts) :
    ∀ text ∈ texts, text ≠ [] ∧ ∀ c ∈ text, isBlank c = false := by
  induction h with
  | nil => simp
  | cons hcount _ ih => exact List.forall_mem_cons.2 ⟨hcount.word, ih⟩

theorem count_of_counts {k : CommandCount} {text : List Char} (h : Counts k text) :
    count text = .ok k := by
  unfold count
  cases h with
  | @equal command n hequals _ =>
    have hcut : cutAt '=' (command.toList ++ '=' :: Nat.toDigits 10 n.toNat) =
        some (command.toList, Nat.toDigits 10 n.toNat) := cutAt_eq_some_iff.2 ⟨rfl, hequals⟩
    have hslash : cutAt '/' (Nat.toDigits 10 n.toNat) = none :=
      cutAt_eq_none_iff.2 (notMem_toDigits (by decide) _)
    simp only [hcut, hslash, Option.bind_eq_bind, Option.bind_some, Option.getD_none,
      unsigned32?_toDigits, String.ofList_toList]
    rfl
  | @both command success total hequals _ =>
    have hcut : cutAt '=' (command.toList ++
        '=' :: (Nat.toDigits 10 success.toNat ++ '/' :: Nat.toDigits 10 total.toNat)) =
        some (command.toList, Nat.toDigits 10 success.toNat ++ '/' :: Nat.toDigits 10 total.toNat) :=
      cutAt_eq_some_iff.2 ⟨rfl, hequals⟩
    have hslash : cutAt '/' (Nat.toDigits 10 success.toNat ++ '/' :: Nat.toDigits 10 total.toNat) =
        some (Nat.toDigits 10 success.toNat, Nat.toDigits 10 total.toNat) :=
      cutAt_eq_some_iff.2 ⟨rfl, notMem_toDigits (by decide) _⟩
    simp only [hcut, hslash, Option.bind_eq_bind, Option.bind_some, Option.getD_some,
      unsigned32?_toDigits, String.ofList_toList]
    rfl

theorem mapM_count {counts : List CommandCount} {texts : List (List Char)}
    (h : List.Forall₂ Counts counts texts) : texts.mapM count = .ok counts := by
  induction h with
  | nil => rfl
  | cons hcount _ ih =>
    rw [List.mapM_cons, count_of_counts hcount, ih]
    rfl

end Server

/-! ## Message ids -/

/-- The texts for a message id, and whether each is badly written: in brackets, bare, empty, with a
bracket that stays open, or with more after the brackets. -/
inductive Cleanup.Notes : String → Bool → List Char → Prop where
  | bracketed {id : String} (hid : '>' ∉ id.toList) : Notes id false ('<' :: (id.toList ++ ['>']))
  | bare {id : String} (hne : id ≠ "") (hid : id.toList.head? ≠ some '<') : Notes id false id.toList
  | empty : Notes "" true []
  | unterminated {id : String} (hid : '>' ∉ id.toList) : Notes id true ('<' :: id.toList)
  | trailed {id : String} {rest : List Char} (hid : '>' ∉ id.toList) (hrest : rest ≠ []) :
    Notes id true ('<' :: (id.toList ++ '>' :: rest))

theorem Cleanup.messageId_of_notes {id : String} {corrupted : Bool} {text : List Char}
    (h : Notes id corrupted text) : messageId text = (id.toList, corrupted) := by
  cases h with
  | bracketed hid =>
    have hcut : cutAt '>' (id.toList ++ ['>']) = some (id.toList, []) :=
      cutAt_eq_some_iff.2 ⟨rfl, hid⟩
    simp only [messageId, hcut]
    rfl
  | bare hne hid =>
    obtain ⟨c, rest, htext⟩ :=
      List.exists_cons_of_ne_nil (mt String.toList_eq_nil_iff.1 hne)
    rw [htext] at hid ⊢
    unfold messageId
    split
    · rename_i hnil
      cases hnil
    · rename_i inner heq
      rw [heq] at hid
      exact absurd rfl hid
    · rfl
  | empty => rfl
  | unterminated hid =>
    simp only [messageId, cutAt_eq_none_iff.2 hid]
  | @trailed _ rest hid hrest =>
    have hcut : cutAt '>' (id.toList ++ '>' :: rest) = some (id.toList, rest) :=
      cutAt_eq_some_iff.2 ⟨rfl, hid⟩
    simp only [messageId, hcut, List.isEmpty_eq_false_iff.2 hrest, Bool.not_false]

/-! ## Texts -/

/-- A text about the message of a queue. -/
def textAbout (queue : String) (rest : List Char) : List Char := queue.toList ++ (": ".toList ++ rest)

/-- The texts that a program logs for an event. -/
inductive Agent.Writes : Agent → Payload → List Char → Prop where
  | queued {queue : String} {sender : Address} {size : UInt64} {recipients : UInt32}
    {written : List Char} (hqueue : isQueueId queue.toList = true)
    (hsender : sender.Spelled written) :
    Writes .queueManager (.queued ⟨queue, sender, size, recipients⟩)
      (textAbout queue ("from=".toList ++ '<' :: (written ++ '>' :: (", ".toList ++
        ("size=".toList ++ (Nat.toDigits 10 size.toNat ++ (", ".toList ++
          ("nrcpt=".toList ++ (Nat.toDigits 10 recipients.toNat ++ " (queue active)".toList)))))))))
  | removed {queue : String} (hqueue : isQueueId queue.toList = true) :
    Writes .queueManager (.removed queue) (textAbout queue "removed".toList)
  | expired {queue message : String} {sender : Address} {forced : Bool} {written more : List Char}
    (hqueue : isQueueId queue.toList = true) (hsender : sender.Spelled written)
    (hmessage : message.toList = (if forced then "force-expired, " else "expired, ").toList ++ more) :
    Writes .queueManager (.expired ⟨queue, sender, forced, message⟩)
      (textAbout queue ("from=".toList ++ '<' :: (written ++ '>' :: (", ".toList ++
        ("status=".toList ++ message.toList)))))
  | connected {client : Client} {name : List Char} (hclient : client.Written name) :
    Writes .server (.connected client) ("connect from ".toList ++ name)
  | disconnected {client : Client} {counts : List CommandCount} {name : List Char}
    {texts : List (List Char)} (hclient : client.Written name) (hblank : ' ' ∉ client.host.toList)
    (hcounts : List.Forall₂ Server.Counts counts texts) :
    Writes .server (.disconnected client counts)
      ("disconnect from ".toList ++ (name ++ texts.flatMap (' ' :: ·)))
  | lostConnection {after : String} {client : Client} {name : List Char}
    (hclient : client.Written name)
    (hafter : ¬ " from ".toList <:+: after.toList ++ " from".toList) :
    Writes .server (.lostConnection after client)
      ("lost connection after ".toList ++ (after.toList ++ (" from ".toList ++ name)))
  | accepted {queue : String} {client : Client} {name : List Char}
    (hqueue : isQueueId queue.toList = true) (hclient : client.Written name)
    (hcomma : ¬ ", ".toList <:+: client.host.toList) :
    Writes .server (.accepted queue client) (textAbout queue ("client=".toList ++ name))
  | acceptedWith {queue : String} {client : Client} {name more : List Char}
    (hqueue : isQueueId queue.toList = true) (hclient : client.Written name)
    (hcomma : ¬ ", ".toList <:+: client.host.toList) :
    Writes .server (.accepted queue client)
      (textAbout queue ("client=".toList ++ (name ++ (", ".toList ++ more))))
  | rejected {queue message : String} (hqueue : isQueueId queue.toList = true)
    (hne : queue ≠ "NOQUEUE") :
    Writes .server (.rejected (some queue) message)
      (textAbout queue ("reject: ".toList ++ message.toList))
  | rejectedUnqueued {message : String} :
    Writes .server (.rejected none message) (textAbout "NOQUEUE" ("reject: ".toList ++ message.toList))
  | messageId {queue id : String} {corrupted : Bool} {written : List Char}
    (hqueue : isQueueId queue.toList = true) (hid : Cleanup.Notes id corrupted written) :
    Writes .cleanup (.messageId ⟨queue, id, corrupted⟩)
      (textAbout queue ("message-id=".toList ++ written))
  | milterRejected {queue message : String} (hqueue : isQueueId queue.toList = true) :
    Writes .cleanup (.milterRejected queue message)
      (textAbout queue ("milter-reject: ".toList ++ message.toList))
  | pickup {queue : String} {uid : UInt32} {sender : Address} {written : List Char}
    (hqueue : isQueueId queue.toList = true) (hsender : sender.Spelled written) :
    Writes .pickup (.pickup ⟨queue, uid, sender⟩)
      (textAbout queue ("uid=".toList ++ (Nat.toDigits 10 uid.toNat ++
        ' ' :: ("from=".toList ++ '<' :: (written ++ ['>'])))))
  | bounceCreated {queue child : String} (hqueue : isQueueId queue.toList = true)
    (hchild : isQueueId child.toList = true) :
    Writes .bounce (.bounceCreated queue child)
      (textAbout queue ("sender non-delivery notification: ".toList ++ child.toList))
  | version {version : String} (hne : version ≠ "")
    (hcut : ¬ ", configuration ".toList <:+: version.toList) :
    Writes .master (.version version "") ("daemon started -- version ".toList ++ version.toList)
  | versionWith {version configuration : String} (hne : version ≠ "")
    (hcut : ¬ ", configuration ".toList <:+: version.toList) :
    Writes .master (.version version configuration)
      ("daemon started -- version ".toList ++
        (version.toList ++ (", configuration ".toList ++ configuration.toList)))

/-! ## Reading -/

theorem queue?_about {queue : String} (h : isQueueId queue.toList = true) (rest : List Char) :
    queue? (textAbout queue rest) = some (queue, rest) := queue?_append h rest

theorem QueueManager.read_of_writes {p : Payload} {text : List Char}
    (h : Agent.Writes .queueManager p text) : read text = .ok p := by
  unfold read
  cases h with
  | @queued queue sender size recipients written hqueue hsender =>
    have hsize : ¬ ", ".toList <:+: Nat.toDigits 10 size.toNat :=
      not_infix_of_notMem (notMem_toDigits (c := ',') (by decide) _) (by decide)
    have hcount : before? " (queue active)".toList
        (Nat.toDigits 10 recipients.toNat ++ " (queue active)".toList) =
        some (Nat.toDigits 10 recipients.toNat) := before?_eq_some_iff.2 rfl
    simp only [queue?_about hqueue, require_some, bind, Except.bind]
    rw [if_neg (by simp)]
    simp only [after?_append, require_some, address?_of_spelled hsender, need, skipComma_append,
      named?_append "size=" hsize, queued, hcount, bind, Except.bind, Option.bind,
      unsigned64?_toDigits, unsigned32?_toDigits]
    rfl
  | removed hqueue =>
    simp only [queue?_about hqueue, require_some, bind, Except.bind]
    rfl
  | @expired queue message sender forced written more hqueue hsender hmessage =>
    have hsize (rest : List Char) : named? "size=" ("status=".toList ++ rest) = none := rfl
    have hforced : forced? message.toList = some forced := by
      rw [hmessage]
      unfold forced?
      cases forced with
      | true => simp only [if_true, after?_append, Option.isSome_some]
      | false =>
        have hnot : after? "force-expired, ".toList ("expired, ".toList ++ more) = none := rfl
        simp only [Bool.false_eq_true, if_false, hnot, after?_append, Option.isSome_some,
          Option.isSome_none, if_true]
    simp only [queue?_about hqueue, require_some, bind, Except.bind]
    rw [if_neg (by simp)]
    simp only [after?_append, require_some, address?_of_spelled hsender, need, skipComma_append,
      hsize, hforced, String.ofList_toList]
    rfl

namespace Server

theorem disconnected_of_written {c : Client} {counts : List CommandCount} {name : List Char}
    {texts : List (List Char)} (hclient : c.Written name) (hblank : ' ' ∉ c.host.toList)
    (hcounts : List.Forall₂ Counts counts texts) :
    disconnected (name ++ texts.flatMap (' ' :: ·)) = .ok (.disconnected c counts) := by
  have hname := hclient.notMem hblank
  have hcut : ∃ rest, (cutAt ' ' (name ++ texts.flatMap (' ' :: ·))).getD
      (name ++ texts.flatMap (' ' :: ·), []) = (name, rest) ∧ words rest = texts := by
    have hwords := words_flatMap_blank (Counts.words hcounts)
    cases texts with
    | nil => exact ⟨[], by simp [cutAt_eq_none_iff.2 hname], rfl⟩
    | cons text texts =>
      rw [List.flatMap_cons, List.cons_append] at hwords ⊢
      rw [words_cons_of_isBlank (by decide)] at hwords
      exact ⟨_, by rw [cutAt_eq_some_iff.2 ⟨rfl, hname⟩]; rfl, hwords⟩
  obtain ⟨rest, hcut, hwords⟩ := hcut
  unfold disconnected
  rw [hcut]
  simp only [client_of_written hclient, hwords, mapM_count hcounts, bind, Except.bind]
  rfl

/-- A command and its client are found where they were written exactly if the words between them stand
nowhere before. -/
theorem lostConnection_eq_ok_iff {c : Client} {after : String} {name : List Char}
    (hclient : c.Written name) :
    lostConnection (after.toList ++ (" from ".toList ++ name)) = .ok (.lostConnection after c) ↔
      ¬ " from ".toList <:+: after.toList ++ " from".toList := by
  have hiff : cutText " from ".toList (after.toList ++ (" from ".toList ++ name)) =
      some (after.toList, name) ↔ _ := cutText_append_iff (by decide)
  refine Iff.trans ⟨fun h => ?_, fun hcut => ?_⟩ hiff
  · unfold lostConnection at h
    obtain ⟨⟨front, rest⟩, hcut, h⟩ := exists_of_bind_eq_ok h
    obtain ⟨client, -, h⟩ := exists_of_bind_eq_ok h
    have hcut := eq_some_of_require hcut
    obtain rfl : String.ofList front = after := by
      simpa using congrArg (fun p : Payload => match p with
        | .lostConnection after _ => after
        | _ => "") (Except.ok.inj h)
    have heq := eq_append_of_cutText hcut
    rw [String.toList_ofList, List.append_assoc] at heq
    rw [hcut, String.toList_ofList, List.append_cancel_left (List.append_cancel_left heq)]
  · unfold lostConnection
    simp only [hcut, require_some, client_of_written hclient, bind, Except.bind,
      String.ofList_toList]
    rfl

theorem aboutQueue_client {c : Client} {name : List Char} (queue : String)
    (hclient : c.Written name) (hcomma : ¬ ", ".toList <:+: c.host.toList) :
    aboutQueue queue ("client=".toList ++ name) = .ok (.accepted queue c) ∧
      ∀ more, aboutQueue queue ("client=".toList ++ (name ++ (", ".toList ++ more))) =
        .ok (.accepted queue c) := by
  have hname := hclient.not_infix hcomma
  have hreject (rest : List Char) : after? "reject: ".toList ("client=".toList ++ rest) = none := rfl
  have hnone : cutText [',', ' '] name = none := cutText_eq_none_iff.2 hname
  have hsome (more : List Char) : cutText [',', ' '] (name ++ (", ".toList ++ more)) =
      some (name, more) := cutText_append (by decide) (by decide) hname
  refine ⟨?_, fun more => ?_⟩
  · unfold aboutQueue
    simp only [hreject, after?_append, require_some, hnone, Option.map_none, Option.getD_none,
      client_of_written hclient, bind, Except.bind]
    rfl
  · unfold aboutQueue
    simp only [hreject, after?_append, require_some, hsome, Option.map_some, Option.getD_some,
      client_of_written hclient, bind, Except.bind]
    rfl

/-- What is said of a queue is not what is refused without one, unless the queue is named for that. -/
theorem after?_unqueued_eq_none {queue : String} {rest : List Char}
    (hqueue : isQueueId queue.toList = true)
    (hnot : queue ≠ "NOQUEUE" ∨ after? "reject: ".toList rest = none) :
    after? "NOQUEUE: reject: ".toList (textAbout queue rest) = none := by
  refine Option.eq_none_iff_forall_ne_some.2 fun tail htail => ?_
  have heq : queue.toList ++ (": ".toList ++ rest) = "NOQUEUE: reject: ".toList ++ tail :=
    after?_eq_some_iff.1 htail
  have hword : isQueueId "NOQUEUE".toList = true := by decide
  obtain ⟨hname, hrest⟩ := queue_append_inj hqueue hword heq
  rcases hnot with hne | hnone
  · exact hne hname
  · rw [hrest] at hnone
    cases hnone

theorem read_about {queue : String} {rest : List Char} (hqueue : isQueueId queue.toList = true)
    (hnot : queue ≠ "NOQUEUE" ∨ after? "reject: ".toList rest = none) :
    read (textAbout queue rest) = aboutQueue queue rest := by
  have hother (start : List Char) (hstart : (start.dropWhile isAlphanumeric).head? = some ' ') :
      after? start (textAbout queue rest) = none := after?_queue_eq_none hqueue hstart (by decide) rest
  unfold read
  simp only [hother "connect from ".toList (by decide), hother "disconnect from ".toList (by decide),
    hother "lost connection after ".toList (by decide),
    after?_unqueued_eq_none hqueue hnot, queue?_about hqueue, require_some]
  rfl

theorem read_of_writes {p : Payload} {text : List Char} (h : Agent.Writes .server p text) :
    read text = .ok p := by
  cases h with
  | connected hclient =>
    unfold read
    simp only [after?_append, client_of_written hclient]
    rfl
  | disconnected hclient hblank hcounts =>
    exact disconnected_of_written hclient hblank hcounts
  | lostConnection hclient hafter => exact (lostConnection_eq_ok_iff hclient).2 hafter
  | accepted hqueue hclient hcomma =>
    rw [read_about hqueue (.inr rfl)]
    exact (aboutQueue_client _ hclient hcomma).1
  | acceptedWith hqueue hclient hcomma =>
    rw [read_about hqueue (.inr rfl)]
    exact (aboutQueue_client _ hclient hcomma).2 _
  | rejected hqueue hne =>
    rw [read_about hqueue (.inl hne)]
    unfold aboutQueue
    simp only [after?_append, String.ofList_toList]
  | @rejectedUnqueued message =>
    show Except.ok (Payload.rejected none (String.ofList message.toList)) = _
    rw [String.ofList_toList]

end Server

theorem Cleanup.read_of_writes {p : Payload} {text : List Char} (h : Agent.Writes .cleanup p text) :
    read text = .ok p := by
  unfold read
  cases h with
  | messageId hqueue hid =>
    simp only [queue?_about hqueue, require_some, bind, Except.bind, after?_append,
      messageId_of_notes hid, String.ofList_toList]
    rfl
  | milterRejected hqueue =>
    have hid (rest : List Char) :
        after? "message-id=".toList ("milter-reject: ".toList ++ rest) = none := rfl
    simp only [queue?_about hqueue, require_some, bind, Except.bind, hid, after?_append,
      String.ofList_toList]
    rfl

theorem Pickup.read_of_writes {p : Payload} {text : List Char} (h : Agent.Writes .pickup p text) :
    read text = .ok p := by
  cases h with
  | @pickup queue uid sender written hqueue hsender =>
    have hcut (rest : List Char) : cutAt ' ' (Nat.toDigits 10 uid.toNat ++ ' ' :: rest) =
        some (Nat.toDigits 10 uid.toNat, rest) :=
      cutAt_eq_some_iff.2 ⟨rfl, notMem_toDigits (by decide) _⟩
    unfold read
    simp only [queue?_about hqueue, require_some, bind, Except.bind, after?_append, hcut,
      Option.bind_some, address?_of_spelled hsender, unsigned32?_toDigits]
    rfl

theorem Bounce.read_of_writes {p : Payload} {text : List Char} (h : Agent.Writes .bounce p text) :
    read text = .ok p := by
  cases h with
  | bounceCreated hqueue hchild =>
    unfold read
    simp only [queue?_about hqueue, require_some, bind, Except.bind, after?_append, hchild, if_true,
      String.ofList_toList]
    rfl

namespace Master

theorem read_started_iff {rest : List Char} {version configuration : String} :
    read ("daemon started -- version ".toList ++ rest) = .ok (.version version configuration) ↔
      (cutText ", configuration ".toList rest).getD (rest, []) =
        (version.toList, configuration.toList) ∧ version ≠ "" := by
  unfold read
  simp only [after?_append, require_some, bind, Except.bind]
  obtain ⟨front, back⟩ := (cutText ", configuration ".toList rest).getD (rest, [])
  have hlist {cs : List Char} {s : String} : String.ofList cs = s ↔ cs = s.toList := by
    rw [← String.toList_inj, String.toList_ofList]
  by_cases hfront : front = []
  · have hversion : [] = version.toList → version = "" :=
      fun h => String.toList_eq_nil_iff.1 h.symm
    simp only [hfront, List.isEmpty_nil, if_true, reduceCtorEq, Prod.mk.injEq, false_iff]
    exact fun h => h.2 (hversion h.1.1)
  · have hne : front = version.toList → version ≠ "" := by
      rintro rfl rfl
      exact hfront rfl
    simp only [List.isEmpty_eq_false_iff.2 hfront, Bool.false_eq_true, if_false, pure, Except.pure,
      Except.ok.injEq, Payload.version.injEq, Prod.mk.injEq, hlist]
    exact ⟨fun h => ⟨h, hne h.1⟩, fun h => h.1⟩

/-- A version without a configuration is regained exactly if it does not name one itself. -/
theorem read_version_iff {version : String} :
    read ("daemon started -- version ".toList ++ version.toList) = .ok (.version version "") ↔
      version ≠ "" ∧ ¬ ", configuration ".toList <:+: version.toList := by
  rw [read_started_iff, and_comm, ← cutText_eq_none_iff]
  refine and_congr_right fun _ => ?_
  cases hcut : cutText ", configuration ".toList version.toList with
  | none => simp
  | some parts =>
    have hlength := congrArg List.length (eq_append_of_cutText hcut)
    simp only [List.length_append] at hlength
    refine iff_of_false (fun h => ?_) (by simp)
    rw [← show parts.1 = version.toList from congrArg Prod.fst h] at hlength
    have hpos : 0 < ", configuration ".toList.length := by decide
    omega

theorem read_versionWith_iff {version configuration : String} :
    read ("daemon started -- version ".toList ++
        (version.toList ++ (", configuration ".toList ++ configuration.toList))) =
      .ok (.version version configuration) ↔
      version ≠ "" ∧ ¬ ", configuration ".toList <:+: version.toList := by
  rw [read_started_iff, and_comm]
  refine and_congr_right fun _ => ?_
  generalize hrest : version.toList ++ (", configuration ".toList ++ configuration.toList) = rest
  have hsome : cutText ", configuration ".toList rest =
      some (version.toList, configuration.toList) ↔
      ¬ ", configuration ".toList <:+: version.toList := by
    rw [cutText_eq_some_iff (by decide) (by decide), ← hrest]
    simp only [List.append_assoc, true_and]
  rw [← hsome]
  cases hcut : cutText ", configuration ".toList rest with
  | none =>
    refine absurd ?_ (cutText_eq_none_iff.1 hcut)
    exact ⟨version.toList, configuration.toList, by rw [← hrest, List.append_assoc]⟩
  | some parts => simp

theorem read_of_writes {p : Payload} {text : List Char} (h : Agent.Writes .master p text) :
    read text = .ok p := by
  cases h with
  | version hne hcut => exact read_version_iff.2 ⟨hne, hcut⟩
  | versionWith hne hcut => exact read_versionWith_iff.2 ⟨hne, hcut⟩

end Master

theorem Agent.read_of_writes {agent : Agent} {p : Payload} {text : List Char}
    (h : agent.Writes p text) : agent.read text = .ok p := by
  cases agent with
  | queueManager => exact QueueManager.read_of_writes h
  | server => exact Server.read_of_writes h
  | cleanup => exact Cleanup.read_of_writes h
  | pickup => exact Pickup.read_of_writes h
  | bounce => exact Bounce.read_of_writes h
  | master => exact Master.read_of_writes h
  | delivery => cases h
  | relay => cases h

/-- **Events are regained.** Under the header of a process of the mail server, whatever a daemon logs
for an event is read as exactly this event. The two free texts that end at words of the line, the last
command of a lost connection and the version of the mail system, are regained exactly if these words
do not stand in them. -/
theorem event_regained :
    (∀ (h : Header) (agent : Agent) (p : Payload) (text : List Char),
      agent.Wrote h → agent.Writes p text → Payload.read h text = .ok p) ∧
    (∀ (h : Header) (after : String) (client : Client) (name : List Char),
      Agent.server.Wrote h → client.Written name →
        (Payload.read h ("lost connection after ".toList ++
            (after.toList ++ (" from ".toList ++ name))) = .ok (.lostConnection after client) ↔
          ¬ " from ".toList <:+: after.toList ++ " from".toList)) ∧
    ∀ (h : Header) (version configuration : String), Agent.master.Wrote h → version ≠ "" →
      (Payload.read h ("daemon started -- version ".toList ++
          (version.toList ++ (", configuration ".toList ++ configuration.toList))) =
        .ok (.version version configuration) ↔
        ¬ ", configuration ".toList <:+: version.toList) := by
  have hread {h : Header} {agent : Agent} (hwrote : agent.Wrote h) (text : List Char) :
      Payload.read h text = agent.read text := by
    unfold Payload.read
    rw [Agent.ofHeader?_eq_some_iff.2 hwrote]
  refine ⟨fun h agent p text hwrote hwrites => ?_, fun h after client name hwrote hclient => ?_,
    fun h version configuration hwrote hne => ?_⟩
  · rw [hread hwrote]
    exact Agent.read_of_writes hwrites
  · rw [hread hwrote]
    exact Server.lostConnection_eq_ok_iff hclient
  · rw [hread hwrote]
    exact Master.read_versionWith_iff.trans (and_iff_right hne)

/-- A daemon of two parts in a named instance. -/
def submissionServer : Header := ⟨"mail", "postfix-out", "submission/smtpd", some 42, none⟩

/-- A client that said goodbye is regained with what it did, one command of which it never named. -/
theorem goodbye_regained :
    Payload.read submissionServer
        "disconnect from gate.example[2001:DB8::1] ehlo=1 rcpt=0/2 =7 commands=8/10".toList =
      .ok (.disconnected
        ⟨"gate.example", some (.v6 ⟨[0x2001, 0xDB8, 0, 0, 0, 0, 0, 1], rfl⟩)⟩
        [⟨"ehlo", 1, 1⟩, ⟨"rcpt", 0, 2⟩, ⟨"", 7, 7⟩, ⟨"commands", 8, 10⟩]) := by
  have hclient : Client.Written
      ⟨"gate.example", some (.v6 ⟨[0x2001, 0xDB8, 0, 0, 0, 0, 0, 1], rfl⟩)⟩
      ("gate.example".toList ++ '[' :: ("2001:DB8::1".toList ++ [']'])) :=
    .known (by decide) (by decide)
  have hcounts : List.Forall₂ Server.Counts
      [⟨"ehlo", 1, 1⟩, ⟨"rcpt", 0, 2⟩, ⟨"", 7, 7⟩, ⟨"commands", 8, 10⟩]
      ["ehlo=1".toList, "rcpt=0/2".toList, "=7".toList, "commands=8/10".toList] :=
    .cons (.equal (by decide) (by simp [isBlank])) (.cons (.both (by decide) (by simp [isBlank]))
      (.cons (.equal (by decide) (by simp)) (.cons (.both (by decide) (by simp [isBlank])) .nil)))
  exact event_regained.1 submissionServer .server _ _
    ⟨.inr (.inl ⟨"out".toList, rfl⟩), by decide⟩ (.disconnected hclient (by decide) hcounts)

end MailTrace
