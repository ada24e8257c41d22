import MailTrace.Proofs.Format.Texts
import MailTrace.Proofs.Payload.Attempts

/-!
# The queue ids of events

An event is about a message under its queue id. An attempt may tell besides that the message went on
under another one.

1. Every reader checks the queue ids of the messages that its events are about
   (`Payload.queueId_of_read`). Where an attempt says that its message went on is what its last field
   says (`Payload.requeues_of_read`), which nothing checks.
2. The event of an accepted line is that of its text (`Record.IsRead.exists_ofText`), so this holds of
   every record that a line is read as.
3. Any text but the empty one is where some line says that its message went on
   (`exists_isRead_handOff`).
-/

namespace MailTrace

open MailTrace.Net MailTrace.Text MailTrace.Field MailTrace.Time

/-! ## Queue ids -/

/-- A queue id has one to 32 ASCII letters and digits. -/
structure QueueId (queue : String) : Prop where
  nonempty : queue ≠ ""
  length_le : queue.length ≤ 32
  alphanumeric : ∀ c ∈ queue.toList, c.isAlphanum = true

theorem isAlphanumeric_iff {c : Char} : isAlphanumeric c = true ↔ c.isAlphanum = true := by
  have hdigit : c.isDigit = ('0' ≤ c && c ≤ '9') := rfl
  have hupper : c.isUpper = ('A' ≤ c && c ≤ 'Z') := Bool.decide_and _ _
  have hlower : c.isLower = ('a' ≤ c && c ≤ 'z') := rfl
  have hletter : c.isAlphanum = (c.isUpper || c.isLower || c.isDigit) := rfl
  rw [isAlphanumeric, hletter, ← hdigit, ← hupper, ← hlower]
  simp only [Bool.or_eq_true]
  exact or_assoc.trans or_comm

theorem queueId_iff {queue : String} : QueueId queue ↔ isQueueId queue.toList = true := by
  simp only [isQueueId, Bool.and_eq_true, List.all_eq_true, isAlphanumeric_iff, decide_eq_true_eq,
    Bool.not_eq_true', List.isEmpty_eq_false_iff, ne_eq, String.toList_eq_nil_iff,
    String.length_toList]
  exact ⟨fun h => ⟨⟨h.nonempty, h.length_le⟩, h.alphanumeric⟩, fun h => ⟨h.1.1, h.1.2, h.2⟩⟩

instance (queue : String) : Decidable (QueueId queue) := decidable_of_iff _ queueId_iff.symm

/-- The queue ids of the messages that an event is about: the message, and a bounce made from it. -/
def Payload.ownQueues : Payload → List String
  | bounceCreated queue child => [queue, child]
  | p => p.queue?.toList

/-! ## Readers -/

/-- The messages that an event is about have queue ids. -/
abbrev Payload.Identified (p : Payload) : Prop := ∀ queue ∈ p.ownQueues, QueueId queue

theorem gives_queue? (cs : List Char) :
    Gives (fun split => QueueId split.1) (require .unsupported (queue? cs)) :=
  .require fun ⟨_, _⟩ h => queueId_iff.2 (isQueueId_of_queue? h)

theorem queueId_of_mem_singleton {queue : String} (h : QueueId queue) :
    ∀ q ∈ [queue], QueueId q := List.forall_mem_singleton.2 h

/-- What the reader of attempts checks, and what it does not. -/
theorem Attempt.gives_read (cs : List Char) :
    Gives (fun a => QueueId a.queue ∧ a.requeued = requeued? a.extraMessage.toList) (read cs) := by
  unfold read
  refine .bind_of (gives_queue? cs) fun ⟨queue, rest⟩ hqueue => ?_
  refine .bind fun rest => .bind fun ⟨recipient, rest⟩ => .bind fun ⟨origTo, rest⟩ => ?_
  refine .bind fun ⟨relay, rest⟩ => .bind fun ⟨delay, rest⟩ => .bind fun ⟨delays, rest⟩ => ?_
  refine .bind fun ⟨dsn, rest⟩ => .bind fun rest => .bind fun status => ?_
  refine .bind fun relay => .bind fun delay => .bind fun delays => .ok ⟨hqueue, ?_⟩
  rw [String.toList_ofList]

theorem QueueManager.identified_read (cs : List Char) : Gives Payload.Identified (read cs) := by
  unfold read
  refine .bind_of (gives_queue? cs) fun ⟨queue, rest⟩ hqueue => ?_
  dsimp only
  split
  · exact .ok (queueId_of_mem_singleton hqueue)
  refine .bind fun rest => .bind fun ⟨sender, rest⟩ => ?_
  dsimp only
  split
  · refine .bind_of (Q := fun q => QueueId q.queue) ?_ fun _ hq => .ok (queueId_of_mem_singleton hq)
    exact .bind fun _ => .bind fun _ => .bind fun _ => .ok hqueue
  · exact .bind fun message => .bind fun forced => .ok (queueId_of_mem_singleton hqueue)

theorem Server.identified_read (cs : List Char) : Gives Payload.Identified (read cs) := by
  have hnone {p : Payload} (h : p.ownQueues = []) : p.Identified :=
    fun _ hmem => absurd (h ▸ hmem) List.not_mem_nil
  unfold read
  split
  · exact .bind fun client => .ok (hnone rfl)
  dsimp only
  split
  · exact .bind fun client => .bind fun counts => .ok (hnone rfl)
  split
  · exact .bind fun ⟨after, name⟩ => .bind fun client => .ok (hnone rfl)
  split
  · exact .ok (hnone rfl)
  refine .bind_of (gives_queue? cs) fun ⟨queue, rest⟩ hqueue => ?_
  dsimp only
  unfold aboutQueue
  split
  · exact .ok (queueId_of_mem_singleton hqueue)
  · exact .bind fun rest => .bind fun client => .ok (queueId_of_mem_singleton hqueue)

theorem Cleanup.identified_read (cs : List Char) : Gives Payload.Identified (read cs) := by
  refine .bind_of (gives_queue? cs) fun ⟨queue, rest⟩ hqueue => ?_
  dsimp only
  split
  · exact .ok (queueId_of_mem_singleton hqueue)
  · exact .bind fun reason => .ok (queueId_of_mem_singleton hqueue)

theorem Pickup.identified_read (cs : List Char) : Gives Payload.Identified (read cs) :=
  .bind_of (gives_queue? cs) fun _ hqueue => .bind fun _ => .bind fun _ => .bind fun _ =>
    .bind fun _ => .ok (queueId_of_mem_singleton hqueue)

/-- The queue id of a bounce is checked like that of the message. -/
theorem Bounce.identified_read (cs : List Char) : Gives Payload.Identified (read cs) := by
  refine .bind_of (gives_queue? cs) fun ⟨queue, rest⟩ hqueue => .bind fun child => ?_
  split
  · rename_i hchild
    have hchild : QueueId (String.ofList child) := by rwa [queueId_iff, String.toList_ofList]
    exact .ok (List.forall_mem_cons.2 ⟨hqueue, queueId_of_mem_singleton hchild⟩)
  · exact .error _

theorem Master.identified_read (cs : List Char) : Gives Payload.Identified (read cs) := by
  refine .bind fun rest => ?_
  dsimp only
  split
  · exact .error _
  · exact .ok fun _ hmem => absurd hmem List.not_mem_nil

namespace RelayedBounce

theorem queue_set (b : RelayedBounce) (kv : List Char × List Char) : (b.set kv).queue = b.queue := by
  unfold set
  split <;> rfl

theorem queue_foldl_set (b : RelayedBounce) (kvs : List (List Char × List Char)) :
    (kvs.foldl set b).queue = b.queue := by
  induction kvs generalizing b with
  | nil => rfl
  | cons kv kvs ih => rw [List.foldl_cons, ih, queue_set]

theorem gives_start (cs : List Char) :
    Gives (fun split => ∀ queue ∈ split.1.toList, QueueId queue)
      (require .unsupported (start cs)) := by
  refine .require fun ⟨queue, rest⟩ h => ?_
  unfold start at h
  split at h
  · cases h
    exact fun _ hmem => absurd hmem List.not_mem_nil
  · obtain ⟨⟨queue, rest⟩, hqueue, hpair⟩ := Option.map_eq_some_iff.1 h
    cases hpair
    exact queueId_of_mem_singleton (queueId_iff.2 (isQueueId_of_queue? hqueue))

theorem gives_read (cs : List Char) :
    Gives (fun b => ∀ queue ∈ b.queue.toList, QueueId queue) (read cs) := by
  refine .bind_of (gives_start cs) fun ⟨queue, rest⟩ hqueue => .bind fun kvs => ?_
  dsimp only
  split
  · exact .error _
  · refine .ok ?_
    rw [queue_foldl_set]
    exact hqueue

end RelayedBounce

theorem Agent.identified_read (agent : Agent) (text : List Char) :
    Gives Payload.Identified (agent.read text) := by
  cases agent with
  | delivery => exact .map_of (Attempt.gives_read text) fun _ h => queueId_of_mem_singleton h.1
  | queueManager => exact QueueManager.identified_read text
  | server => exact Server.identified_read text
  | cleanup => exact Cleanup.identified_read text
  | pickup => exact Pickup.identified_read text
  | bounce => exact Bounce.identified_read text
  | master => exact Master.identified_read text
  | relay => exact .map_of (RelayedBounce.gives_read text) fun _ h => h

namespace Payload

variable {h : Header} {text : List Char} {p : Payload}

theorem exists_agent_read (hp : read h text = .ok p) : ∃ agent : Agent, agent.read text = .ok p := by
  unfold read at hp
  split at hp
  · exact ⟨_, hp⟩
  · cases hp

/-- **The messages that an event is about have queue ids.** -/
theorem queueId_of_read (hp : read h text = .ok p) : p.Identified := by
  obtain ⟨agent, hread⟩ := exists_agent_read hp
  exact (agent.identified_read text).value p hread

/-- Where a message went on is what the last field of the attempt says. -/
theorem requeues_of_read {a : Attempt} (hp : read h text = .ok (.attempt a)) (r : Requeued) :
    a.requeued = some r ↔ Attempt.Requeues a.extraMessage.toList r := by
  obtain ⟨agent, hread⟩ := exists_agent_read hp
  have hagent : (attempt a).agent? = some agent := (agent.tellsOf_read text).value _ hread
  cases hagent
  have hattempt : Attempt.read text = .ok a := by
    have hread : (Attempt.read text).map attempt = .ok (attempt a) := hread
    cases hx : Attempt.read text with
    | error f => rw [hx] at hread; cases hread
    | ok b => rw [hx] at hread; cases hread; rfl
  rw [((Attempt.gives_read text).value a hattempt).2, Attempt.requeued?_eq_some_iff]

end Payload

/-! ## Lines -/

/-- A record is what some reader makes of some line. -/
def Record.IsRead (r : Record) : Prop :=
  ∃ (t : Transformer) (line : List Char), (t.transform line).1 = .ok r

/-- The event of an accepted line is that of its text. -/
theorem Record.IsRead.exists_ofText {r : Record} (h : r.IsRead) :
    ∃ text, r.payload = .ofText r.header text := by
  obtain ⟨t, line, hr⟩ := h
  obtain ⟨o, text, hsays⟩ := Transformer.exists_says hr
  rw [t.transform_of_says hsays] at hr
  cases hopening : (t.opening o).1 with
  | error f => rw [hopening] at hr; cases hr
  | ok opened =>
    rw [hopening] at hr
    cases hr
    exact ⟨text, rfl⟩

theorem Record.IsRead.identified {r : Record} (h : r.IsRead) : r.payload.Identified := by
  obtain ⟨text, htext⟩ := h.exists_ofText
  rw [htext, Payload.ofText]
  split
  · rename_i p hp
    exact Payload.queueId_of_read hp
  · exact fun _ hmem => absurd hmem List.not_mem_nil

theorem Record.IsRead.requeues {r : Record} {a : Attempt} (h : r.IsRead) (ha : r.payload = .attempt a)
    (q : Requeued) : a.requeued = some q ↔ Attempt.Requeues a.extraMessage.toList q := by
  obtain ⟨text, htext⟩ := h.exists_ofText
  rw [ha, Payload.ofText] at htext
  split at htext
  · rename_i p hp
    cases htext
    exact Payload.requeues_of_read hp q
  · cases htext

/-! ## Lines of any queue -/

/-- What a content filter on this host says that queued a message again under a text. -/
def filterAnswer (queue : String) : Requeued := ⟨250, "2.6.0", .v4 127 0 0 1, 10025, queue⟩

/-- An attempt after which a content filter queued the message again under a text. -/
def filteredInto (queue : String) : Attempt :=
  { filtered with
    extraMessage := String.ofList ('(' :: ("250".toList ++ ' ' :: ("2.6.0".toList ++ ' ' ::
      (Attempt.writeAnswer "127.0.0.1".toList "10025".toList "250 Ok: ".toList queue.toList ++
        [')']))))
    requeued := some (filterAnswer queue) }

theorem requeued?_filteredInto {queue : String} (h : queue ≠ "") :
    Attempt.requeued? (filteredInto queue).extraMessage.toList = some (filterAnswer queue) := by
  have hcode : unsigned16? "250".toList = some 250 := by decide
  have hdsn : ' ' ∉ "2.6.0".toList := by decide
  have hip : IPAddress.read? "127.0.0.1".toList = some (.v4 127 0 0 1) := by decide
  have hport : unsigned16? "10025".toList = some 10025 := by decide
  rw [filteredInto, String.toList_ofList]
  exact Attempt.requeued?_of_requeues ⟨_, _, _, _, rfl, hcode, hdsn, hip, hport,
    not_infix_of_notMem (s := 'q') (by decide) (by decide), h⟩

theorem filteredInto_writable (queue : String) : (filteredInto queue).Writable filteredForm where
  queue := filtered_writable.queue
  recipient := filtered_writable.recipient
  orig := filtered_writable.orig
  relay := filtered_writable.relay
  relay_comma := filtered_writable.relay_comma
  delay := filtered_writable.delay
  smtpd := filtered_writable.smtpd
  cleanup := filtered_writable.cleanup
  qmgr := filtered_writable.qmgr
  smtp := filtered_writable.smtp
  dsn_comma := filtered_writable.dsn_comma
  extra := by
    rw [filteredInto, String.toList_ofList]
    simp only [← List.cons_append, ← List.append_assoc]
    exact trim_cons_concat (c := '(') (d := ')') (by decide) (by decide) _

theorem read_filteredInto {queue : String} (h : queue ≠ "") :
    Attempt.read ((filteredInto queue).write filteredForm) = .ok (filteredInto queue) := by
  rw [Attempt.read_write (filteredInto_writable queue) nofun, requeued?_filteredInto h]
  rfl

/-- Any text but the empty one is where some line says that its message went on. -/
theorem exists_isRead_filteredInto {queue : String} (h : queue ≠ "") :
    ∃ r : Record, r.IsRead ∧ r.payload = .attempt (filteredInto queue) := by
  let front := "Jan 10 10:00:00 mail postfix/smtp[4]: ".toList
  let text := (filteredInto queue).write filteredForm
  let t : Transformer := ⟨.classic, 0, .start 2020 2021⟩
  have hheader : Header.Ends text "mail postfix/smtp[4]: ".toList :=
    ⟨"mail".toList, "postfix/smtp[4]".toList, [' '], rfl, by decide, by decide, .inl rfl⟩
  have hfront : Line.EndsSyslog text front :=
    ⟨[], "Jan 10 10:00:00 ".toList, "mail postfix/smtp[4]: ".toList, rfl, fun _ hc => (nomatch hc),
      by decide, by decide, hheader⟩
  obtain ⟨opened, hopened, hagent⟩ : ∃ opened, (t.transform front).1 = .ok opened ∧
      Agent.ofHeader? opened.header = some .delivery := ⟨_, rfl, by decide⟩
  have hread : (t.transform (front ++ text)).1 = .ok (opened.telling text (front ++ text)) := by
    rw [t.transform_of_says (o := ⟨[], none, front⟩) (.classic hfront)]
    exact congrArg (Except.map _) hopened
  refine ⟨_, ⟨t, _, hread⟩, ?_⟩
  show Payload.ofText opened.header text = _
  unfold Payload.ofText Payload.read
  rw [hagent]
  simp only [Agent.read]
  rw [read_filteredInto h]
  rfl

end MailTrace
