import MailTrace.Proofs.Payload.Queues
import MailTrace.Proofs.Tracker.Silence

/-!
# Messages under what is no queue id

The queue ids of the messages that lines are about are checked when the lines are read. Where a message
went on in another queue is not, so a message may be opened under what is no queue id. No line is about
such a message: none adds to it, and none lets it leave its queue.

1. A record opens messages that it is about, and one that it hands on to (`opened_or_handedOnTo`), and
   the latter whatever text it is handed on to (`contains_handle_of_mentions`).
2. No record but a prune closes a message under what is no queue id (`life_take_of_stray`), because
   none of them ever leaves its queue (`StraysStay`).
-/

namespace MailTrace.Tracker

open MailTrace.Net MailTrace.Time

/-! ## Messages that are opened -/

/-- A message is open under a key after some of the records. -/
def Opened (settings : Settings) (records : List Record) (key : QueueKey) : Prop :=
  ∃ before, before <+: records ∧ (State.empty.run settings before).1.entries.contains key = true

/-- One of the records hands on to the message under a key. -/
def HandedOnTo (settings : Settings) (records : List Record) (key : QueueKey) : Prop :=
  ∃ before r after, records = before ++ r :: after ∧
    (handedOnFrom? (State.empty.run settings before).1.entries r key).isSome = true

section Opened

variable {settings : Settings} {s : State} {entries : Entries} {key p : QueueKey} {r : Record}
  {records : List Record} {a : Attempt}

/-- A record is about the messages that it names. -/
theorem exists_ownQueue_of_named (h : key ∈ named r) :
    ∃ queue ∈ r.payload.ownQueues, key = ⟨r.header.host, queue⟩ := by
  obtain ⟨queue, hqueue, rfl⟩ := List.mem_map.1 h
  refine ⟨queue, ?_, rfl⟩
  generalize r.payload = payload at hqueue ⊢
  cases payload <;> first | exact hqueue | exact absurd hqueue List.not_mem_nil

theorem queueId_of_named (hr : r.IsRead) (h : key ∈ named r) : QueueId key.queue := by
  obtain ⟨queue, hqueue, rfl⟩ := exists_ownQueue_of_named h
  exact hr.identified queue hqueue

theorem exists_handOff_of_handedOnFrom? (h : handedOnFrom? entries r key = some p) :
    ∃ a, r.payload = .attempt a ∧ a.handOff? = some key.queue := by
  unfold handedOnFrom? at h
  split at h
  · rename_i a ha
    dsimp only at h
    split at h
    · rename_i hcond
      obtain ⟨-, -, hchild, -⟩ := hcond
      obtain ⟨queue, hqueue, rfl⟩ := Option.map_eq_some_iff.1 hchild
      exact ⟨a, ha, hqueue⟩
    · cases h
  · cases h

theorem ne_of_handOff {queue : String} (hr : r.IsRead) (ha : r.payload = .attempt a)
    (h : a.handOff? = some queue) : queue ≠ "" := by
  obtain ⟨q, hq, rfl⟩ := Option.map_eq_some_iff.1 h
  obtain ⟨-, -, -, -, -, -, -, -, -, -, hne⟩ :=
    (hr.requeues ha q).1 (Option.filter_eq_some_iff.1 hq).1
  exact hne

theorem HandedOnTo.append (h : HandedOnTo settings records key) (rest : List Record) :
    HandedOnTo settings (records ++ rest) key := by
  obtain ⟨before, r, after, rfl, hfrom⟩ := h
  exact ⟨before, r, after ++ rest, by simp, hfrom⟩

/-- An open message is under a queue id, or was handed on to. -/
theorem opened_or_handedOnTo (hread : ∀ r ∈ records, r.IsRead)
    (h : (State.empty.run settings records).1.entries.contains key = true) :
    QueueId key.queue ∨ HandedOnTo settings records key := by
  induction records using List.reverseRecOn with
  | nil => exact absurd h Bool.false_ne_true
  | append_singleton records r ih =>
    rw [State.run_concat] at h
    have htake := (contains_take h).1
    have hlife := (life_take (State.empty.run settings records).1.entries r key).resolve_left
      fun hnone => lifeAt_ne_none htake hnone.1
    rw [contains_eq_lifeAt, hlife] at htake
    by_cases hnamed : key ∈ named r
    · exact .inl (queueId_of_named (hread r (by simp)) hnamed)
    cases hfrom : handedOnFrom? (State.empty.run settings records).1.entries r key with
    | some p => exact .inr ⟨records, r, [], rfl, by rw [hfrom]; rfl⟩
    | none =>
      rw [lifeAfter_of_none hfrom, if_neg hnamed, ← contains_eq_lifeAt] at htake
      exact (ih (fun b hb => hread b (List.mem_append_left _ hb)) htake).imp_right (·.append [r])

theorem le_lastActivity_mention (time : Instant) (origin : Option QueueKey) (l : Option Life) :
    time ≤ (Life.mention time origin l).lastActivity := by
  cases l with
  | none => exact Int.le_refl time
  | some l => exact Int.le_max_right ..

/-- A message that an attempt mentions is open after it. -/
theorem contains_handle_of_mentions (ha : r.payload = .attempt a)
    (h : mentions s.entries r key = true) :
    (s.handle settings r).1.entries.contains key = true := by
  have htake : (take s.entries r).1 = (attempt s.entries r.header.host r.header.daemonName a r.ref).1 := by
    rw [take, ha]
  have hlife : lifeAt (take s.entries r).1 key = lifeAfter s.entries r key := by
    rw [htake, lifeAt_attempt ha]
  rw [lifeAfter, if_pos h] at hlife
  rw [← Bool.not_eq_false, contains_handle_eq_false_iff hlife]
  rintro ⟨-, hlong⟩
  have hactive := Int.sub_nonpos_of_le
    (le_lastActivity_mention r.time (handedOnFrom? s.entries r key) (lifeAt s.entries key))
  exact absurd hlong (Int.not_lt.2 (Int.le_trans hactive (Int.natCast_nonneg _)))

theorem HandedOnTo.exists_handOff (h : HandedOnTo settings records key) :
    ∃ r ∈ records, ∃ a, r.payload = .attempt a ∧ a.handOff? = some key.queue := by
  obtain ⟨before, r, after, rfl, hfrom⟩ := h
  obtain ⟨p, hp⟩ := Option.isSome_iff_exists.1 hfrom
  exact ⟨r, by simp, exists_handOff_of_handedOnFrom? hp⟩

theorem HandedOnTo.opened (h : HandedOnTo settings records key) : Opened settings records key := by
  obtain ⟨before, r, after, rfl, hfrom⟩ := h
  obtain ⟨p, hp⟩ := Option.isSome_iff_exists.1 hfrom
  obtain ⟨a, ha, -⟩ := exists_handOff_of_handedOnFrom? hp
  refine ⟨before ++ [r], ⟨after, by simp⟩, ?_⟩
  rw [State.run_concat]
  refine contains_handle_of_mentions ha ?_
  rw [mentions, hfrom, Bool.or_true]

theorem Opened.queueId_or_handedOnTo (h : Opened settings records key)
    (hread : ∀ r ∈ records, r.IsRead) : QueueId key.queue ∨ HandedOnTo settings records key := by
  obtain ⟨before, ⟨after, rfl⟩, hopen⟩ := h
  refine (opened_or_handedOnTo (fun r hr => ?_) hopen).imp_right (·.append after)
  exact hread r (List.mem_append_left _ hr)

theorem Opened.ne_empty (h : Opened settings records key) (hread : ∀ r ∈ records, r.IsRead) :
    key.queue ≠ "" := by
  rcases h.queueId_or_handedOnTo hread with hid | hfrom
  · exact hid.nonempty
  · obtain ⟨r, hr, a, ha, hqueue⟩ := hfrom.exists_handOff
    exact ne_of_handOff (hread r hr) ha hqueue

/-- The line of some attempt opens a message under any text but the empty one. -/
theorem opened_filteredInto (settings : Settings) (hr : r.payload = .attempt (filteredInto p.queue))
    (hhost : p.host = r.header.host) : Opened settings [r] p := by
  refine ⟨[r], List.prefix_rfl, contains_handle_of_mentions (s := .empty) hr ?_⟩
  by_cases hown : p ∈ named r
  · rw [mentions, decide_eq_true hown, Bool.true_or]
  have hne : p ≠ ⟨r.header.host, (filteredInto p.queue).queue⟩ := by
    rwa [named_attempt hr, List.mem_singleton] at hown
  have hfresh : Fresh (standingAt State.empty.entries ⟨r.header.host, (filteredInto p.queue).queue⟩
      (filteredInto p.queue).recipient) := trivial
  have hchild : (filteredInto p.queue).handOff? = some p.queue := rfl
  have hsent : (filteredInto p.queue).status ≠ .deferred := show Status.sent ≠ .deferred by decide
  have hfrom := handedOnFrom?_of_handOff p hr hfresh hsent hchild
  rw [if_pos ⟨by rw [← hhost], hne⟩] at hfrom
  rw [mentions, hfrom]
  exact Bool.or_true _

end Opened

/-! ## Messages under what is no queue id -/

/-- No message under what is no queue id has left its queue. -/
abbrev StraysStay (entries : Entries) : Prop :=
  Every (fun key e => ¬ QueueId key.queue → e.removed = false) entries

section Strays

variable {settings : Settings} {s : State} {entries : Entries} {key q : QueueKey} {time : Instant}
  {f : Entry → Entry} {r : Record} {records : List Record} {l : Life}

theorem StraysStay.touch (h : StraysStay entries) (hf : ∀ e, (f e).removed = e.removed) :
    StraysStay (touch entries q time f) :=
  Every.touch h (fun _ => rfl) fun _ he hq => (hf _).trans (he hq)

theorem StraysStay.modify (h : StraysStay entries) (hf : ∀ e, (f e).removed = e.removed) :
    StraysStay (entries.modify q f) :=
  Every.modify h fun e he hq => (hf e).trans (he hq)

theorem StraysStay.shrunk {entries' : Entries} (h : StraysStay entries)
    (hs : Shrunk entries entries') : StraysStay entries' :=
  Every.shrunk h hs fun _ _ _ => id

theorem StraysStay.attempt (h : StraysStay entries) {host daemon : String} {a : Attempt}
    {line : LineRef} : StraysStay (attempt entries host daemon a line).1 := by
  have htouched : StraysStay (Tracker.touch entries ⟨host, a.queue⟩ line.time id) :=
    h.touch fun _ => rfl
  have hstep := attempt_step entries host daemon a line
  generalize Tracker.attempt entries host daemon a line = out at hstep ⊢
  generalize Tracker.touch entries ⟨host, a.queue⟩ line.time id = touched at htouched hstep
  cases hstep with
  | @fresh waiting =>
    have hstand (st : Standing) : StraysStay (stand touched ⟨host, a.queue⟩ a.recipient st) :=
      htouched.modify fun _ => rfl
    have hopen := attemptOpen_step touched ⟨host, a.queue⟩ waiting a daemon line
    generalize attemptOpen touched ⟨host, a.queue⟩ waiting a daemon line = out at hopen ⊢
    cases hopen with
    | putOff => exact hstand _
    | handedOff => exact Every.handOff (hstand _) (fun _ => rfl) (fun _ => id) fun _ => id
    | settled => exact hstand _
  | handedOff => exact htouched
  | replaced => exact htouched
  | ignored => exact htouched

/-- A message leaves its queue by a record that is about it. -/
theorem StraysStay.take (h : StraysStay entries) (hr : r.IsRead) :
    StraysStay (take entries r).1 := by
  have hstep := take_step entries r
  generalize Tracker.take entries r = out at hstep ⊢
  cases hstep with
  | note hf => exact h.touch fun e => hf.removed e
  | noteBoth hf hg => exact StraysStay.touch (h.touch fun e => hf.removed e) fun e => hg.removed e
  | attempt => exact h.attempt
  | expired => exact h.modify fun _ => rfl
  | @removed queue hremoved =>
    have hid : QueueId queue := hr.identified queue (by rw [hremoved]; exact List.mem_singleton_self _)
    have hleft : StraysStay (entries.modify ⟨r.header.host, queue⟩ (leave r.time)) := by
      refine Every.modify h fun _ _ hstray => absurd hid hstray
    exact hleft.shrunk (shrunk_release _ _ _)
  | rejected => exact h.shrunk (shrunk_erase _ _)
  | relayed => exact h
  | nothing => exact h

theorem StraysStay.run (hread : ∀ r ∈ records, r.IsRead) :
    StraysStay (State.empty.run settings records).1.entries :=
  State.run_induction (I := fun s => StraysStay s.entries) every_empty fun s r hr h =>
    (h.take (hread r hr)).shrunk (shrunk_pruneIfDue settings s r)

theorem StraysStay.not_left (h : StraysStay entries) (hkey : ¬ QueueId key.queue) :
    ¬ Left entries key := by
  rintro ⟨e, he, hleft⟩
  rw [h key e he hkey] at hleft
  cases hleft

/-- No record but a prune closes a message under what is no queue id, and only handing on mentions it. -/
theorem life_take_of_stray (h : StraysStay entries) (hr : r.IsRead) (hkey : ¬ QueueId key.queue)
    (hopen : entries.contains key = true) :
    lifeAt (take entries r).1 key = lifeAfter entries r key := by
  refine (life_take entries r key).resolve_left fun ⟨_, hcloses⟩ => ?_
  have hown {queue : String} (hqueue : queue ∈ r.payload.ownQueues) : key ≠ ⟨r.header.host, queue⟩ :=
    fun heq => hkey (heq ▸ hr.identified queue hqueue)
  cases hcloses hopen with
  | rejected hpayload heq => exact hown (by rw [hpayload]; exact List.mem_singleton_self _) heq
  | @left queue hpayload hleft =>
    have hne : key ≠ ⟨r.header.host, queue⟩ := hown (by rw [hpayload]; exact List.mem_singleton_self _)
    obtain ⟨e, he, hremoved⟩ := hleft
    rw [Table.get?_modify, if_neg hne] at he
    exact h.not_left hkey ⟨e, he, hremoved⟩

/-- Nothing but its silence closes a message under what is no queue id. -/
theorem contains_handle_eq_false_iff_of_stray (h : StraysStay s.entries) (hr : r.IsRead)
    (hkey : ¬ QueueId key.queue) (hl : lifeAt s.entries key = some l) :
    (s.handle settings r).1.entries.contains key = false ↔
      s.PrunesAt settings r.time ∧ handedOnFrom? s.entries r key = none ∧
        (settings.idleTimeout : Int) < r.time - l.lastActivity := by
  have hopen : s.entries.contains key = true := by rw [contains_eq_lifeAt, hl]; rfl
  have hunnamed : key ∉ named r := fun hnamed => hkey (queueId_of_named hr hnamed)
  have hlife := life_take_of_stray h hr hkey hopen
  cases hfrom : handedOnFrom? s.entries r key with
  | none =>
    rw [lifeAfter_of_none hfrom, if_neg hunnamed, hl] at hlife
    rw [contains_handle_eq_false_iff hlife]
    simp
  | some p =>
    obtain ⟨a, ha, -⟩ := exists_handOff_of_handedOnFrom? hfrom
    have hstays : (s.handle settings r).1.entries.contains key = true :=
      contains_handle_of_mentions ha (by rw [mentions, hfrom]; exact Bool.or_true _)
    simp [hstays]

end Strays

/-- **Which keys messages are open under.** Whatever lines records were read from, the messages that
they are about have queue ids, and where an attempt says that its message went on is what its last field
says. So the keys of a run are all made of queue ids exactly if those are that some record hands on to.
A message under what is no queue id is open at some time exactly if some record hands on to it. No record
is about it, and one closes it exactly if it is time to look for silent messages, the record does not
hand on to it either, and none did within the timeout. Any text but the empty one can come to stand in
a key. -/
theorem stray_keys_iff (settings : Settings) :
    (∀ r : Record, r.IsRead → (∀ queue ∈ r.payload.ownQueues, QueueId queue) ∧
      ∀ a, r.payload = .attempt a → ∀ q, a.requeued = some q ↔
        Attempt.Requeues a.extraMessage.toList q) ∧
    (∀ records : List Record, (∀ r ∈ records, r.IsRead) →
      ((∀ key, Opened settings records key → QueueId key.queue) ↔
        ∀ key, HandedOnTo settings records key → QueueId key.queue) ∧
      ∀ key : QueueKey, ¬ QueueId key.queue →
        (Opened settings records key ↔ HandedOnTo settings records key) ∧
        ∀ before r after l, records = before ++ r :: after →
          let s := (State.empty.run settings before).1
          lifeAt s.entries key = some l →
            key ∉ named r ∧
            ((s.handle settings r).1.entries.contains key = false ↔
              s.PrunesAt settings r.time ∧ handedOnFrom? s.entries r key = none ∧
                (settings.idleTimeout : Int) < r.time - l.lastActivity)) ∧
    ∀ queue : String, queue ≠ "" ↔ ∃ records host, (∀ r ∈ records, r.IsRead) ∧
      Opened settings records ⟨host, queue⟩ := by
  refine ⟨fun r hr => ⟨hr.identified, fun a ha => hr.requeues ha⟩, fun records hread => ?_,
    fun queue => ⟨fun hne => ?_, ?_⟩⟩
  · refine ⟨⟨fun h key hfrom => h key hfrom.opened, fun h key hopened => ?_⟩, fun key hstray => ⟨?_, ?_⟩⟩
    · exact (hopened.queueId_or_handedOnTo hread).elim id (h key)
    · exact ⟨fun h => (h.queueId_or_handedOnTo hread).resolve_left hstray, HandedOnTo.opened⟩
    · rintro before r after l rfl s hl
      have hr : r.IsRead := hread r (by simp)
      have hstays : StraysStay s.entries := .run fun b hb => hread b (List.mem_append_left _ hb)
      exact ⟨fun hnamed => hstray (queueId_of_named hr hnamed),
        contains_handle_eq_false_iff_of_stray hstays hr hstray hl⟩
  · obtain ⟨r, hread, hr⟩ := exists_isRead_filteredInto hne
    exact ⟨[r], r.header.host, List.forall_mem_singleton.2 hread,
      opened_filteredInto (p := ⟨r.header.host, queue⟩) settings hr rfl⟩
  · rintro ⟨records, host, hread, hopened⟩
    exact hopened.ne_empty hread

/-- A content filter queues a message again under a queue id, and only queue ids come to stand in keys. -/
theorem stray_keys_none :
    ∃ r : Record, r.IsRead ∧ r.payload = .attempt (filteredInto "5B2A") ∧
      ∀ key, Opened .default [r] key → QueueId key.queue := by
  obtain ⟨r, hread, hr⟩ := exists_isRead_filteredInto (show "5B2A" ≠ "" by decide)
  refine ⟨r, hread, hr, ((stray_keys_iff .default).2.1 [r] (List.forall_mem_singleton.2 hread)).1.2 ?_⟩
  intro key hfrom
  obtain ⟨b, hb, a, ha, hchild⟩ := hfrom.exists_handOff
  rw [List.mem_singleton.1 hb, hr] at ha
  cases ha
  have hqueue : "5B2A" = key.queue := Option.some.inj hchild
  exact hqueue ▸ (by decide : QueueId "5B2A")

/-- A content filter queues a message again and says more after the queue id. -/
def saysMore : String :=
  "Jan 10 10:00:00 mail postfix/smtp[4]: AAA1: to=<r@y.com>, relay=127.0.0.1[127.0.0.1]:10024, " ++
    "delay=0.5, delays=0.1/0.1/0.2/0.1, dsn=2.0.0, status=sent " ++
    "(250 2.0.0 from MTA(smtp:[127.0.0.1]:10025): 250 2.0.0 Ok: queued as BBB2, please wait)"

/-- All that it says is taken for the queue id, and a message is opened under it. -/
theorem saysMore_strays :
    let t : Transformer := ⟨.classic, 0, .start 2020 2021⟩
    ∃ r, (t.transform saysMore.toList).1 = .ok r ∧
      (∃ a q, r.payload = .attempt a ∧ a.requeued = some q ∧ q.queue = "BBB2, please wait") ∧
      ¬ QueueId "BBB2, please wait" ∧ Opened .default [r] ⟨"mail", "BBB2, please wait"⟩ := by
  intro t
  obtain ⟨r, hr, hopen⟩ : ∃ r, (t.transform saysMore.toList).1 = .ok r ∧
      (State.empty.run .default [r]).1.entries.contains ⟨"mail", "BBB2, please wait"⟩ = true := by
    have hread : (t.transform saysMore.toList).1.toOption.any (fun r =>
        (State.empty.run .default [r]).1.entries.contains ⟨"mail", "BBB2, please wait"⟩) = true := by
      decide +kernel
    cases hr : (t.transform saysMore.toList).1 with
    | error f => rw [hr] at hread; cases hread
    | ok r =>
      rw [hr] at hread
      exact ⟨r, rfl, hread⟩
  have hstray : ¬ QueueId "BBB2, please wait" := by decide
  have hopened : Opened .default [r] ⟨"mail", "BBB2, please wait"⟩ := ⟨[r], List.prefix_rfl, hopen⟩
  have hfrom := (hopened.queueId_or_handedOnTo
    (List.forall_mem_singleton.2 ⟨t, _, hr⟩)).resolve_left hstray
  obtain ⟨b, hb, a, ha, hchild⟩ := hfrom.exists_handOff
  obtain ⟨q, hq, hqueue⟩ := Option.map_eq_some_iff.1 hchild
  rw [List.mem_singleton.1 hb] at ha
  exact ⟨r, hr, ⟨a, q, ha, (Option.filter_eq_some_iff.1 hq).1, hqueue⟩, hstray, hopened⟩

end MailTrace.Tracker
