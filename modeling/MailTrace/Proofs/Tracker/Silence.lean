import Mathlib.Data.List.DropRight
import MailTrace.Proofs.Tracker.Deferrals
import MailTrace.Proofs.Tracker.Departed
import MailTrace.Proofs.Tracker.Sweeps

/-!
# Silent messages and those that were handed on from them

Whether a message is silent is judged by its own mentions alone. A message that went on in another
queue may be silent for too long while the one there is mentioned again and again. It is closed then
like any other, and the one that was handed on from it stays without its origin (`Orphans`): what is told
of it later has lost the sender and the time of the root.

1. What a record does to the last activity of a message and to what it was handed on from
   (`life_take`), and what all records of an opening come to (`chronicle_opening`).
2. So the records tell which messages lose their origin (`orphans_iff`).
3. A chain is left up to the first message that was closed (`chain_eq_rtakeWhile`), so the chains of
   which no message loses its origin are left whole.
-/

namespace MailTrace.Tracker

open MailTrace.Time

/-! ## Mentions -/

/-- The messages that a record names as active. -/
def named (r : Record) : List QueueKey :=
  let queues : List String := match r.payload with
    | .accepted queue _ | .removed queue => [queue]
    | .pickup p => [p.queue]
    | .messageId m => [m.queue]
    | .queued q => [q.queue]
    | .bounceCreated queue child => [queue, child]
    | .attempt a => [a.queue]
    | .expired e => [e.queue]
    | _ => []
  queues.map (⟨r.header.host, ·⟩)

/-- The message from which a record hands on to the one under a key: one of its recipients who waits or
is new goes on there. -/
def handedOnFrom? (entries : Entries) (r : Record) (key : QueueKey) : Option QueueKey :=
  match r.payload with
  | .attempt a =>
    let own : QueueKey := ⟨r.header.host, a.queue⟩
    if Fresh (standingAt entries own a.recipient) ∧ a.status ≠ .deferred ∧
        a.handOff?.map (⟨own.host, ·⟩) = some key ∧ key ≠ own then some own
    else none
  | _ => none

/-- A record mentions the message under a key: it names it or hands on to it. -/
def mentions (entries : Entries) (r : Record) (key : QueueKey) : Bool :=
  key ∈ named r || (handedOnFrom? entries r key).isSome

/-- When a message was last active, and what it was handed on from. -/
structure Life where
  lastActivity : Instant
  parent : Option QueueKey
deriving DecidableEq

/-- A message is mentioned at a moment and may be handed on from another one then. -/
def Life.mention (time : Instant) (origin : Option QueueKey) : Option Life → Life
  | none => ⟨time, origin⟩
  | some l => ⟨max l.lastActivity time, origin.or l.parent⟩

/-- When an open message was last active, and what it was handed on from. -/
def lifeAt (entries : Entries) (key : QueueKey) : Option Life :=
  (entries.get? key).map fun e => ⟨e.lastActivity, e.parent⟩

section Life

variable {entries entries' : Entries} {key q p : QueueKey} {time : Instant} {f : Entry → Entry}
  {r : Record}

theorem contains_eq_lifeAt (entries : Entries) (key : QueueKey) :
    entries.contains key = (lifeAt entries key).isSome := (Option.isSome_map ..).symm

theorem parentAt_eq_lifeAt (entries : Entries) (key : QueueKey) :
    parentAt entries key = (lifeAt entries key).bind (·.parent) := by
  unfold parentAt lifeAt
  rw [Option.bind_map]
  rfl

theorem lifeAt_ne_none (h : entries.contains key = true) : lifeAt entries key ≠ none := by
  rwa [contains_eq_lifeAt, Option.isSome_iff_ne_none] at h

theorem mention_mention (time : Instant) (l : Option Life) :
    Life.mention time none (some (Life.mention time none l)) = Life.mention time none l := by
  cases l with
  | none => exact congrArg (Life.mk · none) (Int.max_self time)
  | some l =>
    have hmax : max (max l.lastActivity time) time = max l.lastActivity time :=
      Int.max_eq_left (Int.le_max_right ..)
    exact congrArg (Life.mk · l.parent) hmax

theorem lifeAt_modify (hf : ∀ e, (f e).lastActivity = e.lastActivity)
    (hparent : ∀ e, (f e).parent = e.parent) (key : QueueKey) :
    lifeAt (entries.modify q f) key = lifeAt entries key := by
  unfold lifeAt
  rw [Table.get?_modify]
  split
  · rw [Option.map_map]
    congr 1
    funext e
    simp only [Function.comp_apply, hf, hparent]
  · rfl

/-- An open message is active at a moment. -/
theorem lifeAt_modify_active (entries : Entries) (hf : ∀ e, (f e).lastActivity = max e.lastActivity time)
    (hparent : ∀ e, (f e).parent = e.parent) (key : QueueKey) :
    lifeAt (entries.modify q f) key = none ∨ lifeAt (entries.modify q f) key =
      if key = q then some (Life.mention time none (lifeAt entries key)) else lifeAt entries key := by
  unfold lifeAt
  rw [Table.get?_modify]
  by_cases hk : key = q
  · rw [if_pos hk, if_pos hk]
    cases entries.get? key with
    | none => exact .inl rfl
    | some e => exact .inr (by simp [Life.mention, hf, hparent])
  · rw [if_neg hk, if_neg hk]
    exact .inr rfl

/-- A message is mentioned, or opened, and may be handed on from another one. -/
theorem lifeAt_touch (origin : Option QueueKey) (hf : ∀ e, (f e).lastActivity = e.lastActivity)
    (hparent : ∀ e, (f e).parent = origin.or e.parent) (key : QueueKey) :
    lifeAt (touch entries q time f) key =
      if key = q then some (Life.mention time origin (lifeAt entries key))
      else lifeAt entries key := by
  unfold lifeAt
  rw [get?_touch]
  by_cases hk : key = q
  · rw [if_pos hk, if_pos hk, hk]
    cases entries.get? q <;> simp [Life.mention, Entry.seen, Entry.new, hf, hparent]
  · rw [if_neg hk, if_neg hk]

theorem lifeAt_note (hf : Plain f) (queue : String) (key : QueueKey) :
    lifeAt (note entries r queue f) key =
      if key = ⟨r.header.host, queue⟩ then some (Life.mention r.time none (lifeAt entries key))
      else lifeAt entries key :=
  lifeAt_touch (f := fun e => (f e).addLine r.ref) none (fun e => hf.lastActivity e)
    (fun e => hf.parent e) key

theorem Shrunk.lifeAt (h : Shrunk entries entries') (key : QueueKey) :
    lifeAt entries' key = none ∨ lifeAt entries' key = lifeAt entries key := by
  unfold Tracker.lifeAt
  rcases h key with hk | ⟨n, hk⟩
  · exact .inl (by rw [hk]; rfl)
  · refine .inr ?_
    rw [hk, Option.map_map]
    rfl

theorem lifeAt_handOff (entries : Entries) (p : QueueKey) (queue : String) (time : Instant)
    (lines : List LineRef) (key : QueueKey) :
    lifeAt (handOff entries p queue time lines) key =
      if key = ⟨p.host, queue⟩ ∧ key ≠ p then
        some (Life.mention time (some p) (lifeAt entries key))
      else lifeAt entries key := by
  by_cases hself : (⟨p.host, queue⟩ : QueueKey) = p
  · rw [handOff_self hself, if_neg]
    rintro ⟨rfl, hne⟩
    exact hne hself
  · have hadopt : lifeAt (touch entries ⟨p.host, queue⟩ time (adopt p lines)) key =
        if key = ⟨p.host, queue⟩ ∧ key ≠ p then
          some (Life.mention time (some p) (lifeAt entries key))
        else lifeAt entries key := by
      rw [lifeAt_touch (f := adopt p lines) (some p) (fun _ => rfl) fun _ => rfl]
      by_cases hk : key = ⟨p.host, queue⟩
      · rw [if_pos hk, if_pos ⟨hk, hk ▸ hself⟩]
      · rw [if_neg hk, if_neg fun h => hk h.1]
    rw [handOff_eq hself]
    dsimp only
    split
    · exact hadopt
    · rw [lifeAt_modify (f := bear) (fun _ => rfl) (fun _ => rfl), hadopt]

/-! ## One record -/

/-- What a record makes of the life of a message that it does not close. -/
def lifeAfter (entries : Entries) (r : Record) (key : QueueKey) : Option Life :=
  if mentions entries r key then
    some (.mention r.time (handedOnFrom? entries r key) (lifeAt entries key))
  else lifeAt entries key

theorem lifeAfter_of_none (h : handedOnFrom? entries r key = none) :
    lifeAfter entries r key =
      if key ∈ named r then some (.mention r.time none (lifeAt entries key))
      else lifeAt entries key := by
  rw [lifeAfter, mentions, h, Option.isSome_none, Bool.or_false]
  simp only [decide_eq_true_eq]

theorem lifeAfter_of_some (h : handedOnFrom? entries r key = some p) :
    lifeAfter entries r key = some (.mention r.time (some p) (lifeAt entries key)) := by
  rw [lifeAfter, mentions, h, Option.isSome_some, Bool.or_true, if_pos rfl]

/-- A record that names one message and hands on none. -/
theorem lifeAfter_of_named (hnamed : named r = [q]) (h : handedOnFrom? entries r key = none) :
    lifeAfter entries r key =
      if key = q then some (.mention r.time none (lifeAt entries key)) else lifeAt entries key := by
  rw [lifeAfter_of_none h, hnamed]
  simp only [List.mem_singleton]

theorem lifeAfter_of_unnamed (hnamed : named r = []) (h : handedOnFrom? entries r key = none) :
    lifeAfter entries r key = lifeAt entries key := by
  rw [lifeAfter_of_none h, hnamed, if_neg List.not_mem_nil]

section Attempt

variable {a : Attempt}

theorem handedOnFrom?_eq_none (ha : r.payload = .attempt a)
    (h : Fresh (standingAt entries ⟨r.header.host, a.queue⟩ a.recipient) → a.status ≠ .deferred →
      a.handOff? = none) : handedOnFrom? entries r key = none := by
  rw [handedOnFrom?, ha]
  refine if_neg ?_
  rintro ⟨hfresh, hs, hchild, -⟩
  rw [h hfresh hs] at hchild
  cases hchild

theorem handedOnFrom?_of_standing {st : Option Standing} (ha : r.payload = .attempt a)
    (h : standingAt entries ⟨r.header.host, a.queue⟩ a.recipient = st) (hst : ¬ Fresh st) :
    handedOnFrom? entries r key = none :=
  handedOnFrom?_eq_none ha fun hfresh => absurd (h ▸ hfresh) hst

/-- A recipient who waits or is new goes on in another queue. -/
theorem handedOnFrom?_of_handOff (key : QueueKey) {child : String} (ha : r.payload = .attempt a)
    (hfresh : Fresh (standingAt entries ⟨r.header.host, a.queue⟩ a.recipient))
    (hs : a.status ≠ .deferred) (hchild : a.handOff? = some child) :
    handedOnFrom? entries r key =
      if key = ⟨r.header.host, child⟩ ∧ key ≠ ⟨r.header.host, a.queue⟩ then
        some ⟨r.header.host, a.queue⟩
      else none := by
  rw [handedOnFrom?, ha]
  simp only [hfresh, hs, hchild, ne_eq, not_false_eq_true, true_and, Option.map_some,
    Option.some.injEq, eq_comm (a := key)]

theorem named_attempt (ha : r.payload = .attempt a) : named r = [⟨r.header.host, a.queue⟩] := by
  rw [named, ha]
  rfl

theorem lifeAt_attempt (ha : r.payload = .attempt a) (daemon : String) (key : QueueKey) :
    lifeAt (attempt entries r.header.host daemon a r.ref).1 key = lifeAfter entries r key := by
  have htouched : lifeAt (touch entries ⟨r.header.host, a.queue⟩ r.ref.time id) key =
      if key = ⟨r.header.host, a.queue⟩ then some (.mention r.time none (lifeAt entries key))
      else lifeAt entries key :=
    lifeAt_touch none (fun _ => rfl) (fun _ => rfl) key
  have hquiet : standingAt (touch entries ⟨r.header.host, a.queue⟩ r.ref.time id)
      ⟨r.header.host, a.queue⟩ a.recipient =
        standingAt entries ⟨r.header.host, a.queue⟩ a.recipient :=
    (quiet_touch fun _ => rfl).standingAt_eq
  have hstays : handedOnFrom? entries r key = none → lifeAfter entries r key =
      lifeAt (touch entries ⟨r.header.host, a.queue⟩ r.ref.time id) key := fun h =>
    (lifeAfter_of_named (named_attempt ha) h).trans htouched.symm
  have hstep := attempt_step entries r.header.host daemon a r.ref
  generalize attempt entries r.header.host daemon a r.ref = out at hstep ⊢
  generalize touch entries ⟨r.header.host, a.queue⟩ r.ref.time id = touched at *
  cases hstep with
  | @fresh waiting hw =>
    have hfresh : Fresh (standingAt entries ⟨r.header.host, a.queue⟩ a.recipient) := by
      rw [← hquiet, hw]
      exact fresh_map_pending waiting
    have hstand : ∀ st, lifeAt (stand touched ⟨r.header.host, a.queue⟩ a.recipient st) key =
        lifeAt touched key := fun st =>
      lifeAt_modify (f := (·.setStanding a.recipient st)) (fun _ => rfl) (fun _ => rfl) key
    have hopen := attemptOpen_step touched ⟨r.header.host, a.queue⟩ waiting a daemon r.ref
    generalize attemptOpen touched ⟨r.header.host, a.queue⟩ waiting a daemon r.ref = out at hopen ⊢
    cases hopen with
    | putOff hs =>
      rw [hstays (handedOnFrom?_eq_none ha fun _ h => absurd hs h)]
      exact hstand _
    | @handedOff child hs hc =>
      have hfrom := handedOnFrom?_of_handOff key ha hfresh hs hc
      dsimp only
      rw [lifeAt_handOff, hstand]
      by_cases hk : key = ⟨r.header.host, child⟩ ∧ key ≠ ⟨r.header.host, a.queue⟩
      · rw [if_pos hk] at hfrom ⊢
        rw [lifeAfter_of_some hfrom, htouched, if_neg hk.2]
        rfl
      · rw [if_neg hk] at hfrom ⊢
        rw [hstays hfrom]
    | settled _ hc =>
      rw [hstays (handedOnFrom?_eq_none ha fun _ _ => hc)]
      exact hstand _
  | handedOff h =>
    exact (hstays (handedOnFrom?_of_standing ha (hquiet ▸ h) id)).symm
  | replaced h =>
    exact (hstays (handedOnFrom?_of_standing ha (hquiet ▸ h) id)).symm
  | ignored h =>
    exact (hstays (handedOnFrom?_of_standing ha (hquiet ▸ h) id)).symm

end Attempt

theorem lifeAt_noteBoth {queue child : String} {f g : Entry → Entry} (hf : Plain f) (hg : Plain g)
    (hnamed : named r = [⟨r.header.host, queue⟩, ⟨r.header.host, child⟩])
    (h : handedOnFrom? entries r key = none) :
    lifeAt (note (note entries r queue f) r child g) key = lifeAfter entries r key := by
  rw [lifeAfter_of_none h, hnamed, lifeAt_note hg, lifeAt_note hf]
  simp only [List.mem_cons, List.not_mem_nil, or_false]
  by_cases hchild : key = ⟨r.header.host, child⟩
  · simp only [hchild, or_true, if_true]
    split
    · rw [mention_mention]
    · rfl
  · simp only [hchild, if_false, or_false]

/-- A record closes a message: a filter refuses it, or a message leaves its queue and this one has left
its own by then. -/
inductive Closes (entries : Entries) (r : Record) (key : QueueKey) : Prop where
  | rejected {queue text : String} (hr : r.payload = .milterRejected queue text)
      (hkey : key = ⟨r.header.host, queue⟩)
  | left {queue : String} (hr : r.payload = .removed queue)
      (hleft : Left (entries.modify ⟨r.header.host, queue⟩ (leave r.time)) key)

/-- A message that a record does not close has been mentioned by it or not, and nothing else. -/
theorem life_take (entries : Entries) (r : Record) (key : QueueKey) :
    lifeAt (take entries r).1 key = none ∧ (entries.contains key = true → Closes entries r key) ∨
      lifeAt (take entries r).1 key = lifeAfter entries r key := by
  have hnoted : ∀ {queue : String} {f : Entry → Entry}, Plain f →
      named r = [⟨r.header.host, queue⟩] → handedOnFrom? entries r key = none →
      lifeAt (note entries r queue f) key = lifeAfter entries r key :=
    fun hf hnamed hfrom => (lifeAt_note hf _ key).trans (lifeAfter_of_named hnamed hfrom).symm
  obtain ⟨time, header, payload, text, location⟩ := r
  cases payload with
  | accepted => exact .inr (hnoted {} rfl rfl)
  | pickup => exact .inr (hnoted {} rfl rfl)
  | messageId =>
    refine .inr (hnoted ?_ rfl rfl)
    constructor <;> intro e <;> split <;> rfl
  | queued => exact .inr (hnoted {} rfl rfl)
  | bounceCreated => exact .inr (lifeAt_noteBoth plain_id {} rfl rfl)
  | attempt a => exact .inr (lifeAt_attempt rfl header.daemonName key)
  | expired e =>
    have hlife := lifeAt_modify_active entries (q := ⟨header.host, e.queue⟩)
      (f := fun e => e.settle.active time) (fun _ => rfl) (fun _ => rfl) key
    rw [lifeAfter_of_named rfl rfl]
    exact hlife.imp_left fun hnone =>
      ⟨hnone, fun hopen => absurd hnone (lifeAt_ne_none (contains_modify hopen))⟩
  | removed queue =>
    have hlife := lifeAt_modify_active entries (q := ⟨header.host, queue⟩)
      (f := leave time) (fun _ => rfl) (fun _ => rfl) key
    have hclosed := (shrunk_release maxDepth (entries.modify ⟨header.host, queue⟩ (leave time))
      ⟨header.host, queue⟩).lifeAt key
    rw [lifeAfter_of_named rfl rfl]
    rcases hclosed with hclosed | hstays
    · have hgone := (contains_eq_lifeAt _ key).trans (congrArg Option.isSome hclosed)
      exact .inl ⟨hclosed, fun hopen => .left rfl (left_of_release (contains_modify hopen) hgone)⟩
    · refine hlife.imp (fun hnone => ⟨hstays.trans hnone, fun hopen => ?_⟩) hstays.trans
      exact absurd hnone (lifeAt_ne_none (contains_modify hopen))
  | milterRejected queue text =>
    rw [lifeAfter_of_unnamed rfl rfl]
    by_cases hkey : key = ⟨header.host, queue⟩
    · refine .inl ⟨?_, fun _ => .rejected rfl hkey⟩
      exact congrArg (Option.map _) ((Table.get?_erase ..).trans (if_pos hkey))
    · exact .inr (congrArg (Option.map _) ((Table.get?_erase ..).trans (if_neg hkey)))
  | relayedBounce => exact .inr (lifeAfter_of_unnamed rfl rfl).symm
  | connected => exact .inr (lifeAfter_of_unnamed rfl rfl).symm
  | disconnected => exact .inr (lifeAfter_of_unnamed rfl rfl).symm
  | lostConnection => exact .inr (lifeAfter_of_unnamed rfl rfl).symm
  | rejected => exact .inr (lifeAfter_of_unnamed rfl rfl).symm
  | version => exact .inr (lifeAfter_of_unnamed rfl rfl).symm
  | unsupported => exact .inr (lifeAfter_of_unnamed rfl rfl).symm

end Life

/-! ## Openings -/

/-- The moments at which records mention the message under a key. -/
def mentionTimes (settings : Settings) (key : QueueKey) : State → List Record → List Instant
  | _, [] => []
  | s, r :: rs => (if mentions s.entries r key then [r.time] else []) ++
      mentionTimes settings key (s.handle settings r).1 rs

/-- The messages from which records hand on to the one under a key. -/
def origins (settings : Settings) (key : QueueKey) : State → List Record → List QueueKey
  | _, [] => []
  | s, r :: rs => (handedOnFrom? s.entries r key).toList ++
      origins settings key (s.handle settings r).1 rs

/-- The life of a message is what these moments and these messages tell: it was last active at the last
moment, and it was handed on from the last message. -/
def Chronicle (times : List Instant) (before : List QueueKey) : Option Life → Prop
  | none => times = [] ∧ before = []
  | some l => (l.lastActivity ∈ times ∧ ∀ t ∈ times, t ≤ l.lastActivity) ∧ before.getLast? = l.parent

section Opening

variable {settings : Settings} {s : State} {key : QueueKey} {r : Record} {rs : List Record}
  {times : List Instant} {before : List QueueKey} {l : Option Life}

theorem mentionTimes_concat (settings : Settings) (key : QueueKey) (s : State) (rs : List Record)
    (r : Record) : mentionTimes settings key s (rs ++ [r]) = mentionTimes settings key s rs ++
      if mentions (s.run settings rs).1.entries r key then [r.time] else [] := by
  induction rs generalizing s with
  | nil => exact List.append_nil _
  | cons b rs ih => rw [List.cons_append, mentionTimes, ih, mentionTimes, List.append_assoc, State.run]

theorem origins_concat (settings : Settings) (key : QueueKey) (s : State) (rs : List Record)
    (r : Record) : origins settings key s (rs ++ [r]) =
      origins settings key s rs ++ (handedOnFrom? (s.run settings rs).1.entries r key).toList := by
  induction rs generalizing s with
  | nil => exact List.append_nil _
  | cons b rs ih => rw [List.cons_append, origins, ih, origins, List.append_assoc, State.run]

theorem Chronicle.mention (h : Chronicle times before l) (time : Instant) (origin : Option QueueKey) :
    Chronicle (times ++ [time]) (before ++ origin.toList) (some (.mention time origin l)) := by
  cases l with
  | none =>
    obtain ⟨rfl, rfl⟩ := h
    cases origin <;> exact ⟨⟨List.mem_singleton_self _, fun t ht =>
      Int.le_of_eq (List.mem_singleton.1 ht)⟩, rfl⟩
  | some l =>
    obtain ⟨⟨hmem, hle⟩, hparent⟩ := h
    refine ⟨⟨?_, fun t ht => ?_⟩, ?_⟩
    · by_cases hlater : l.lastActivity ≤ time
      · exact List.mem_append_right _ (List.mem_singleton.2 (Int.max_eq_right hlater))
      · have hmax : max l.lastActivity time = l.lastActivity :=
          Int.max_eq_left (Int.le_of_not_le hlater)
        show max l.lastActivity time ∈ _
        rw [hmax]
        exact List.mem_append_left _ hmem
    · rcases List.mem_append.1 ht with ht | ht
      · exact Int.le_trans (hle t ht) (Int.le_max_left ..)
      · exact List.mem_singleton.1 ht ▸ Int.le_max_right ..
    · rw [List.getLast?_append, hparent]
      cases origin <;> rfl

/-- What a record mentions and hands on is added. -/
theorem Chronicle.take (h : Chronicle times before (lifeAt s.entries key))
    (hopen : (Tracker.take s.entries r).1.contains key = true) :
    Chronicle (times ++ if mentions s.entries r key then [r.time] else [])
      (before ++ (handedOnFrom? s.entries r key).toList) (lifeAt (Tracker.take s.entries r).1 key) := by
  have hlife : lifeAt (Tracker.take s.entries r).1 key = lifeAfter s.entries r key :=
    (life_take s.entries r key).resolve_left fun h => lifeAt_ne_none hopen h.1
  rw [hlife, lifeAfter]
  by_cases hm : mentions s.entries r key = true
  · rw [if_pos hm, if_pos hm]
    exact h.mention r.time _
  · have hnone : handedOnFrom? s.entries r key = none := by
      simp only [mentions, Bool.or_eq_true, not_or, Option.not_isSome_iff_eq_none] at hm
      exact hm.2
    rw [if_neg hm, if_neg hm, hnone, List.append_nil, Option.toList_none, List.append_nil]
    exact h

theorem contains_take (hopen : (s.handle settings r).1.entries.contains key = true) :
    (take s.entries r).1.contains key = true ∧
      lifeAt (s.handle settings r).1.entries key = lifeAt (take s.entries r).1 key := by
  have hlife := ((shrunk_pruneIfDue settings s r).lifeAt key).resolve_left (lifeAt_ne_none hopen)
  rw [contains_eq_lifeAt, hlife] at hopen
  exact ⟨(contains_eq_lifeAt ..).trans hopen, hlife⟩

theorem Chronicle.handle (h : Chronicle times before (lifeAt s.entries key))
    (hopen : (s.handle settings r).1.entries.contains key = true) :
    Chronicle (times ++ if mentions s.entries r key then [r.time] else [])
      (before ++ (handedOnFrom? s.entries r key).toList)
      (lifeAt (s.handle settings r).1.entries key) := by
  obtain ⟨htake, hlife⟩ := contains_take hopen
  exact hlife ▸ h.take htake

/-- The records of an opening tell when the message was last active and what it was handed on from. -/
theorem chronicle_opening (h : s.Opening settings key (rs ++ [r])) :
    Chronicle (mentionTimes settings key s rs) (origins settings key s rs)
      (lifeAt (s.run settings rs).1.entries key) := by
  induction rs using List.reverseRecOn generalizing r with
  | nil =>
    show Chronicle [] [] ((s.entries.get? key).map _)
    rw [Table.contains_eq_false_iff.1 h.1]
    exact ⟨rfl, rfl⟩
  | append_singleton rs b ih =>
    obtain ⟨hearlier, hopen, -⟩ := opening_append h (by simp)
    have hbefore := ih hearlier
    rw [State.run_concat] at hopen ⊢
    rw [mentionTimes_concat, origins_concat]
    exact hbefore.handle hopen

end Opening

/-! ## Messages without their origin -/

section Prune

variable {settings : Settings} {s : State} {entries : Entries} {key p child : QueueKey} {r : Record}
  {records : List Record} {times : List Instant} {before : List QueueKey} {l : Life}

theorem lifeAt_prune (timeout : Duration) (now : Instant) (entries : Entries) (key : QueueKey) :
    lifeAt (prune timeout now entries).1 key =
      (lifeAt entries key).filter fun l => now - l.lastActivity ≤ (timeout : Int) := by
  unfold lifeAt
  rw [get?_prune]
  cases entries.get? key with
  | none => rfl
  | some e =>
    have hactive : (!isIdle timeout now e) = decide (now - e.lastActivity ≤ (timeout : Int)) :=
      decide_not.symm.trans (decide_eq_decide.2 Int.not_lt)
    simp only [Option.map_some, Option.filter_some, hactive]
    split <;> rfl

/-- It is time to look for silent messages when a record is read. -/
def State.PrunesAt (settings : Settings) (s : State) (time : Instant) : Prop :=
  (settings.pruneInterval : Int) ≤ time - s.lastPrune.getD time

theorem handle_of_prunesAt (h : s.PrunesAt settings r.time) :
    (s.handle settings r).1.entries = (prune settings.idleTimeout r.time (take s.entries r).1).1 := by
  have hdue : ¬ r.time - s.lastPrune.getD r.time < (settings.pruneInterval : Int) := Int.not_lt.2 h
  simp only [State.handle, State.pruneIfDue, if_neg hdue]

theorem handle_of_not_prunesAt (h : ¬ s.PrunesAt settings r.time) :
    (s.handle settings r).1.entries = (take s.entries r).1 := by
  have hdue : r.time - s.lastPrune.getD r.time < (settings.pruneInterval : Int) := Int.not_le.1 h
  simp only [State.handle, State.pruneIfDue, if_pos hdue]

/-- A message that is open once a record was read is closed after it exactly if it is time to look for
silent messages and it has been silent for too long. -/
theorem contains_handle_eq_false_iff (h : lifeAt (take s.entries r).1 key = some l) :
    (s.handle settings r).1.entries.contains key = false ↔
      s.PrunesAt settings r.time ∧ (settings.idleTimeout : Int) < r.time - l.lastActivity := by
  by_cases hdue : s.PrunesAt settings r.time
  · rw [handle_of_prunesAt hdue, contains_eq_lifeAt, lifeAt_prune, h, Option.filter_some]
    simp only [hdue, true_and, decide_eq_true_eq]
    split
    · rename_i hshort
      exact iff_of_false Bool.noConfusion (Int.not_lt.2 hshort)
    · rename_i hlong
      exact iff_of_true rfl (Int.not_le.1 hlong)
  · rw [handle_of_not_prunesAt hdue, contains_eq_lifeAt, h]
    simp [hdue]

/-- A record has a message closed for its silence, and one that was handed on from it stays open. -/
structure State.Orphans (settings : Settings) (s : State) (r : Record) (p child : QueueKey) : Prop where
  open_before : (take s.entries r).1.contains p = true
  closed : (s.handle settings r).1.entries.contains p = false
  stays : parentAt (s.handle settings r).1.entries child = some p

/-- What records tell of a message that is open once a further one was read: since it was opened it was
mentioned at these moments, and handed on from these messages. -/
structure Recalls (settings : Settings) (records : List Record) (r : Record) (key : QueueKey)
    (times : List Instant) (before : List QueueKey) : Prop where
  is_open : (take (State.empty.run settings records).1.entries r).1.contains key = true
  since : ∃ pre during, records = pre ++ during ∧
    (State.empty.run settings pre).1.Opening settings key (during ++ [r]) ∧
    mentionTimes settings key (State.empty.run settings pre).1 (during ++ [r]) = times ∧
    origins settings key (State.empty.run settings pre).1 (during ++ [r]) = before

theorem exists_recalls (settings : Settings) (records : List Record) (r : Record) (key : QueueKey)
    (h : (take (State.empty.run settings records).1.entries r).1.contains key = true) :
    ∃ times before, Recalls settings records r key times before := by
  obtain ⟨pre, during, hsplit, hopening⟩ := exists_opening settings records r key
  exact ⟨_, _, h, pre, during, hsplit, hopening, rfl, rfl⟩

/-- What is recalled of a message is its life. -/
theorem Recalls.chronicle (h : Recalls settings records r key times before) :
    Chronicle times before (lifeAt (take (State.empty.run settings records).1.entries r).1 key) := by
  obtain ⟨hopen, pre, during, rfl, hopening, rfl, rfl⟩ := h
  have hrun : (State.empty.run settings (pre ++ during)).1 =
      ((State.empty.run settings pre).1.run settings during).1 := by rw [State.run_append]
  rw [hrun] at hopen ⊢
  rw [mentionTimes_concat, origins_concat]
  exact (chronicle_opening hopening).take hopen

/-- A message has been silent for too long exactly if all its mentions lie that far back. -/
theorem Chronicle.silent_iff (h : Chronicle times before (some l)) (timeout : Duration) (now : Instant) :
    (timeout : Int) < now - l.lastActivity ↔ ∀ t ∈ times, (timeout : Int) < now - t := by
  obtain ⟨⟨hmem, hle⟩, -⟩ := h
  constructor
  · intro hlong t ht
    exact Int.lt_of_lt_of_le hlong (Int.sub_le_sub_left (hle t ht) now)
  · exact fun hall => hall _ hmem

/-- A message loses its origin exactly if it is time to look for silent messages, the message that it
was handed on from is open and silent, and the message itself is not. -/
theorem orphans_iff_life : s.Orphans settings r p child ↔
    s.PrunesAt settings r.time ∧
      ∃ l l', lifeAt (take s.entries r).1 p = some l ∧ lifeAt (take s.entries r).1 child = some l' ∧
        (settings.idleTimeout : Int) < r.time - l.lastActivity ∧
        r.time - l'.lastActivity ≤ (settings.idleTimeout : Int) ∧ l'.parent = some p := by
  constructor
  · rintro ⟨hopen, hclosed, hstays⟩
    rw [contains_eq_lifeAt, Option.isSome_iff_exists] at hopen
    obtain ⟨l, hl⟩ := hopen
    obtain ⟨hdue, hlong⟩ := (contains_handle_eq_false_iff hl).1 hclosed
    rw [handle_of_prunesAt hdue, parentAt_eq_lifeAt, lifeAt_prune] at hstays
    obtain ⟨l', hl', hparent⟩ := Option.bind_eq_some_iff.1 hstays
    obtain ⟨hchild, hshort⟩ := Option.filter_eq_some_iff.1 hl'
    exact ⟨hdue, l, l', hl, hchild, hlong, of_decide_eq_true hshort, hparent⟩
  · rintro ⟨hdue, l, l', hl, hl', hlong, hshort, hparent⟩
    refine ⟨by rw [contains_eq_lifeAt, hl]; rfl, (contains_handle_eq_false_iff hl).2 ⟨hdue, hlong⟩, ?_⟩
    rw [handle_of_prunesAt hdue, parentAt_eq_lifeAt, lifeAt_prune, hl', Option.filter_some,
      if_pos (decide_eq_true hshort)]
    exact hparent

end Prune

/-! ## Chains that are left -/

section Chain

variable {entries entries' : Entries} {key : QueueKey}

theorem climb_of_closed (h : entries.contains key = false) (n : Nat) (found : List QueueKey) :
    climb entries n found key = found := by
  cases n with
  | zero => rfl
  | succ n => rw [climb, Table.contains_eq_false_iff.1 h]

theorem climb_of_mem {found : List QueueKey} (h : key ∈ found) (n : Nat) :
    climb entries n found key = found := by
  cases n with
  | zero => rfl
  | succ n =>
    rw [climb]
    cases entries.get? key with
    | none => rfl
    | some e => exact if_pos h

theorem climb_succ {e : Entry} {found : List QueueKey} (he : entries.get? key = some e)
    (hnew : key ∉ found) (n : Nat) : climb entries (n + 1) found key =
      match e.parent with
      | none => key :: found
      | some p => climb entries n (key :: found) p := by
  rw [climb, he]
  exact if_neg hnew

theorem Shrunk.contains (h : Shrunk entries entries') (hk : entries.contains key = false) :
    entries'.contains key = false := by
  rw [contains_eq_lifeAt] at hk ⊢
  rcases h.lifeAt key with hclosed | hstays
  · rw [hclosed]
    rfl
  · rwa [hstays]

/-- Climbing among the messages that were not closed stops at the first one that was. -/
theorem climb_eq_rtakeWhile (h : Shrunk entries entries') (n : Nat) (found : List QueueKey)
    (key : QueueKey) : ∃ above, climb entries n found key = above ++ found ∧
      climb entries' n found key = above.rtakeWhile entries'.contains ++ found := by
  induction n generalizing found key with
  | zero => exact ⟨[], rfl, rfl⟩
  | succ n ih =>
    cases he : entries.get? key with
    | none =>
      have hclosed := Table.contains_eq_false_iff.2 he
      exact ⟨[], climb_of_closed hclosed .., climb_of_closed (h.contains hclosed) ..⟩
    | some e =>
      by_cases hmem : key ∈ found
      · exact ⟨[], climb_of_mem hmem _, climb_of_mem hmem _⟩
      · have hup : ∃ above, climb entries (n + 1) found key = above ++ key :: found ∧
            ∀ m, entries'.get? key = some (e.dropChildren m) → climb entries' (n + 1) found key =
              above.rtakeWhile entries'.contains ++ key :: found := by
          rw [climb_succ he hmem]
          cases hp : e.parent with
          | none =>
            refine ⟨[], rfl, fun m he' => ?_⟩
            rw [climb_succ he' hmem, parent_dropChildren, hp]
            rfl
          | some p =>
            obtain ⟨above, hall, hleft⟩ := ih (key :: found) p
            refine ⟨above, hall, fun m he' => ?_⟩
            rw [climb_succ he' hmem, parent_dropChildren, hp]
            exact hleft
        obtain ⟨above, hall, hleft⟩ := hup
        refine ⟨above ++ [key], by rw [hall, List.append_assoc]; rfl, ?_⟩
        rw [List.rtakeWhile_concat]
        rcases h key with hclosed | ⟨m, hstays⟩
        · have hcontains := Table.contains_eq_false_iff.2 hclosed
          rw [climb_of_closed hcontains, hcontains, if_neg Bool.false_ne_true]
          rfl
        · have he' : entries'.get? key = some (e.dropChildren m) := by rw [hstays, he]; rfl
          have hcontains : entries'.contains key = true := Table.contains_iff.2 ⟨_, he'⟩
          rw [hleft m he', hcontains, if_pos rfl, List.append_assoc]
          rfl

/-- The chain of a message is left from below up to the first message that was closed. -/
theorem chain_eq_rtakeWhile (h : Shrunk entries entries') (key : QueueKey) :
    chain entries' key = (chain entries key).rtakeWhile entries'.contains := by
  obtain ⟨above, hall, hleft⟩ := climb_eq_rtakeWhile h maxDepth [] key
  rw [chain, chain, hall, hleft, List.append_nil, List.append_nil]

theorem Shrunk.parentAt (h : Shrunk entries entries') (hk : entries'.contains key = true) :
    parentAt entries' key = parentAt entries key := by
  rw [parentAt_eq_lifeAt, parentAt_eq_lifeAt]
  exact congrArg (Option.bind · _) ((h.lifeAt key).resolve_left (lifeAt_ne_none hk))

/-- A whole chain stays if none of its messages stays without the one that it was handed on from. -/
theorem contains_of_mem_climb {n : Nat} {found : List QueueKey} (h : Shrunk entries entries')
    (hlinks : ∀ k ∈ climb entries n found key, ∀ p, entries.contains p = true →
      parentAt entries' k = some p → entries'.contains p = true)
    (hfound : ∀ k ∈ found, entries'.contains k = true)
    (hkey : entries.contains key = true → entries'.contains key = true) :
    ∀ k ∈ climb entries n found key, entries'.contains k = true := by
  induction n generalizing found key with
  | zero => exact hfound
  | succ n ih =>
    cases he : entries.get? key with
    | none =>
      rw [climb_of_closed (Table.contains_eq_false_iff.2 he)]
      exact hfound
    | some e =>
      by_cases hmem : key ∈ found
      · rw [climb_of_mem hmem]
        exact hfound
      · have hstays := hkey (Table.contains_iff.2 ⟨e, he⟩)
        have hfound' : ∀ k ∈ key :: found, entries'.contains k = true :=
          List.forall_mem_cons.2 ⟨hstays, hfound⟩
        rw [climb_succ he hmem] at hlinks ⊢
        cases hp : e.parent with
        | none => exact hfound'
        | some p =>
          rw [hp] at hlinks
          dsimp only at hlinks ⊢
          refine ih hlinks hfound' fun hopen => hlinks key ?_ p hopen ?_
          · obtain ⟨above, hall, -⟩ := climb_eq_rtakeWhile h n (key :: found) p
            rw [hall]
            exact List.mem_append_right _ List.mem_cons_self
          · rw [h.parentAt hstays, parentAt_of_get? he, hp]

/-- What is told of a message stays the same if its whole chain stays. -/
theorem delivery_of_shrunk (h : Shrunk entries entries')
    (hstays : ∀ k ∈ chain entries key, entries'.contains k = true) :
    delivery entries' key = delivery entries key := by
  refine delivery_of_chain ?_ fun k hk => ?_
  · rw [chain_eq_rtakeWhile h, List.rtakeWhile_eq_self_iff]
    exact hstays
  · rcases h k with hclosed | ⟨m, hk'⟩
    · exact absurd (hstays k hk) (Bool.eq_false_iff.1 (Table.contains_eq_false_iff.2 hclosed))
    · rw [hk', Option.map_map]
      rfl

end Chain

/-- **Which messages lose their origin.** A record has a message closed for its silence while one stays
that was handed on from it exactly if it is time to look for silent messages, no mention of the first
since it was opened, however it is mentioned, lies within the timeout, one of the second does, and the
second was handed on from the first and from none after it. Of the chain of a message that stays the
part below the first closed one is left; if no message of the chain loses its origin, the chain is left
whole, and everything is told of the message as before. -/
theorem orphans_iff (settings : Settings) (records : List Record) (r : Record) :
    let s := (State.empty.run settings records).1
    let taken := (take s.entries r).1
    let kept := (s.handle settings r).1.entries
    (∀ p child, s.Orphans settings r p child ↔
      s.PrunesAt settings r.time ∧ ∃ times before times' before',
        Recalls settings records r p times before ∧
        Recalls settings records r child times' before' ∧
        (∀ t ∈ times, (settings.idleTimeout : Int) < r.time - t) ∧
        (∃ t ∈ times', r.time - t ≤ (settings.idleTimeout : Int)) ∧ before'.getLast? = some p) ∧
      (∀ key, chain kept key = (chain taken key).rtakeWhile kept.contains) ∧
      ∀ key, kept.contains key = true →
        (∀ k ∈ chain taken key, ∀ p, ¬ s.Orphans settings r p k) →
        chain kept key = chain taken key ∧ delivery kept key = delivery taken key := by
  intro s taken kept
  have hshrunk : Shrunk taken kept := shrunk_pruneIfDue settings s r
  refine ⟨fun p child => ?_, chain_eq_rtakeWhile hshrunk, fun key hkey hnone => ?_⟩
  · rw [orphans_iff_life]
    refine and_congr_right fun _ => ⟨?_, ?_⟩
    · rintro ⟨l, l', hl, hl', hlong, hshort, hparent⟩
      have hopen {k : QueueKey} {l : Life} (hl : lifeAt taken k = some l) : taken.contains k = true := by
        rw [contains_eq_lifeAt, hl]
        rfl
      obtain ⟨times, before, hrecalls⟩ := exists_recalls settings records r p (hopen hl)
      obtain ⟨times', before', hrecalls'⟩ := exists_recalls settings records r child (hopen hl')
      have hchronicle := hl ▸ hrecalls.chronicle
      have hchronicle' := hl' ▸ hrecalls'.chronicle
      refine ⟨times, before, times', before', hrecalls, hrecalls', ?_, ?_, ?_⟩
      · exact (hchronicle.silent_iff _ _).1 hlong
      · exact ⟨l'.lastActivity, hchronicle'.1.1, hshort⟩
      · exact hchronicle'.2.trans hparent
    · rintro ⟨times, before, times', before', hrecalls, hrecalls', hlong, ⟨t, ht, hshort⟩, hlast⟩
      have hlife {k : QueueKey} (hk : taken.contains k = true) : ∃ l, lifeAt taken k = some l := by
        rwa [contains_eq_lifeAt, Option.isSome_iff_exists] at hk
      obtain ⟨l, hl⟩ := hlife hrecalls.is_open
      obtain ⟨l', hl'⟩ := hlife hrecalls'.is_open
      have hchronicle := hl ▸ hrecalls.chronicle
      have hchronicle' := hl' ▸ hrecalls'.chronicle
      refine ⟨l, l', hl, hl', (hchronicle.silent_iff _ _).2 hlong, ?_, ?_⟩
      · exact Int.le_trans (Int.sub_le_sub_left (hchronicle'.1.2 t ht) _) hshort
      · exact hchronicle'.2.symm.trans hlast
  · have hall : ∀ k ∈ chain taken key, kept.contains k = true := by
      refine contains_of_mem_climb hshrunk (fun k hk p hopen hparent => ?_)
        (fun _ hmem => absurd hmem List.not_mem_nil) fun _ => hkey
      by_contra hclosed
      exact hnone k hk p ⟨hopen, Bool.eq_false_iff.2 hclosed, hparent⟩
    refine ⟨?_, delivery_of_shrunk hshrunk hall⟩
    rw [chain_eq_rtakeWhile hshrunk, List.rtakeWhile_eq_self_iff]
    exact hall

/-- A message of a known sender goes on from the queue A in the queue B and is put off there half a day
later. -/
def putOffInB : List Record :=
  [recordIn 1 (.queued ⟨"A", ⟨"sender", "example.org"⟩, 1000, 1⟩), recordIn 2 (passedOn "A" "B"),
    putOffIn 43200 "B" "user"]

/-- As long as the message in the queue A is not silent, the one in the queue B is told with it. -/
theorem putOffInB_keeps :
    let s := (State.empty.run .default putOffInB).1
    let taken := (take s.entries (putOffIn 86000 "B" "user")).1
    let kept := (s.handle .default (putOffIn 86000 "B" "user")).1.entries
    (kept.contains ⟨"", "B"⟩ = true ∧
        ∀ k ∈ chain taken ⟨"", "B"⟩, ∀ p, ¬ s.Orphans .default (putOffIn 86000 "B" "user") p k) ∧
      chain kept ⟨"", "B"⟩ = [⟨"", "A"⟩, ⟨"", "B"⟩] ∧
      delivery kept ⟨"", "B"⟩ = delivery taken ⟨"", "B"⟩ := by
  intro s taken kept
  have hkept : kept.contains ⟨"", "B"⟩ = true := by decide
  have hparent : ∀ k ∈ chain taken ⟨"", "B"⟩, ∀ p ∈ parentAt kept k, kept.contains p = true := by
    decide
  have hnone : ∀ k ∈ chain taken ⟨"", "B"⟩, ∀ p,
      ¬ s.Orphans .default (putOffIn 86000 "B" "user") p k := fun k hk p horphans =>
    absurd (hparent k hk p horphans.stays) (Bool.eq_false_iff.1 horphans.closed)
  obtain ⟨-, -, hwhole⟩ := orphans_iff .default putOffInB (putOffIn 86000 "B" "user")
  obtain ⟨hchain, hdelivery⟩ := hwhole ⟨"", "B"⟩ hkept hnone
  exact ⟨⟨hkept, hnone⟩, hchain.trans (by decide), hdelivery⟩

/-- When it is put off again on the next day, the message in the queue A is closed. What is told of the
message in the queue B after that has lost the sender, which is told of it before. -/
theorem putOffInB_orphans :
    let s := (State.empty.run .default putOffInB).1
    let s' := (s.handle .default (putOffIn 88000 "B" "user")).1
    let senders (s : State) (second : Int) : List (Option Address) :=
      (s.handle .default (recordIn second (sentTo "B" none))).2.map fun f => f.delivery?.map (·.sender)
    s.Orphans .default (putOffIn 88000 "B" "user") ⟨"", "A"⟩ ⟨"", "B"⟩ ∧
      senders s 87999 = [some ⟨"sender", "example.org"⟩, some ⟨"sender", "example.org"⟩] ∧
      senders s' 88001 = [some .null, some .null] :=
  ⟨⟨by decide, by decide, by decide⟩, by decide, by decide⟩

end MailTrace.Tracker
