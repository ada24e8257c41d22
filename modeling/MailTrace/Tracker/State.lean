import MailTrace.Tracker.Entry

/-!
# Tracking messages

Records are put together into deliveries. Open messages are kept by host and queue id. A message
that a content filter of this host put into another queue is the parent of the one there, and a
delivery of a descendant tells of the root: its sender, its client, its size, its time.
-/

namespace MailTrace

open MailTrace.Time

namespace Tracker

/-- When silent messages are closed: how long they have to be silent, and how often that is looked
for, both in the time of the log. -/
structure Settings where
  idleTimeout : Duration
  pruneInterval : Duration
deriving DecidableEq, Repr

/-- A day of silence, looked for every hour. -/
def Settings.default : Settings := ⟨.ofSeconds 86400, .ofSeconds 3600⟩

/-- What the tracker finds out. -/
inductive Finding where
  /-- What became of a recipient. -/
  | delivery (d : Delivery)
  /-- What became of a recipient, in place of an earlier result. -/
  | replacement (d : Delivery)
  /-- A bounce reported by a later host. -/
  | relayedBounce (b : BounceReport)
deriving DecidableEq, Repr

/-- The open messages by their keys. -/
abbrev Entries := Table QueueKey Entry

/-! ## Ancestors -/

/-- The longest chain of messages that is looked at. -/
def maxDepth : Nat := 16

/-- The keys from the root to what was `found` already, with at most `n` more. The way up ends where
a parent is missing, unknown or found already. -/
def climb (entries : Entries) : Nat → List QueueKey → QueueKey → List QueueKey
  | 0, found, _ => found
  | n + 1, found, key =>
    match entries.get? key with
    | none => found
    | some e =>
      if key ∈ found then found
      else
        match e.parent with
        | none => key :: found
        | some parent => climb entries n (key :: found) parent

/-- The keys from the root to a message. -/
def chain (entries : Entries) (key : QueueKey) : List QueueKey := climb entries maxDepth [] key

/-! ## Deliveries -/

/-- Lines in the order of their moments, those of one moment as they came. -/
def sortLines (lines : List LineRef) : List LineRef := lines.mergeSort fun a b => a.time ≤ b.time

/-- A result of the message under a key, learnt from an attempt. -/
def delivery (entries : Entries) (key : QueueKey) (attempt : Attempt) (status : Status)
    (daemon : String) (first last : Instant) (lines : List LineRef) : Delivery :=
  let keys := chain entries key
  let ancestors := keys.filterMap entries.get?
  let root := ancestors.head?
  let own := ancestors.getLast?
  let originQueue := match keys.head? with
    | some rootKey => if rootKey = key then own.bind (·.originQueue) else some rootKey.queue
    | none => own.bind (·.originQueue)
  { host := key.host
    queue := key.queue
    originQueue
    messageId := (root.bind (·.messageId)).or (own.bind (·.messageId))
    status
    direction := .ofDaemon daemon
    queuedTime := min ((root.map (·.firstSeen)).getD first) first
    firstAttemptTime := first
    deliveryTime := last
    sender := ((root.bind (·.sender)).or (own.bind (·.sender))).getD .null
    recipient := attempt.recipient
    origRecipient := attempt.origRecipient
    relay := attempt.relay
    dsn := attempt.dsn
    delay := attempt.delay
    extraMessage := attempt.extraMessage
    clientHost := root.bind (·.clientHost)
    clientIp := root.bind (·.clientIp)
    size := root.bind (·.size)
    recipients := root.bind (·.recipientCount)
    lines := sortLines (ancestors.flatMap (·.lines) ++ lines) }

/-- The result of an attempt. -/
def final (entries : Entries) (key : QueueKey) (attempt : Attempt) (daemon : String)
    (line : LineRef) : Delivery :=
  delivery entries key attempt attempt.status daemon line.time line.time [line]

/-- The attempts that were put off, as one delivery. -/
def summary (entries : Entries) (key : QueueKey) (d : Deferral) : Finding :=
  .delivery (delivery entries key d.attempt .deferred d.daemon d.first d.last d.lines)

/-- The attempts that were put off and that the message expired. -/
def expiry (entries : Entries) (key : QueueKey) (line : LineRef) (d : Deferral) : List Finding :=
  [summary entries key d,
    .delivery (delivery entries key d.attempt .expired d.daemon line.time line.time [line])]

/-- Every recipient of a message who is still waiting ends as put off. -/
def flush (entries : Entries) (key : QueueKey) : List Finding :=
  ((entries.get? key).map (·.pending)).getD [] |>.map (summary entries key)

/-! ## Changes of the open messages -/

/-- A message is mentioned, and opened if it was not. -/
def touch (entries : Entries) (key : QueueKey) (time : Instant) (f : Entry → Entry) : Entries :=
  entries.upsert key (.new time) fun e => f (e.seen time)

/-- A message goes on in another queue of its host. Handing it to its own queue changes nothing. -/
def handOff (entries : Entries) (parent : QueueKey) (childQueue : String) (time : Instant)
    (lines : List LineRef) : Entries :=
  let child : QueueKey := ⟨parent.host, childQueue⟩
  if child = parent then entries
  else
    let linked := ((entries.get? child).bind (·.parent)) = some parent
    let entries := touch entries child time fun e =>
      { e with parent := some parent, lines := e.lines ++ lines }
    if linked then entries
    else entries.modify parent fun e => { e with children := e.children + 1 }

/-- A message that left its queue is closed once none depends on it, then its ancestors in the same
situation, at most `n` in all. -/
def release : Nat → Entries → QueueKey → Entries
  | 0, entries, _ => entries
  | n + 1, entries, key =>
    match entries.get? key with
    | none => entries
    | some e =>
      if !e.removed || 0 < e.children then entries
      else
        let entries := entries.erase key
        match e.parent with
        | none => entries
        | some parent =>
          if entries.contains parent then
            release n (entries.modify parent (·.dropChildren 1)) parent
          else entries

/-- An attempt at a recipient who waits, or is new. -/
def attemptOpen (entries : Entries) (key : QueueKey) (waiting : Option Deferral) (a : Attempt)
    (daemon : String) (line : LineRef) : Entries × List Finding :=
  let stand (s : Standing) : Entries := entries.modify key (·.setStanding a.recipient s)
  if a.status = .deferred then
    (stand (.pending (.extend waiting a daemon line)), [])
  else
    match a.handOff? with
    | some child =>
      (handOff (stand .handedOff) key child line.time
        ((waiting.map (·.lines)).getD [] ++ [line]), [])
    | none =>
      let entries := stand .done
      (entries, (waiting.map (summary entries key)).toList ++
        [.delivery (final entries key a daemon line)])

/-- An attempt. A recipient with a result gets another one in its place, and one who was handed on
gets none. -/
def attempt (entries : Entries) (host daemon : String) (a : Attempt) (line : LineRef) :
    Entries × List Finding :=
  let key : QueueKey := ⟨host, a.queue⟩
  let entries := touch entries key line.time id
  match (entries.get? key).bind (·.standing? a.recipient) with
  | none => attemptOpen entries key none a daemon line
  | some (.pending d) => attemptOpen entries key (some d) a daemon line
  | some .handedOff => (entries, [])
  | some .done =>
    if a.status.isFinal && a.handOff?.isNone then
      (entries, [.replacement (final entries key a daemon line)])
    else (entries, [])

/-- A message expires: each recipient still waiting is reported as put off, then as expired. -/
def expire (entries : Entries) (key : QueueKey) (line : LineRef) : Entries × List Finding :=
  let pending := ((entries.get? key).map (·.pending)).getD []
  (entries.modify key fun e => e.settle.active line.time,
    pending.flatMap (expiry entries key line))

/-- A message leaves its queue. -/
def remove (entries : Entries) (key : QueueKey) (time : Instant) : Entries × List Finding :=
  let left := entries.modify key fun e => { e.settle.active time with removed := true }
  (release maxDepth left key, flush entries key)

/-- What a record tells of. -/
def take (entries : Entries) (r : Record) : Entries × List Finding :=
  let host := r.header.host
  let line := r.ref
  let note (queue : String) (f : Entry → Entry) : Entries :=
    touch entries ⟨host, queue⟩ r.time fun e => (f e).addLine line
  match r.payload with
  | .accepted queue client =>
    (note queue fun e => { e with clientHost := some client.host, clientIp := client.ip }, [])
  | .pickup p => (note p.queue fun e => { e with sender := e.sender.or (some p.sender) }, [])
  | .messageId m =>
    (note m.queue fun e =>
      if m.messageId.isEmpty then e else { e with messageId := some m.messageId }, [])
  | .queued q =>
    (note q.queue fun e =>
      { e with sender := some q.sender, size := some q.size, recipientCount := some q.recipients },
      [])
  | .bounceCreated queue child =>
    (touch (note queue id) ⟨host, child⟩ r.time fun e =>
      { e with originQueue := some queue }.addLine line, [])
  | .attempt a => attempt entries host r.header.daemonName a line
  | .expired e => expire entries ⟨host, e.queue⟩ line
  | .removed queue => remove entries ⟨host, queue⟩ r.time
  | .milterRejected queue _ => (entries.erase ⟨host, queue⟩, [])
  | .relayedBounce b => (entries, [.relayedBounce (b.report line)])
  | .connected _ | .disconnected .. | .lostConnection .. | .rejected .. | .version ..
  | .unsupported => (entries, [])

/-! ## Silent messages -/

/-- A message has been silent for longer than the timeout. -/
def isIdle (timeout : Duration) (now : Instant) (e : Entry) : Bool :=
  now - e.lastActivity > (timeout : Int)

/-- Silent messages are closed, each recipient still waiting ending as put off. A message that stays
no longer counts the closed ones that were handed on from it. -/
def prune (timeout : Duration) (now : Instant) (entries : Entries) : Entries × List Finding :=
  let idle := entries.rows.filter fun r => isIdle timeout now r.2
  let closed (key : QueueKey) : Nat := idle.countP fun r => r.2.parent = some key
  ((entries.filter fun r => !isIdle timeout now r.2).map fun key e => e.dropChildren (closed key),
    idle.flatMap fun r => flush entries r.1)

/-! ## The tracker -/

/-- The open messages, and when silent ones were last looked for. -/
structure State where
  entries : Entries
  lastPrune : Option Instant

namespace State

/-- Nothing is open. -/
def empty : State := ⟨.empty, none⟩

instance : Inhabited State := ⟨empty⟩

/-- Silent messages are closed if it is time to look for them. The first record only starts the
count. -/
def pruneIfDue (settings : Settings) (now : Instant) (s : State) : State × List Finding :=
  let last := s.lastPrune.getD now
  if now - last < (settings.pruneInterval : Int) then ({ s with lastPrune := some last }, [])
  else
    let (entries, found) := prune settings.idleTimeout now s.entries
    (⟨entries, some now⟩, found)

/-- One more record. -/
def handle (settings : Settings) (s : State) (r : Record) : State × List Finding :=
  let (entries, found) := take s.entries r
  let (s, late) := pruneIfDue settings r.time { s with entries }
  (s, found ++ late)

/-- Every message is closed. -/
def closeAll (s : State) : State × List Finding :=
  ({ s with entries := .empty }, s.entries.keys.flatMap (flush s.entries))

/-- What is found out from records, in order. -/
def run (settings : Settings) : State → List Record → State × List Finding
  | s, [] => (s, [])
  | s, r :: rs =>
    let (s, found) := s.handle settings r
    let (s, more) := run settings s rs
    (s, found ++ more)

end State

end Tracker

end MailTrace
