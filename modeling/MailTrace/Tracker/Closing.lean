import MailTrace.Tracker.State

/-!
# The order of closing

Messages that were silent for too long are closed together, and so is what is open at the end. Which
of them is closed first says nothing about them. `State.handle` and `State.closeAll` close them in the
order in which they were opened; here any order can be taken. `State.pruneEach` and `State.closeEach`
close them one after the other, so that each step finds what the ones before it left.
-/

namespace MailTrace.Tracker

open MailTrace.Time

/-! ## What is told -/

namespace State

/-- The messages that are closed after a record. -/
def closedAfter (settings : Settings) (s : State) (r : Record) : List QueueKey :=
  if r.time - s.lastPrune.getD r.time < (settings.pruneInterval : Int) then []
  else ((take s.entries r).1.rows.filter fun row =>
    isIdle settings.idleTimeout r.time row.2).map (·.1)

/-- What is told of a record and then of messages that are closed, in an order of these. -/
def tellIn (s : State) (r : Record) (order : List QueueKey) : List Finding :=
  (take s.entries r).2 ++ order.flatMap (flush (take s.entries r).1)

/-- What is told of messages that are closed at the end, in an order of these. -/
def closeIn (s : State) (order : List QueueKey) : List Finding := order.flatMap (flush s.entries)

end State

/-! ## One after the other -/

/-- The recipients of a message who are still waiting end as put off. They no longer wait when it is
told. -/
def settleOne (entries : Entries) (key : QueueKey) : Entries × List Finding :=
  let settled := entries.modify key (·.settle)
  (settled, (((entries.get? key).map (·.pending)).getD []).map (summary settled key))

/-- The recipients of one message after the other. -/
def settleEach : Entries → List QueueKey → Entries × List Finding
  | entries, [] => (entries, [])
  | entries, key :: keys =>
    let (entries, found) := settleOne entries key
    let (entries, more) := settleEach entries keys
    (entries, found ++ more)

/-- A message is closed. The one that it was handed on from counts one fewer if it is still open. -/
def closeOne (entries : Entries) (key : QueueKey) : Entries :=
  let rest := entries.erase key
  match (entries.get? key).bind (·.parent) with
  | some parent => rest.modify parent (·.dropChildren 1)
  | none => rest

namespace State

/-- Silent messages are closed if it is time to look for them. All open messages are looked through in
an order; first the recipients of all silent ones are settled, then these are closed, one after the
other. -/
def pruneEach (settings : Settings) (now : Instant) (order : List QueueKey) (s : State) :
    State × List Finding :=
  let last := s.lastPrune.getD now
  if now - last < (settings.pruneInterval : Int) then ({ s with lastPrune := some last }, [])
  else
    let idle := order.filter fun key => (s.entries.get? key).any (isIdle settings.idleTimeout now)
    let (settled, found) := settleEach s.entries idle
    (⟨idle.foldl closeOne settled, some now⟩, found)

/-- Every message is closed. Their recipients are settled one message after the other, in an order. -/
def closeEach (order : List QueueKey) (s : State) : State × List Finding :=
  ({ s with entries := .empty }, (settleEach s.entries order).2)

end State

end MailTrace.Tracker
