import MailTrace.Store.Ledger

/-!
# Bounces that come early

A bounce may be known before its delivery is. One that matches no delivery is tried again a number of
times, each after a delay in which other writes are done.
-/

namespace MailTrace

/-- A bounce to be written, and how many attempts may follow the next one. -/
structure BounceAttempt where
  report : BounceReport
  retries : Nat
deriving DecidableEq, Repr

/-- The attempt after one that matched nothing, if there is one. -/
def BounceAttempt.again? (a : BounceAttempt) : Option BounceAttempt :=
  match a.retries with
  | 0 => none
  | n + 1 => some { a with retries := n }

/-- One attempt to write a bounce, and the attempt that is to follow. -/
def Ledger.attempt (l : Ledger) (a : BounceAttempt) : Ledger × Option BounceAttempt :=
  if (l.matchedBy a.report).isEmpty then (l, a.again?) else (l.bounce a.report, none)

/-- A ledger and the bounces that wait for another attempt, in the order of their last ones. -/
structure Desk where
  ledger : Ledger
  waiting : List BounceAttempt

namespace Desk

/-- An empty ledger, and no bounce waits. -/
def empty : Desk := ⟨.empty, []⟩

/-- An attempt is made. -/
def attempt (d : Desk) (a : BounceAttempt) : Desk :=
  let (ledger, again) := d.ledger.attempt a
  ⟨ledger, d.waiting ++ again.toList⟩

/-- A write is done. A bounce may be tried again `retries` times. -/
def write (retries : Nat) (d : Desk) : Ledger.Write → Desk
  | .bounce b => d.attempt ⟨b, retries⟩
  | w => { d with ledger := d.ledger.apply w }

/-- Every waiting bounce has its next attempt. -/
def retryAll (d : Desk) : Desk := d.waiting.foldl attempt { d with waiting := [] }

/-- Every waiting bounce has at most `n` more attempts. -/
def retryTimes : Nat → Desk → Desk
  | 0, d => d
  | n + 1, d => retryTimes n d.retryAll

/-- Every waiting bounce has all its attempts. -/
def settle (d : Desk) : Desk :=
  d.retryTimes ((d.waiting.map (·.retries + 1)).max?.getD 0)

end Desk

end MailTrace
