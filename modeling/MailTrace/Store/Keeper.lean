import MailTrace.Store.Writer
import MailTrace.Task

/-!
# Keepers

One task writes to a store, its keeper. Others send it jobs, which wait in a queue of limited length.
Several moves can be possible at once, and time and the scheduler choose among them: the keeper takes
the next job, commits, cleans its store, or stops. Asked to stop it takes no more jobs, does those
that wait and commits.
-/

namespace MailTrace

/-- What a keeper does. -/
structure Duties (σ J : Type) where
  /-- How many jobs may wait. -/
  capacity : Nat
  action : J → Action σ
  /-- The job that a job leads to, when it is done in a state. It is sent after a delay. -/
  again? : σ → J → Option J
  /-- The cleaning of the store, if it is cleaned. -/
  cleaning? : Option (Action σ)

/-- The task that writes to a store. -/
structure Keeper (σ J : Type) where
  phase : Task.Phase
  /-- The jobs that wait. -/
  queue : List J
  /-- The jobs that are to be sent after a delay. -/
  later : List J
  writer : Writer σ
  /-- A cleaning changed the store. -/
  cleaned : Bool

namespace Keeper

variable {σ J : Type}

/-- Before the first move. -/
def start (s : σ) : Keeper σ J := ⟨.working, [], [], .start s, false⟩

/-- A job can be sent. -/
def HasRoom (d : Duties σ J) (k : Keeper σ J) : Prop :=
  k.phase = .working ∧ k.queue.length < max d.capacity 1

/-- A job is sent. -/
def push (k : Keeper σ J) (j : J) : Keeper σ J := { k with queue := k.queue ++ [j] }

/-- One move of a keeper that may have been `asked` to stop. A job that is to be sent after a delay is
dropped if the keeper takes no more by then. The store itself can fail at any moment, and keeps what
is committed. -/
inductive Step (d : Duties σ J) (asked : Prop) : Keeper σ J → Keeper σ J → Prop where
  | work {k : Keeper σ J} {j : J} {rest : List J} {w : Writer σ} (hactive : k.phase.Active)
      (hqueue : k.queue = j :: rest) (hdone : k.writer.execute (d.action j) = (w, none)) :
      Step d asked k { k with
        queue := rest, later := k.later ++ (d.again? k.writer.current j).toList, writer := w }
  | workFails {k : Keeper σ J} {j : J} {rest : List J} {w : Writer σ} {cause : String}
      (hactive : k.phase.Active) (hqueue : k.queue = j :: rest)
      (hfailed : k.writer.execute (d.action j) = (w, some cause)) :
      Step d asked k { k with phase := .failed, queue := rest, writer := w }
  | commit {k : Keeper σ J} (hphase : k.phase = .working) :
      Step d asked k { k with writer := k.writer.commit }
  | clean {k : Keeper σ J} {cleaning : Action σ} {w : Writer σ} (hphase : k.phase = .working)
      (hcleaning : d.cleaning? = some cleaning) (hdone : k.writer.execute cleaning = (w, none))
      (hchanged : w.current ≠ k.writer.current) :
      Step d asked k { k with writer := w, cleaned := true }
  | cleanNothing {k : Keeper σ J} {cleaning : Action σ} {w : Writer σ} (hphase : k.phase = .working)
      (hcleaning : d.cleaning? = some cleaning) (hdone : k.writer.execute cleaning = (w, none))
      (hsame : w.current = k.writer.current) : Step d asked k { k with writer := w }
  | cleanFails {k : Keeper σ J} {cleaning : Action σ} {w : Writer σ} {cause : String}
      (hphase : k.phase = .working) (hcleaning : d.cleaning? = some cleaning)
      (hfailed : k.writer.execute cleaning = (w, some cause)) :
      Step d asked k { k with phase := .failed, writer := w }
  | again {k : Keeper σ J} {j : J} {before after : List J} (hlater : k.later = before ++ j :: after)
      (hroom : k.HasRoom d) : Step d asked k { k.push j with later := before ++ after }
  | forget {k : Keeper σ J} {j : J} {before after : List J} (hlater : k.later = before ++ j :: after)
      (hphase : k.phase ≠ .working) : Step d asked k { k with later := before ++ after }
  | stop {k : Keeper σ J} (hphase : k.phase = .working) (hasked : asked) :
      Step d asked k { k with phase := .draining }
  | finish {k : Keeper σ J} (hphase : k.phase = .draining) (hqueue : k.queue = []) :
      Step d asked k { k with phase := .ended, writer := k.writer.commit }
  | storeFails {k : Keeper σ J} (hactive : k.phase.Active) :
      Step d asked k { k with phase := .failed, writer := .start k.writer.committed }

end Keeper

end MailTrace
