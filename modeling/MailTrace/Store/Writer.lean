/-!
# Writers

Every write to a store is an action in a queue that one writer works off. Actions gather in a
transaction that is committed from time to time, each behind a savepoint of its own. An action that
fails is undone back to its savepoint; what was done before it is committed, and the writer ends.
-/

namespace MailTrace

/-- How an action ends. -/
inductive Outcome (σ : Type) where
  | done (state : σ)
  /-- The action failed after it had got to a state. -/
  | failed (reached : σ) (cause : String)

/-- A write to a store. -/
abbrev Action (σ : Type) := σ → Outcome σ

/-- A state that is marked in a transaction, and what was made of it since. -/
structure Savepoint (σ : Type) where
  marked : σ
  reached : σ

namespace Savepoint

variable {σ : Type}

/-- The transaction is marked in a state. -/
def mark (s : σ) : Savepoint σ := ⟨s, s⟩

/-- An action works on from what was reached. One that fails leaves what it got to, and its cause. -/
def perform (p : Savepoint σ) (a : Action σ) : Savepoint σ × Option String :=
  match a p.reached with
  | .done s => ({ p with reached := s }, none)
  | .failed s cause => ({ p with reached := s }, some cause)

/-- What was made since the mark stays in the transaction. -/
def release (p : Savepoint σ) : σ := p.reached

/-- What was made since the mark is undone. -/
def rollback (p : Savepoint σ) : σ := p.marked

end Savepoint

/-- What is committed, and the open transaction with what was done since. -/
structure Writer (σ : Type) where
  committed : σ
  transaction : Option σ

/-- Why a write was not done. -/
inductive WriteFault where
  | failed (writer cause : String)
  | stopped (writer : String)
deriving DecidableEq, Repr

/-- The wording of a fault. -/
def WriteFault.message : WriteFault → String
  | failed writer cause => "database action failed: runner=" ++ writer ++ ": " ++ cause
  | stopped writer => "database runner stopped: name=" ++ writer

/-- What a writer can turn to while it works: the next action, a commit that is due, or the cleaning
of its store that is due. -/
inductive Turn where
  | action | commit | cleaning
deriving DecidableEq, Repr

namespace Writer

variable {σ : Type}

/-- A writer of a store. -/
def start (s : σ) : Writer σ := ⟨s, none⟩

/-- The state that the next action finds. -/
def current (w : Writer σ) : σ := w.transaction.getD w.committed

/-- The transaction is committed, if one is open. -/
def commit (w : Writer σ) : Writer σ := ⟨w.current, none⟩

/-- An action is done in the transaction, behind a savepoint. If it fails it is undone, what was done
before it is committed, and its cause is told. -/
def execute (w : Writer σ) (a : Action σ) : Writer σ × Option String :=
  match (Savepoint.mark w.current).perform a with
  | (savepoint, none) => (⟨w.committed, some savepoint.release⟩, none)
  | (savepoint, some cause) => (commit ⟨w.committed, some savepoint.rollback⟩, some cause)

/-- The queue is worked off to its end, and what was done is committed. -/
def drain : Writer σ → List (Action σ) → Writer σ × Except String Unit
  | w, [] => (w.commit, .ok ())
  | w, a :: queue =>
    match w.execute a with
    | (w, none) => drain w queue
    | (w, some cause) => (w, .error cause)

/-- The writer works turn by turn until it is asked to stop, and then to the end of its queue. -/
def run (cleaning : Action σ) : Writer σ → List Turn → List (Action σ) →
    Writer σ × Except String Unit
  | w, [], queue => w.drain queue
  | w, .commit :: turns, queue => run cleaning w.commit turns queue
  | w, .cleaning :: turns, queue =>
    match w.execute cleaning with
    | (w, none) => run cleaning w turns queue
    | (w, some cause) => (w, .error cause)
  | w, .action :: turns, [] => run cleaning w turns []
  | w, .action :: turns, a :: queue =>
    match w.execute a with
    | (w, none) => run cleaning w turns queue
    | (w, some cause) => (w, .error cause)

@[simp] theorem current_start (s : σ) : (start s).current = s := rfl

@[simp] theorem current_commit (w : Writer σ) : w.commit.current = w.current := rfl

theorem execute_of_done {w : Writer σ} {a : Action σ} {s : σ} (h : a w.current = .done s) :
    w.execute a = (⟨w.committed, some s⟩, none) := by
  simp only [execute, Savepoint.perform, Savepoint.mark, h, Savepoint.release]

theorem execute_of_failed {w : Writer σ} {a : Action σ} {s : σ} {cause : String}
    (h : a w.current = .failed s cause) : w.execute a = (start w.current, some cause) := by
  simp only [execute, Savepoint.perform, Savepoint.mark, h, Savepoint.rollback]
  rfl

/-- The state left by actions in order, up to the first one that fails, and its cause. -/
def effect : σ → List (Action σ) → σ × Except String Unit
  | s, [] => (s, .ok ())
  | s, a :: queue =>
    match a s with
    | .done s => effect s queue
    | .failed _ cause => (s, .error cause)

theorem drain_eq_effect (w : Writer σ) (queue : List (Action σ)) :
    w.drain queue = (start (effect w.current queue).1, (effect w.current queue).2) := by
  induction queue generalizing w with
  | nil => rfl
  | cons a queue ih =>
    simp only [drain, effect]
    cases h : a w.current with
    | done s =>
      rw [execute_of_done h]
      exact ih _
    | failed s cause => rw [execute_of_failed h]

end Writer

end MailTrace
