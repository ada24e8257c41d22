/-!
# Tasks

Long-lived tasks with names. A task ends well, fails with a cause, or breaks off.
-/

namespace MailTrace

/-- Why a task did not end well. -/
inductive TaskFault where
  /-- The task failed with a cause. -/
  | failed (name cause : String)
  /-- The task broke off. -/
  | aborted (name : String)
deriving DecidableEq, Repr

/-- What is said of a fault first. -/
def TaskFault.headline : TaskFault → String
  | failed name _ => "task failed: name=" ++ name
  | aborted name => "task panicked or was aborted: name=" ++ name

/-- The wording of a fault. -/
def TaskFault.message (f : TaskFault) : String :=
  match f with
  | failed _ cause => f.headline ++ ": " ++ cause
  | aborted _ => f.headline

/-- A task by its name and how it ends once it is asked to. -/
structure Task where
  name : String
  breaks : Bool
  failure : Option String
deriving DecidableEq, Repr

namespace Task

/-- How a task ended. -/
def result (t : Task) : Except TaskFault Unit :=
  if t.breaks then .error (.aborted t.name)
  else
    match t.failure with
    | some cause => .error (.failed t.name cause)
    | none => .ok ()

/-- The first failure among results. -/
def firstFailure : List (Except TaskFault Unit) → Except TaskFault Unit
  | [] => .ok ()
  | .ok () :: rest => firstFailure rest
  | .error f :: _ => .error f

/-- The result of waiting for all tasks: that of the first one that did not end well. -/
def joinAll (tasks : List Task) : Except TaskFault Unit := firstFailure (tasks.map result)

/-- Where a task stands that works off what is sent to it. -/
inductive Phase where
  /-- It takes what is sent to it. -/
  | working
  /-- It takes no more, and works off what is there. -/
  | draining
  | ended
  | failed
deriving DecidableEq, Repr

/-- The task goes on. -/
def Phase.Active : Phase → Prop
  | working | draining => True
  | ended | failed => False

/-- The task is at its end. -/
def Phase.Over : Phase → Prop
  | working | draining => False
  | ended | failed => True

end Task

end MailTrace
