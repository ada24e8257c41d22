/-!
# Why a line is refused

A line without a time or a header is lost. A line whose text is not understood is kept as a record
without an event, so these faults are recoverable.
-/

namespace MailTrace

/-- The programs whose text is understood. -/
inductive Agent where
  /-- The delivery programs: smtp, lmtp, pipe, local and virtual. -/
  | delivery
  /-- The queue manager. -/
  | queueManager
  /-- The server that clients connect to. -/
  | server
  /-- The program that queues messages. -/
  | cleanup
  /-- The program that takes messages submitted on this host. -/
  | pickup
  /-- The program that writes bounce messages. -/
  | bounce
  /-- The program that starts all others. -/
  | master
  /-- The filter that reports bounces of later hosts. -/
  | relay
deriving DecidableEq, Repr

/-- The name of an agent in messages. -/
def Agent.name : Agent → String
  | delivery => "smtp"
  | queueManager => "qmgr"
  | server => "smtpd"
  | cleanup => "cleanup"
  | pickup => "pickup"
  | bounce => "bounce"
  | master => "master"
  | relay => "relayed-bounce"

/-- What is wrong with the text of an agent. -/
inductive Defect where
  /-- A field is not there. -/
  | missing (field : String)
  /-- A part does not have its form. -/
  | invalid (part text : String)
  /-- No status has this name. -/
  | unknownStatus (text : String)
  /-- The sender is no address in angle brackets. -/
  | invalidSender
  /-- The version is empty. -/
  | emptyVersion
  /-- There is no equals sign in what is left. -/
  | expectedField (rest : String)
  /-- A quoted value does not end. -/
  | unterminatedQuote
  /-- An address does not end. -/
  | unterminatedAddress
  /-- Something other than a comma follows a value. -/
  | trailing (rest : String)
  /-- A bounce has to say its code and its recipient. -/
  | missingCodeOrRecipient
deriving DecidableEq, Repr

/-- The wording of a defect. -/
def Defect.reason : Defect → String
  | missing field => "missing " ++ field
  | invalid part text => "invalid " ++ part ++ " " ++ text
  | unknownStatus text => "unknown status " ++ text
  | invalidSender => "invalid sender"
  | emptyVersion => "empty version"
  | expectedField rest => "expected key=value at " ++ rest
  | unterminatedQuote => "unterminated quote"
  | unterminatedAddress => "unterminated address"
  | trailing rest => "trailing text " ++ rest
  | missingCodeOrRecipient => "missing code or recipient"

/-- Why a line is refused. -/
inductive LineFault where
  /-- The line has no header. -/
  | header
  /-- The text is no time. -/
  | time (text : String)
  /-- The time has its form and does not exist. -/
  | impossibleTime
  /-- The time in universal time is outside the calendar. -/
  | outsideCalendar
  /-- The text is none that is understood. -/
  | unsupported
  /-- The text begins like one that is understood. -/
  | payload (agent : Agent) (defect : Defect)
deriving DecidableEq, Repr

namespace LineFault

/-- The line can be kept without its event. -/
def IsRecoverable : LineFault → Prop
  | unsupported | payload .. => True
  | header | time _ | impossibleTime | outsideCalendar => False

instance : DecidablePred IsRecoverable := fun f => by cases f <;> unfold IsRecoverable <;> infer_instance

/-- The wording of a fault. -/
def message : LineFault → String
  | header => "invalid header line"
  | time text => "invalid time: " ++ text
  | impossibleTime | outsideCalendar => "invalid time"
  | unsupported => "unsupported log line"
  | payload agent defect => "invalid " ++ agent.name ++ " payload: " ++ defect.reason

end LineFault

/-- The value of an option, or else a fault. -/
def require {α : Type} (fault : LineFault) : Option α → Except LineFault α
  | some a => .ok a
  | none => .error fault

@[simp] theorem require_some {α : Type} (fault : LineFault) (a : α) :
    require fault (some a) = .ok a := rfl

@[simp] theorem require_none {α : Type} (fault : LineFault) :
    require fault (none : Option α) = .error fault := rfl

end MailTrace
