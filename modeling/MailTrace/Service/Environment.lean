/-!
# The service and its host

How the host tells the service to stop, and where the messages of the service go.
-/

namespace MailTrace

/-- A signal that stops the service. -/
inductive StopSignal where
  | terminate | interrupt
deriving DecidableEq, Repr

/-- The name of a signal. -/
def StopSignal.name : StopSignal → String
  | terminate => "SIGTERM"
  | interrupt => "SIGINT"

/-- Where messages go. -/
inductive MessageSink where
  /-- The journal of the host. -/
  | journal
  | stderr
deriving DecidableEq, Repr

/-- The name of a sink. -/
def MessageSink.name : MessageSink → String
  | journal => "journald"
  | stderr => "stderr"

end MailTrace
