import MailTrace.Text.Cut

/-!
# Addresses of sockets

A log is taken from a socket that is named by its kind and its path or host.
-/

namespace MailTrace

open MailTrace.Text

/-- Where a socket listens. -/
inductive SocketAddress where
  | unix (path : String)
  | tcp (address : String)
deriving DecidableEq, Repr

/-- Why a description names no socket. -/
inductive SocketFault where
  | invalid (description : String)
  | unsupported (kind : String)
deriving DecidableEq, Repr

/-- The wording of a fault. -/
def SocketFault.message : SocketFault → String
  | invalid description =>
    "invalid socket description: " ++ description ++
      ", expected \"unix=/path/to/socket\" or \"tcp=host:port\""
  | unsupported kind => "unsupported socket kind: " ++ kind

/-- The socket of a description, which is a kind and an address with one equals sign. -/
def SocketAddress.read (description : String) : Except SocketFault SocketAddress :=
  match pieces (· == '=') description.toList with
  | [kind, address] =>
    match String.ofList kind with
    | "unix" => .ok (.unix (String.ofList address))
    | "tcp" => .ok (.tcp (String.ofList address))
    | other => .error (.unsupported other)
  | _ => .error (.invalid description)

end MailTrace
