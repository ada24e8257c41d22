/-!
# Arguments of the command

The command takes at most the path of its configuration.
-/

namespace MailTrace

/-- Why the arguments are refused. -/
inductive UsageFault where
  | tooMany (second : String)
  | help
deriving DecidableEq, Repr

/-- How the command is used. -/
def usage : String := "usage: controlcenter-server [config-path]"

/-- The wording of a refusal. -/
def UsageFault.message : UsageFault → String
  | tooMany second => "too many arguments: " ++ second ++ " (" ++ usage ++ ")"
  | help => usage

/-- The path of the configuration, if one is given. -/
def configPath : List String → Except UsageFault (Option String)
  | [] => .ok none
  | [path] => if path = "-h" || path = "--help" then .error .help else .ok (some path)
  | _ :: second :: _ => .error (.tooMany second)

end MailTrace
