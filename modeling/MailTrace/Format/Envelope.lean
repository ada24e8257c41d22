import MailTrace.Json

/-!
# Envelopes

A log line wrapped in JSON, with the moment it was shipped at and the file it came from.
-/

namespace MailTrace

/-- The members of a value under known names. An object may hold others and must not repeat a known
one. An array lists the members in the order of the names. -/
def Json.fields? (names : List String) : Json → Option (List (String × Json))
  | .obj members => do
    let members ← members.mapM fun (key, v) => key.map (·, v)
    let known := members.filter fun m => names.contains m.1
    if (known.map (·.1)).Nodup then some known else none
  | .arr items => if items.length ≤ names.length then some (names.zip items) else none
  | _ => none

/-- A member that may be left out or null. -/
def Json.optional? {α : Type} (read : Json → Option α) : Option Json → Option (Option α)
  | none | some .null => some none
  | some v => (read v).map some

/-- A wrapped log line. -/
structure Envelope where
  timestamp : String
  file : Option String
  message : String
deriving DecidableEq, Repr

namespace Envelope

/-- The path in the description of a file. -/
def path? (v : Json) : Option String := do
  (← (← v.fields? ["path"]).lookup "path").asText?

/-- The path in the description of a log, if it tells of a file. -/
def logFile? (v : Json) : Option (Option String) := do
  Json.optional? path? ((← v.fields? ["file"]).lookup "file")

/-- The envelope that a value describes. -/
def ofJson? (v : Json) : Option Envelope := do
  let fields ← v.fields? ["@timestamp", "log", "message"]
  return {
    timestamp := ← (← fields.lookup "@timestamp").asText?
    file := (← Json.optional? logFile? (fields.lookup "log")).join
    message := ← (← fields.lookup "message").asText? }

/-- The envelope that a line holds. -/
def read? (line : List Char) : Option Envelope := (Json.read? line).bind ofJson?

end Envelope

end MailTrace
