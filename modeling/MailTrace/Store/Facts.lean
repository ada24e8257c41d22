import MailTrace.Json
import MailTrace.Record
import MailTrace.Table
import MailTrace.Word

/-!
# Other facts

Values under names, such as the version of the mail server.
-/

namespace MailTrace

/-- The values by their names. -/
abbrev Facts := Table String Json

/-- Why a value cannot be read. -/
inductive FactFault where
  | noSuchKey (key : String)
  /-- The value is not of the kind that is asked for. -/
  | otherKind
deriving DecidableEq, Repr

/-- The wording of a fault. -/
def FactFault.message : FactFault → String
  | noSuchKey key => "no such key: " ++ key
  | otherKind => "invalid json value"

namespace Json

/-- The number that a value is, if a word of 64 bits with a sign holds it. -/
def asInteger? : Json → Option Int
  | number (some (.int n)) => if Word.holds 64 n then some n else none
  | _ => none

/-- The texts that a value is a list of. -/
def asTexts? : Json → Option (List String)
  | arr items => items.mapM asText?
  | _ => none

end Json

namespace Facts

/-- A value is kept as its text, in place of the one under its name. -/
def store (f : Facts) (key : String) (value : Json) : Facts :=
  f.upsert key value.rewritten fun _ => value.rewritten

/-- The value under a name. -/
def get (f : Facts) (key : String) : Except FactFault Json :=
  match f.get? key with
  | some value => .ok value
  | none => .error (.noSuchKey key)

/-- The value under a name, read as one of a kind. -/
def getAs {α : Type} (f : Facts) (kind : Json → Option α) (key : String) : Except FactFault α :=
  match f.get key with
  | .error fault => .error fault
  | .ok value =>
    match kind value with
    | some a => .ok a
    | none => .error .otherKind

theorem get_store (f : Facts) (key key' : String) (value : Json) :
    (f.store key value).get key' = if key' = key then .ok value.rewritten else f.get key' := by
  simp only [get, store, Table.get?_upsert]
  by_cases h : key' = key <;> simp [h]

/-- The name of the version of the mail server. -/
def versionKey : String := "postfix_version"

/-- The version is kept when a record tells of it. -/
def note (f : Facts) (r : Record) : Facts :=
  match r.payload with
  | .version version _ => f.store versionKey (.str version)
  | _ => f

/-- The version that was told last. -/
def version? (f : Facts) : Option String := (f.getAs Json.asText? versionKey).toOption

end Facts

end MailTrace
