import MailTrace.Text.Cut

/-!
# Mail addresses

An address is a local part and a domain. A local part in double quotes loses them, and an address
without an at sign is a local part alone.
-/

namespace MailTrace

open MailTrace.Text

/-- A mail address. Both parts are empty for the null address. -/
structure Address where
  localPart : String
  domain : String
deriving DecidableEq, Repr, Inhabited

namespace Address

/-- The address of no one. -/
def null : Address := ⟨"", ""⟩

/-- Both parts are empty. -/
def isNull (a : Address) : Bool := a.localPart.isEmpty && a.domain.isEmpty

/-- The text without the double quotes around it, if both are there. -/
def unquote (cs : List Char) : List Char :=
  match cs with
  | '"' :: rest => (before? ['"'] rest).getD cs
  | _ => cs

/-- The address split at the last at sign. -/
def ofChars (cs : List Char) : Address :=
  match cutLast '@' cs with
  | some (front, domain) => ⟨String.ofList (unquote front), String.ofList domain⟩
  | none => ⟨String.ofList (unquote cs), ""⟩

/-- The address as it is shown and stored. -/
def display (a : Address) : String :=
  if a.domain.isEmpty then a.localPart else a.localPart ++ "@" ++ a.domain

instance : ToString Address := ⟨display⟩

end Address

end MailTrace
