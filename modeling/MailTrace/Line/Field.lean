import MailTrace.Mail.Address
import MailTrace.Payload.Types
import MailTrace.Text.Blank

/-!
# Fields

The parts that texts of a mail log are made of: queue ids, addresses in angle brackets, quoted
values, named values up to a comma, hosts with their address in brackets.
-/

namespace MailTrace.Field

open MailTrace.Net MailTrace.Text

/-! ## Queue ids -/

/-- An ASCII letter or digit. -/
def isAlphanumeric (c : Char) : Bool :=
  ('0' ≤ c && c ≤ '9') || ('A' ≤ c && c ≤ 'Z') || ('a' ≤ c && c ≤ 'z')

/-- A queue id has one to 32 letters and digits. -/
def isQueueId (cs : List Char) : Bool := !cs.isEmpty && cs.length ≤ 32 && cs.all isAlphanumeric

/-- The queue id before the first colon and blank, with the text after them. -/
def queue? (cs : List Char) : Option (String × List Char) :=
  match cutText [':', ' '] cs with
  | some (queue, rest) => if isQueueId queue then some (String.ofList queue, rest) else none
  | none => none

/-! ## Values -/

/-- The text up to the closing angle bracket, and what follows it. Between double quotes an angle
bracket closes nothing. -/
def untilAngle (quoted : Bool) : List Char → Option (List Char × List Char)
  | [] => none
  | c :: cs =>
    if c = '>' && !quoted then some ([], cs)
    else
      (untilAngle (if c = '"' then !quoted else quoted) cs).map fun (inner, rest) =>
        (c :: inner, rest)

/-- The text in angle brackets at the start, and what follows it. -/
def angle? : List Char → Option (List Char × List Char)
  | '<' :: cs => untilAngle false cs
  | _ => none

/-- The address in angle brackets at the start, and what follows it. -/
def address? (cs : List Char) : Option (Address × List Char) :=
  (angle? cs).map fun (inner, rest) => (Address.ofChars inner, rest)

/-- A quote ends a value at the end of the text or before a comma. -/
def endsValue : List Char → Bool
  | [] => true
  | c :: _ => c == ','

/-- The value up to the quote that ends it, and what follows it. A backslash keeps the character
after it, and a quote elsewhere belongs to the value. -/
def untilQuote : List Char → Option (List Char × List Char)
  | [] => none
  | '\\' :: [] => none
  | '\\' :: c :: cs => (untilQuote cs).map fun (value, rest) => (c :: value, rest)
  | c :: cs =>
    if c = '"' && endsValue cs then some ([], cs)
    else (untilQuote cs).map fun (value, rest) => (c :: value, rest)

/-- The quoted value at the start, and what follows it. -/
def quoted? : List Char → Option (List Char × List Char)
  | '"' :: cs => untilQuote cs
  | _ => none

/-- The value of the named field at the start, up to the first comma and blank. -/
def named? (name : String) (cs : List Char) : Option (List Char × List Char) :=
  (after? name.toList cs).map fun rest => (cutText [',', ' '] rest).getD (rest, [])

/-- The text without a comma and a blank at its start. -/
def skipComma (cs : List Char) : List Char := (after? [',', ' '] cs).getD cs

/-! ## Clients -/

/-- A host with its address in brackets. What is no address counts as unknown. -/
def client? (cs : List Char) : Option Client := do
  let (host, _) ← cutAt '[' cs
  let ip ← between ['['] [']'] cs
  return ⟨String.ofList host, IPAddress.read? ip⟩

end MailTrace.Field
