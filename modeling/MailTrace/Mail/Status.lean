/-!
# Status and direction of a delivery

Both are stored as small numbers.
-/

namespace MailTrace

/-- What became of a recipient. -/
inductive Status where
  | sent | bounced | deferred | expired | returned | received
deriving DecidableEq, Repr, Inhabited

namespace Status

/-- The statuses by their stored numbers. -/
def all : List Status := [sent, bounced, deferred, expired, returned, received]

/-- The word for a status. -/
def name : Status → String
  | sent => "sent"
  | bounced => "bounced"
  | deferred => "deferred"
  | expired => "expired"
  | returned => "returned"
  | received => "received"

/-- The stored number. -/
def code : Status → Nat
  | sent => 0
  | bounced => 1
  | deferred => 2
  | expired => 3
  | returned => 4
  | received => 5

/-- The status of a stored number. -/
def ofCode? (n : Int) : Option Status := all.find? fun s => (s.code : Int) == n

/-- The status that a log line names. None is logged as received. -/
def ofName? (text : String) : Option Status :=
  [sent, bounced, deferred, expired, returned].find? (·.name == text)

/-- The recipient is done with in this queue. -/
def isFinal (s : Status) : Bool := s != deferred

@[simp] theorem ofCode?_code (s : Status) : ofCode? s.code = some s := by cases s <;> decide

end Status

/-- Whether a message leaves the host or comes to it. -/
inductive Direction where
  | outbound | incoming
deriving DecidableEq, Repr, Inhabited

namespace Direction

/-- The word for a direction. -/
def name : Direction → String
  | outbound => "outbound"
  | incoming => "incoming"

/-- The stored number. -/
def code : Direction → Nat
  | outbound => 0
  | incoming => 1

/-- The direction of what a delivery program does. The local transports deliver into this host. -/
def ofDaemon (daemon : String) : Direction :=
  if daemon ∈ ["lmtp", "pipe", "virtual", "local"] then incoming else outbound

/-- The direction of a stored number. Every number but 1 counts as outbound. -/
def ofCode (n : Int) : Direction := if n = 1 then incoming else outbound

end Direction

end MailTrace
