import MailTrace.Delivery
import MailTrace.Store.Numbered
import MailTrace.Store.Writer
import MailTrace.Word

/-!
# The ledger of deliveries

Deliveries are kept in one table and the lines they were learnt from in another, where each line has
a position within its delivery. Moments are kept as whole seconds and addresses as they are shown.
-/

namespace MailTrace

open MailTrace.Net MailTrace.Text MailTrace.Time

/-- A delivery as it is kept. -/
structure DeliveryRow where
  status : Status
  direction : Direction
  queuedSecond : Int
  firstAttemptSecond : Int
  deliverySecond : Int
  host : String
  queue : String
  originQueue : Option String
  messageId : Option String
  sender : String
  recipient : String
  origRecipient : Option String
  relayName : Option String
  relayIp : Option IPAddress
  relayPort : Option UInt16
  dsn : String
  delay : Binary32
  extraMessage : Option String
  clientHost : Option String
  clientIp : Option IPAddress
  size : Option UInt64
  recipients : Option UInt32
deriving DecidableEq, Repr

/-- A text, or none for the empty one. -/
def nonEmpty? (t : String) : Option String := if t.isEmpty then none else some t

/-- The row of a delivery. A message size that no word with a sign holds is not kept. -/
def DeliveryRow.ofDelivery (d : Delivery) : DeliveryRow where
  status := d.status
  direction := d.direction
  queuedSecond := d.queuedTime.second
  firstAttemptSecond := d.firstAttemptTime.second
  deliverySecond := d.deliveryTime.second
  host := d.host
  queue := d.queue
  originQueue := d.originQueue
  messageId := d.messageId
  sender := d.sender.display
  recipient := d.recipient.display
  origRecipient := d.origRecipient.map (·.display)
  relayName := nonEmpty? d.relay.name
  relayIp := d.relay.ip
  relayPort := if d.relay.port = 0 then none else some d.relay.port
  dsn := d.dsn
  delay := d.delay
  extraMessage := nonEmpty? d.extraMessage
  clientHost := d.clientHost
  clientIp := d.clientIp
  size := d.size.filter fun n => Word.holds 64 n.toNat
  recipients := d.recipients

/-- A line of a delivery: its position among those of the delivery, its second and its checksum. -/
structure LineRow where
  delivery : Nat
  position : Nat
  second : Int
  sum : Int
deriving DecidableEq, Repr

/-- The deliveries and their lines. -/
structure Ledger where
  deliveries : Numbered DeliveryRow
  lines : List LineRow

/-- A delivery that was looked up, with the seconds and checksums of its lines. -/
structure KeptDelivery where
  id : Nat
  row : DeliveryRow
  lines : List (Int × Int)
deriving DecidableEq, Repr

namespace Ledger

/-- A delivery with its number. -/
abbrev Row := Nat × DeliveryRow

/-- Nothing is kept. -/
def empty : Ledger := ⟨.empty, []⟩

instance : Inhabited Ledger := ⟨empty⟩

/-! ## Adding and replacing -/

/-- The rows of a delivery's lines, from a position on. -/
def lineRows (id : Nat) : Nat → List LineRef → List LineRow
  | _, [] => []
  | position, r :: rs => ⟨id, position, r.time.second, r.sum⟩ :: lineRows id (position + 1) rs

/-- A delivery is added with its lines. -/
def insert (l : Ledger) (d : Delivery) : Ledger :=
  ⟨l.deliveries.push (.ofDelivery d), l.lines ++ lineRows l.deliveries.next 0 d.lines⟩

/-- A row is an earlier result of the message of a delivery at its recipient. -/
def isReplacedBy (d : Delivery) (r : Row) : Bool :=
  r.2.host = d.host && r.2.queue = d.queue && r.2.recipient = d.recipient.display &&
    r.2.status ≠ .deferred

/-- The deliveries with numbers that do not have a property, with their lines. -/
def without (l : Ledger) (p : Nat → Bool) : Ledger :=
  ⟨l.deliveries.filter fun r => !p r.1, l.lines.filter fun line => !p line.delivery⟩

/-- The numbers of the rows that a delivery replaces. -/
def replacedBy (l : Ledger) (d : Delivery) : List Nat :=
  (l.deliveries.rows.filter (isReplacedBy d)).map (·.1)

/-- The earlier results are deleted with their lines. -/
def withdraw (l : Ledger) (d : Delivery) : Ledger := l.without fun id => id ∈ l.replacedBy d

/-- A delivery takes the place of the earlier results. What was reported as put off stays. -/
def replace (l : Ledger) (d : Delivery) : Ledger := (l.withdraw d).insert d

/-! ## Bounces -/

/-- How many seconds before a bounce its delivery may have been. -/
def bounceWindow : Int := 3600

/-- A row is a delivery that a bounce may tell of: sent to the recipient in the time before it, with
the same sender unless one of the two is unknown. -/
def isMatchedBy (b : BounceReport) (r : Row) : Bool :=
  r.2.status = .sent && r.2.recipient = b.recipient.display &&
    b.time.second - bounceWindow ≤ r.2.deliverySecond && r.2.deliverySecond ≤ b.time.second &&
    (b.sender.display = "" || r.2.sender = "" || r.2.sender = b.sender.display)

/-- The numbers of the rows that a bounce may tell of. -/
def matchedBy (l : Ledger) (b : BounceReport) : List Nat :=
  (l.deliveries.rows.filter (isMatchedBy b)).map (·.1)

/-- The position after the last line of a delivery. -/
def nextPosition (l : Ledger) (id : Nat) : Nat :=
  match ((l.lines.filter (·.delivery = id)).map (·.position)).max? with
  | none => 0
  | some last => last + 1

/-- One more line for a delivery. -/
def appendLine (l : Ledger) (id : Nat) (line : LineRef) : Ledger :=
  { l with lines := l.lines ++ [⟨id, l.nextPosition id, line.time.second, line.sum⟩] }

/-- A delivery turns out to have bounced. -/
def markBounced (l : Ledger) (b : BounceReport) (id : Nat) : Ledger :=
  { l with deliveries := l.deliveries.map fun i row =>
      if i = id then { row with status := .bounced, dsn := b.dsn, extraMessage := some b.message }
      else row }

/-- Every delivery that a bounce may tell of has bounced, and the line of the bounce is one of its
lines. -/
def bounce (l : Ledger) (b : BounceReport) : Ledger :=
  (l.matchedBy b).foldl (fun l id => (l.markBounced b id).appendLine id b.line) l

/-! ## Looking up -/

/-- The lines of a delivery by position. -/
def linesOf (l : Ledger) (id : Nat) : List (Int × Int) :=
  ((l.lines.filter (·.delivery = id)).mergeSort fun a b => a.position ≤ b.position).map
    fun line => (line.second, line.sum)

/-- The order of deliveries that are looked up. -/
def precedes (r s : Row) : Bool :=
  r.2.deliverySecond < s.2.deliverySecond ||
    (r.2.deliverySecond = s.2.deliverySecond && r.1 ≤ s.1)

/-- The deliveries of an interval by second and number. The empty text stands for any sender or
recipient. -/
def find (l : Ledger) (sender recipient : String) (i : Interval) : List KeptDelivery :=
  let wanted (r : Row) : Bool :=
    (sender = "" || r.2.sender = sender) && (recipient = "" || r.2.recipient = recipient) &&
      i.containsSecond r.2.deliverySecond
  ((l.deliveries.rows.filter wanted).mergeSort precedes).map fun r => ⟨r.1, r.2, l.linesOf r.1⟩

/-- Some delivery is kept. -/
def hasDeliveries (l : Ledger) : Bool := !l.deliveries.rows.isEmpty

/-- The latest second of a delivery. -/
def newest? (l : Ledger) : Option Int := (l.deliveries.rows.map (·.2.deliverySecond)).max?

/-! ## Writing -/

/-- A write to the ledger. -/
inductive Write where
  | store (d : Delivery)
  | replace (d : Delivery)
  | bounce (b : BounceReport)
deriving DecidableEq, Repr

/-- What a write makes of the ledger. -/
def apply (l : Ledger) : Write → Ledger
  | .store d => l.insert d
  | .replace d => l.replace d
  | .bounce b => l.bounce b

/-- The wording for a delivery that cannot be kept. -/
def insertFault : String := "failed to insert delivery"

/-- A write as an action. A delivery whose delay is no number cannot be kept. -/
def Write.action : Write → Action Ledger
  | store d, l => if d.delay.isNaN then .failed l insertFault else .done (l.insert d)
  | replace d, l =>
    if d.delay.isNaN then .failed (l.withdraw d) insertFault else .done (l.replace d)
  | bounce b, l => .done (l.bounce b)

end Ledger

end MailTrace
