import MailTrace.Delivery
import MailTrace.Store.Numbered
import MailTrace.Store.Writer
import MailTrace.Word

/-!
# The archive of lines

Every line that was read is kept for a limited time with the second of its moment and its checksum.
Lines are listed by second, those of one second as they came, and a listing can be cut into pages.
-/

namespace MailTrace

open MailTrace.Time

/-- A line as it is kept. -/
structure ArchivedLine where
  second : Int
  sum : Int
  content : String
deriving DecidableEq, Repr

/-- The lines that are kept. -/
structure Archive where
  lines : Numbered ArchivedLine

/-- At most `n` items from the front. No limit is set by a negative number. -/
def limit {α : Type} (n : Int) (items : List α) : List α :=
  if n < 0 then items else items.take n.toNat

/-- Lines of a listing, and the number of the last one, from which the next page starts. It is 0 if
there are none. -/
structure Page where
  cursor : Nat
  lines : List ArchivedLine
deriving DecidableEq, Repr

namespace Archive

/-- A row of the archive. -/
abbrev Row := Nat × ArchivedLine

/-- Nothing is kept. -/
def empty : Archive := ⟨.empty⟩

/-- A line is kept. -/
def insert (a : Archive) (moment : Instant) (sum : Int) (content : String) : Archive :=
  ⟨a.lines.push ⟨moment.second, sum, content⟩⟩

/-- The line of a record is kept. -/
def add (a : Archive) (r : Record) : Archive := a.insert r.time r.sum r.line

/-- The order of a listing. -/
def precedes (r s : Row) : Bool :=
  r.2.second < s.2.second || (r.2.second = s.2.second && r.1 ≤ s.1)

/-- The rows with a property in the order of a listing. -/
def listing (p : Row → Bool) (a : Archive) : List Row := (a.lines.rows.filter p).mergeSort precedes

/-- The rows of an interval. -/
def scan (a : Archive) (i : Interval) : List Row := a.listing fun r => i.containsSecond r.2.second

/-- At most `size` lines of an interval, of those with numbers after `cursor`. -/
def page (a : Archive) (i : Interval) (size cursor : Int) : Page :=
  let rows := limit size (a.listing fun r => i.containsSecond r.2.second && cursor < (r.1 : Int))
  ⟨((rows.getLast?).map (·.1)).getD 0, rows.map (·.2)⟩

/-- The pages from a cursor on, each starting from the cursor of the one before, until an empty one
and at most `n`. -/
def pagesFrom (a : Archive) (i : Interval) (size : Int) : Nat → Int → List Page
  | 0, _ => []
  | n + 1, cursor =>
    let p := a.page i size cursor
    if p.lines.isEmpty then [] else p :: pagesFrom a i size n p.cursor

/-- The pages of an interval. Each has a cursor of its own, so there are no more than rows. -/
def pages (a : Archive) (i : Interval) (size : Int) : List Page :=
  a.pagesFrom i size a.lines.rows.length 0

/-- The number of lines in an interval. -/
def count (a : Archive) (i : Interval) : Nat :=
  a.lines.rows.countP fun r => i.containsSecond r.2.second

/-- The lines of an interval as a text. -/
def dump (a : Archive) (i : Interval) : String :=
  String.join ((a.scan i).map fun r => r.2.content ++ "\n")

/-- The line of a second with a checksum. The one that came first stands for all. -/
def line? (a : Archive) (second sum : Int) : Option String :=
  (a.lines.rows.find? fun r => r.2.second = second && r.2.sum = sum).map (·.2.content)

/-- The wording for a line that is not there. -/
def lineNotFound : String := "log line not found"

/-- The line that came last. -/
def last? (a : Archive) : Option ArchivedLine := a.lines.rows.getLast?.map (·.2)

/-! ## Cleaning -/

/-- The latest second of a line. -/
def newest? (a : Archive) : Option Int := (a.lines.rows.map (·.2.second)).max?

/-- The first second that is kept, when `newest` is the latest. It is reckoned in words. -/
def oldestKept (newest : Int) (maxAge : Duration) : Int :=
  Word.clamp 64 (newest - Word.clamp 64 maxAge.seconds)

/-- The rows older than the age, in the order of a listing. -/
def outdated (a : Archive) (maxAge : Duration) : List Row :=
  match a.newest? with
  | none => []
  | some newest => a.listing fun r => r.2.second < oldestKept newest maxAge

/-- At most `batch` of the oldest lines are deleted, of those older than the age. -/
def clean (a : Archive) (maxAge : Duration) (batch : Int) : Archive :=
  let deleted := (limit batch (a.outdated maxAge)).map (·.1)
  ⟨a.lines.filter fun r => r.1 ∉ deleted⟩

/-! ## Writing -/

/-- The keeping of a record's line, as a write. -/
def insertion (r : Record) : Action Archive := fun a => .done (a.add r)

/-- The cleaning, as a write. -/
def cleaning (maxAge : Duration) (batch : Int) : Action Archive := fun a => .done (a.clean maxAge batch)

end Archive

end MailTrace
