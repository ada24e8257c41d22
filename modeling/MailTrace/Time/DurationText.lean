import MailTrace.Text.Blank
import MailTrace.Text.Number
import MailTrace.Time.Instant
import MailTrace.Word

/-!
# Lengths of time in words

A length of time is written as numbers with units, such as `1h 30m` or `1.5s`, which are added up.
Whole numbers and sums have to fit into 64 bits, and a fraction has to come out even.
-/

namespace MailTrace.Time

open MailTrace.Text

/-- A unit of time. -/
inductive TimeUnit where
  | nanosecond | microsecond | millisecond | second | minute | hour | day | week | month | year
deriving DecidableEq, Repr

namespace TimeUnit

/-- The names of the units. -/
def names : TimeUnit → List String
  | nanosecond => ["nanos", "nsec", "ns"]
  | microsecond => ["usec", "us", "µs"]
  | millisecond => ["millis", "msec", "ms"]
  | second => ["seconds", "second", "secs", "sec", "s"]
  | minute => ["minutes", "minute", "min", "mins", "m"]
  | hour => ["hours", "hour", "hrs", "hr", "h"]
  | day => ["days", "day", "d"]
  | week => ["weeks", "week", "wks", "wk", "w"]
  | month => ["months", "month", "M"]
  | year => ["years", "year", "yrs", "yr", "y"]

/-- The units from the shortest to the longest. -/
def all : List TimeUnit :=
  [nanosecond, microsecond, millisecond, second, minute, hour, day, week, month, year]

/-- The unit with a name. -/
def ofName? (name : String) : Option TimeUnit := all.find? (·.names.contains name)

/-- The nanoseconds of a unit. A year has 365.25 days and a month a twelfth of it, rounded to
minutes. -/
def nanos : TimeUnit → Nat
  | nanosecond => 1
  | microsecond => 1000
  | millisecond => 1000000
  | second => 1000000000
  | minute => 60 * 1000000000
  | hour => 3600 * 1000000000
  | day => 86400 * 1000000000
  | week => 604800 * 1000000000
  | month => 2630016 * 1000000000
  | year => 31557600 * 1000000000

/-- The grain in which whole numbers of the unit are counted: nanoseconds, or seconds. -/
def grain (u : TimeUnit) : Nat := if u.nanos < Duration.perSecond then 1 else Duration.perSecond

/-- The grain in which fractions of the unit are counted. There are none of a nanosecond. -/
def fractionGrain? : TimeUnit → Option Nat
  | nanosecond => none
  | microsecond | millisecond | second | minute => some 1
  | hour | day | week | month | year => some Duration.perSecond

end TimeUnit

namespace Duration

/-- The bound of the numbers that are counted with. -/
def wordBound : Nat := Word.count 64

/-- A length made longer by some grains, as long as grains and sums fit into their words. -/
def add? (d : Duration) (grains grain : Nat) : Option Duration :=
  let more := if grain = 1 then d.subsecond + grains else grains
  let sum : Duration := d + grains * grain
  if more < wordBound && sum.seconds < wordBound then some sum else none

/-- A number with an optional fraction, given by its digits, and a unit. -/
structure Item where
  whole : Nat
  fraction : Option (List Char)
  unit : TimeUnit

/-- A length made longer by whole units. -/
def addWhole? (d : Duration) (item : Item) : Option Duration :=
  let grain := item.unit.grain
  let grains := item.whole * (item.unit.nanos / grain)
  if item.whole < wordBound && grains < wordBound then d.add? grains grain else none

/-- A length made longer by a fraction of a unit, which has to be a whole number of grains. -/
def addFraction? (d : Duration) (u : TimeUnit) (digits : List Char) : Option Duration := do
  let grain ← u.fractionGrain?
  let numerator := Nat.ofDigitChars 10 digits 0
  let denominator := Nat.pow 10 digits.length
  let scaled := numerator * (u.nanos / grain)
  if denominator < wordBound && scaled < wordBound && scaled % denominator = 0 then
    d.add? (scaled / denominator) grain
  else none

/-- A length made longer by an item. -/
def addItem? (d : Duration) (item : Item) : Option Duration := do
  let d ← d.addWhole? item
  match item.fraction with
  | none => return d
  | some digits => d.addFraction? item.unit digits

/-! ## Reading -/

/-- A digit or a blank, which may stand between digits. -/
def inNumber (c : Char) : Bool := isDigit c || isBlank c

/-- A letter of a unit. -/
def inUnit (c : Char) : Bool := ('a' ≤ c && c ≤ 'z') || ('A' ≤ c && c ≤ 'Z') || c == 'µ'

/-- The digits at the start, with blanks among them left out. -/
def digitsAt (cs : List Char) : List Char := (cs.takeWhile inNumber).filter isDigit

/-- What follows the digits and blanks at the start. -/
def afterDigits (cs : List Char) : List Char := cs.dropWhile inNumber

/-- The fraction at the start, if there is one, and what follows it. -/
def fraction? : List Char → Option (Option (List Char) × List Char)
  | '.' :: cs =>
    if (digitsAt cs).isEmpty then none else some (some (digitsAt cs), afterDigits cs)
  | cs => some (none, cs)

/-- What follows an item: nothing, the next item at once, or the next item after blanks. -/
def nextItem? (cs : List Char) : Option (List Char) :=
  match cs with
  | [] => some []
  | c :: _ =>
    if isDigit c then some cs
    else if isBlank c then some (trimStart cs)
    else none

/-- The item at the start, which has to begin with a digit, and the text from the next one on. -/
def item? (cs : List Char) : Option (Item × List Char) :=
  match cs with
  | [] => none
  | c :: tail =>
    if isDigit c then do
      let whole := Nat.ofDigitChars 10 (c :: digitsAt tail) 0
      let (fraction, rest) ← fraction? (afterDigits tail)
      let unit ← TimeUnit.ofName? (String.ofList (rest.takeWhile inUnit))
      return (⟨whole, fraction, unit⟩, ← nextItem? (rest.dropWhile inUnit))
    else none

theorem length_dropWhile_le (p : Char → Bool) (cs : List Char) :
    (cs.dropWhile p).length ≤ cs.length := (List.dropWhile_suffix p).length_le

theorem length_fraction? {cs rest : List Char} {f : Option (List Char)}
    (h : fraction? cs = some (f, rest)) : rest.length ≤ cs.length := by
  unfold fraction? at h
  split at h
  · rename_i tail
    split at h
    · simp at h
    · simp only [Option.some.injEq, Prod.mk.injEq] at h
      have := length_dropWhile_le inNumber tail
      rw [← h.2]
      simp only [afterDigits, List.length_cons]
      omega
  · simp only [Option.some.injEq, Prod.mk.injEq] at h
    simp [h.2]

theorem length_nextItem? {cs rest : List Char} (h : nextItem? cs = some rest) :
    rest.length ≤ cs.length := by
  unfold nextItem? at h
  split at h
  · simp_all
  · split at h
    · simp_all
    · split at h
      · simp only [Option.some.injEq] at h
        rw [← h]
        exact length_dropWhile_le isBlank _
      · simp at h

theorem length_item? {cs rest : List Char} {item : Item} (h : item? cs = some (item, rest)) :
    rest.length < cs.length := by
  unfold item? at h
  split at h
  · simp at h
  · rename_i c tail
    split at h
    · simp only [Option.bind_eq_bind, Option.bind_eq_some_iff, Prod.exists, Option.pure_def,
        Option.some.injEq, Prod.mk.injEq] at h
      obtain ⟨f, r, hf, u, _, n, hn, _, rfl⟩ := h
      have h₁ := length_fraction? hf
      have h₂ := length_nextItem? hn
      have h₃ := length_dropWhile_le inUnit r
      have h₄ := length_dropWhile_le inNumber tail
      simp only [afterDigits] at h₁
      simp only [List.length_cons]
      omega
    · simp at h

/-- The items of a text, of which there is at least one. -/
def items? (cs : List Char) : Option (List Item) :=
  match h : item? cs with
  | none => none
  | some (item, rest) =>
    have : rest.length < cs.length := length_item? h
    if rest.isEmpty then some [item] else (items? rest).map (item :: ·)
termination_by cs.length

/-- The length that a text tells. Only zero may stand without a unit. -/
def read? (cs : List Char) : Option Duration :=
  if cs = ['0'] then some 0
  else do (← items? (trimStart cs)).foldlM addItem? 0

/-! ## Settings -/

/-- The value of a setting for a length of time. -/
inductive Setting where
  | nothing
  | seconds (n : Nat)
  | text (t : String)
  | other

/-- The length that a setting gives, which may be none where nothing or a blank text stands. -/
def Setting.optional? : Setting → Option (Option Duration)
  | nothing => some none
  | seconds n => if n < wordBound then some (some (ofSeconds n)) else none
  | text t =>
    let t := trim t.toList
    if t.isEmpty then some none else (read? t).map some
  | other => none

/-- The length that a setting has to give. -/
def Setting.required? (s : Setting) : Option Duration := s.optional?.join

end Duration

end MailTrace.Time
