import MailTrace.Net.IPAddress
import MailTrace.Text.Binary64
import MailTrace.Text.Number

/-!
# JSON

Values of the data format and a reader for them. The reader takes the grammar by the letter: no
comments, no spare commas, no needless zeros, no control characters in texts. A text may hold half
of a surrogate pair, and then stands for no text. A number may be too large, and then stands for no
number.
-/

namespace MailTrace

open MailTrace.Net MailTrace.Text

/-- A number. -/
inductive JsonNumber where
  /-- A whole number of 64 bits, written without a point and a power of ten. -/
  | int (n : Int)
  /-- Any other number. -/
  | float (x : Binary64)
deriving DecidableEq, Repr, Inhabited

/-- The text of a number. -/
def JsonNumber.text : JsonNumber → List Char
  | int n => (toString n).toList
  | float x => x.text

/-- A value. The members of an object keep their order and may repeat a key. -/
inductive Json where
  | null
  | bool (b : Bool)
  /-- A number, or none for a number that is too large. -/
  | number (n : Option JsonNumber)
  /-- A text, or none for a text with half of a surrogate pair. -/
  | str (s : Option String)
  | arr (items : List Json)
  | obj (members : List (Option String × Json))
deriving Inhabited

namespace Json

/-- The blanks of the format. -/
def isSpace (c : Char) : Bool := c = ' ' || c = '\n' || c = '\t' || c = '\r'

/-- The text without its leading blanks. -/
def skipSpace (cs : List Char) : List Char := cs.dropWhile isSpace

/-! ## Texts -/

/-- A unit of a text: a character, or a number of 16 bits that an escape names. -/
inductive TextUnit where
  | char (c : Char)
  | code (n : Nat)

/-- The character that a backslash and a letter stand for. -/
def escape? : Char → Option Char
  | '"' => some '"'
  | '\\' => some '\\'
  | '/' => some '/'
  | 'b' => some '\x08'
  | 'f' => some '\x0c'
  | 'n' => some '\n'
  | 'r' => some '\r'
  | 't' => some '\t'
  | _ => none

/-- The units up to the closing quote, and what follows it. -/
def textUnits : List Char → Option (List TextUnit × List Char)
  | [] => none
  | '"' :: cs => some ([], cs)
  | '\\' :: 'u' :: a :: b :: c :: d :: cs => do
    let n ← IPAddress.hexadecimal? [a, b, c, d]
    let (us, rest) ← textUnits cs
    return (.code n :: us, rest)
  | '\\' :: e :: cs => do
    let c ← escape? e
    let (us, rest) ← textUnits cs
    return (.char c :: us, rest)
  | c :: cs =>
    if c.toNat < 0x20 || c = '\\' then none
    else (textUnits cs).map fun (us, rest) => (.char c :: us, rest)

/-- A high half of a surrogate pair. -/
def isHigh (n : Nat) : Bool := 0xD800 ≤ n && n ≤ 0xDBFF

/-- A low half of a surrogate pair. -/
def isLow (n : Nat) : Bool := 0xDC00 ≤ n && n ≤ 0xDFFF

/-- The characters of units, unless one is half of a pair. -/
def characters : List TextUnit → Option (List Char)
  | [] => some []
  | .char c :: us => (characters us).map (c :: ·)
  | .code n :: .code m :: us =>
    if isHigh n && isLow m then
      (characters us).map (Char.ofNat (0x10000 + (n - 0xD800) * 0x400 + (m - 0xDC00)) :: ·)
    else if isHigh n || isLow n then none
    else (characters (.code m :: us)).map (Char.ofNat n :: ·)
  | .code n :: us =>
    if isHigh n || isLow n then none else (characters us).map (Char.ofNat n :: ·)

/-- The text after its opening quote, and what follows it. -/
def text? (cs : List Char) : Option (Option String × List Char) :=
  (textUnits cs).map fun (us, rest) => ((characters us).map String.ofList, rest)

/-! ## Numbers -/

/-- The digits at the start, and what follows them. -/
def digits (cs : List Char) : List Char × List Char := (cs.takeWhile isDigit, cs.dropWhile isDigit)

/-- The digits after a point, if there is one. -/
def fraction? : List Char → Option (Option (List Char) × List Char)
  | '.' :: cs => if (digits cs).1.isEmpty then none else some (some (digits cs).1, (digits cs).2)
  | cs => some (none, cs)

/-- The sign at the start, and what follows it. -/
def sign : List Char → Bool × List Char
  | '-' :: cs => (true, cs)
  | '+' :: cs => (false, cs)
  | cs => (false, cs)

/-- The power of ten after its mark, if there is one. -/
def exponent? : List Char → Option (Option Int × List Char)
  | [] => some (none, [])
  | c :: cs =>
    if c = 'e' || c = 'E' then
      let (negative, cs) := sign cs
      let (ds, rest) := digits cs
      if ds.isEmpty then none
      else
        let n : Int := Nat.ofDigitChars 10 ds 0
        some (some (if negative then -n else n), rest)
    else some (none, c :: cs)

/-- The significand that a word of 64 bits holds after further digits, and the digits from the first
one on that it has no room for. -/
def significand : Nat → List Char → Nat × List Char
  | n, [] => (n, [])
  | n, c :: cs =>
    let next := 10 * n + (c.toNat - '0'.toNat)
    if next < Word.count 64 then significand next cs else (n, c :: cs)

/-- The number written by the digits before and after a point and a power of ten. Without these, and
if there is room for it, it is whole, except for a zero with a minus sign. -/
def numberOf (negative : Bool) (whole : List Char) (fraction : Option (List Char))
    (exponent : Option Int) : Option JsonNumber :=
  let (n, excess) := significand 0 whole
  if excess.isEmpty && fraction.isNone && exponent.isNone &&
      (!negative || (n ≠ 0 && n ≤ Word.count 63)) then
    some (.int (if negative then -n else n))
  else
    let tail := fraction.getD []
    let (n, spare) := significand n tail
    let shift : Int := (excess.length : Int) - (tail.length - spare.length : Nat)
    (Binary64.ofDecimal? negative n (exponent.getD 0 + shift)).map .float

/-- The unsigned number at the start, and what follows it. -/
def unsigned? (negative : Bool) (cs : List Char) : Option (Json × List Char) := do
  let (whole, rest) := digits cs
  if whole.isEmpty || (1 < whole.length && whole.head? = some '0') then none
  else
    let (fraction, rest) ← fraction? rest
    let (exponent, rest) ← exponent? rest
    return (.number (numberOf negative whole fraction exponent), rest)

/-- The number at the start, and what follows it. -/
def number? : List Char → Option (Json × List Char)
  | '-' :: cs => unsigned? true cs
  | cs => unsigned? false cs

/-! ## Values -/

mutual

/-- The value at the start, and what follows it. -/
def value? : Nat → List Char → Option (Json × List Char)
  | 0, _ => none
  | n + 1, cs =>
    match skipSpace cs with
    | 'n' :: 'u' :: 'l' :: 'l' :: rest => some (.null, rest)
    | 't' :: 'r' :: 'u' :: 'e' :: rest => some (.bool true, rest)
    | 'f' :: 'a' :: 'l' :: 's' :: 'e' :: rest => some (.bool false, rest)
    | '"' :: rest => (text? rest).map fun (s, rest) => (.str s, rest)
    | '[' :: rest =>
      match skipSpace rest with
      | ']' :: rest => some (.arr [], rest)
      | rest => (items? n rest).map fun (items, rest) => (.arr items, rest)
    | '{' :: rest =>
      match skipSpace rest with
      | '}' :: rest => some (.obj [], rest)
      | rest => (members? n rest).map fun (members, rest) => (.obj members, rest)
    | rest => number? rest

/-- The items up to the closing bracket, and what follows it. -/
def items? : Nat → List Char → Option (List Json × List Char)
  | 0, _ => none
  | n + 1, cs => do
    let (first, rest) ← value? n cs
    match skipSpace rest with
    | ']' :: rest => return ([first], rest)
    | ',' :: rest =>
      let (others, rest) ← items? n rest
      return (first :: others, rest)
    | _ => none

/-- The members up to the closing brace, and what follows it. -/
def members? : Nat → List Char → Option (List (Option String × Json) × List Char)
  | 0, _ => none
  | n + 1, cs =>
    match skipSpace cs with
    | '"' :: rest => do
      let (key, rest) ← text? rest
      match skipSpace rest with
      | ':' :: rest =>
        let (first, rest) ← value? n rest
        match skipSpace rest with
        | '}' :: rest => return ([(key, first)], rest)
        | ',' :: rest =>
          let (others, rest) ← members? n rest
          return ((key, first) :: others, rest)
        | _ => none
      | _ => none
    | _ => none

end

/-- The value that a text holds, with nothing but blanks around it. Each nesting and each item takes
at least one character, so twice the length is depth enough. -/
def read? (cs : List Char) : Option Json := do
  let (v, rest) ← value? (2 * cs.length + 2) cs
  if (skipSpace rest).isEmpty then some v else none

/-- The text of a text value. -/
def asText? : Json → Option String
  | str s => s
  | _ => none

/-! ## Written numbers -/

/-- The number that is read where a number was written. -/
def rewrittenNumber (n : JsonNumber) : Option JsonNumber :=
  match number? n.text with
  | some (.number m, []) => m
  | _ => none

mutual

/-- The value that is read where a value was written. Only numbers may differ. -/
def rewritten : Json → Json
  | .number n => .number (n.bind rewrittenNumber)
  | .arr items => .arr (rewrittenItems items)
  | .obj members => .obj (rewrittenMembers members)
  | v => v

/-- The items that are read where items were written. -/
def rewrittenItems : List Json → List Json
  | [] => []
  | v :: vs => rewritten v :: rewrittenItems vs

/-- The members that are read where members were written. -/
def rewrittenMembers : List (Option String × Json) → List (Option String × Json)
  | [] => []
  | (key, v) :: ms => (key, rewritten v) :: rewrittenMembers ms

end

end Json

end MailTrace
