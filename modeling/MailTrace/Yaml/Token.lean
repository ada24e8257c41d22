import MailTrace.Yaml.Scalar
import MailTrace.Yaml.Tag

/-!
# Tokens

A document as a list of tokens, in which nothing of its layout is left: a block begins and ends with
a token of its own, and a token stands before each key. Whether a scalar is a key is known only when
its colon comes, so the place of a possible key is kept and its token is written in there.
-/

namespace MailTrace.Yaml

open MailTrace.Text

/-- A token of a document. -/
inductive Token where
  | version (major minor : Nat)
  | handle (name : String) (text : List UInt8)
  | documentStart
  | documentEnd
  | blockSequence
  | blockMapping
  | blockEnd
  | flowSequence
  | flowSequenceEnd
  | flowMapping
  | flowMappingEnd
  /-- The hyphen before an item. -/
  | entry
  | comma
  | key
  | value
  /-- A call of the part with a number. -/
  | alias (number : Nat)
  /-- A part is given a number. -/
  | anchor (number : Nat)
  | tag (t : WrittenTag)
  | scalar (style : ScalarStyle) (text : String)
deriving DecidableEq, Repr

/-- A token that is a key if a colon follows. It has to be one where a block wants a key. -/
structure PossibleKey where
  /-- The number of tokens before it. -/
  before : Nat
  line : Nat
  column : Nat
  required : Bool
deriving DecidableEq, Repr

/-- The number of characters that a key may have. -/
def PossibleKey.greatestLength : Nat := 1024

/-- The colon of a key stands in the same line and not too far away. -/
def PossibleKey.isOver (k : PossibleKey) (p : Place) : Bool :=
  k.line < p.line || k.column + greatestLength < p.column

/-- What has been read of a document, and what its layout allows next. -/
structure Layout where
  place : Place
  /-- The tokens, the latest first. -/
  tokens : List Token
  /-- The columns of the blocks around the place, the innermost first. -/
  columns : List Nat
  /-- The possible key among the brackets around the place. -/
  possible : Option PossibleKey
  /-- The possible keys outside the brackets around the place, the innermost first. -/
  outer : List (Option PossibleKey)
  /-- A key may start here. -/
  keyAllowed : Bool
  /-- The numbers of the names. -/
  names : List (String × Nat)

namespace Layout

/-- The beginning of a document. -/
def start (cs : List Char) : Layout := ⟨⟨cs, 0, 0⟩, [], [], none, [], true, []⟩

/-- The place is inside brackets. -/
def inFlow (s : Layout) : Bool := !s.outer.isEmpty

/-- One more token. -/
def push (s : Layout) (t : Token) : Layout := { s with tokens := t :: s.tokens }

/-- A token after the first tokens. -/
def insert (s : Layout) (before : Nat) (t : Token) : Layout :=
  let later := s.tokens.length - before
  { s with tokens := s.tokens.take later ++ t :: s.tokens.drop later }

/-! ## Possible keys -/

/-- The possible key is none, unless it has to be one. -/
def dropKey? (s : Layout) : Option Layout :=
  if s.possible.any (·.required) then none else some { s with possible := none }

/-- The next token may be a key, where that is allowed. -/
def noteKey? (s : Layout) : Option Layout :=
  if s.keyAllowed then
    s.dropKey?.map fun s =>
      let required := !s.inFlow && s.columns.head? = some s.place.column
      { s with possible := some ⟨s.tokens.length, s.place.line, s.place.column, required⟩ }
  else some s

/-- The possible keys whose colons are still to come. -/
def expireKeys? (s : Layout) : Option Layout := do
  let expire (k : Option PossibleKey) : Option (Option PossibleKey) :=
    if k.any (·.isOver s.place) then if k.any (·.required) then none else some none else some k
  return { s with possible := ← expire s.possible, outer := ← s.outer.mapM expire }

/-! ## Blocks -/

/-- The blocks around the place end, except those whose columns satisfy `stays`. -/
def close (s : Layout) (stays : Nat → Bool) : Layout :=
  if s.inFlow then s
  else
    let rest := s.columns.dropWhile (!stays ·)
    let ended := List.replicate (s.columns.length - rest.length) Token.blockEnd
    { s with columns := rest, tokens := ended ++ s.tokens }

/-- A block begins with a token after the first tokens, unless one in this column has begun. -/
def openAt (s : Layout) (column before : Nat) (t : Token) : Layout :=
  if s.inFlow || !s.columns.head?.all (· < column) then s
  else { s.insert before t with columns := column :: s.columns }

/-- A block begins at the place with a token, unless one in its column has begun. -/
def openHere (s : Layout) (t : Token) : Layout := s.openAt s.place.column s.tokens.length t

/-! ## Tokens of one kind -/

/-- The token and the place after it. -/
def take (s : Layout) (t : Token) (after : Place) (keyAllowed : Bool) : Layout :=
  { s.push t with place := after, keyAllowed }

/-- A line that is no part of a document ends all blocks. -/
def outside? (s : Layout) (t : Token) (after : Place) : Option Layout :=
  (s.close fun _ => false).dropKey?.map fun s => s.take t after false

/-- A bracket opens. -/
def openBracket? (s : Layout) (t : Token) : Option Layout :=
  s.noteKey?.map fun s =>
    { s.take t s.place.next true with possible := none, outer := s.possible :: s.outer }

/-- A bracket closes. -/
def closeBracket? (s : Layout) (t : Token) : Option Layout :=
  s.dropKey?.map fun s =>
    { s.take t s.place.next false with possible := s.outer.head?.join, outer := s.outer.tail }

/-- A hyphen before an item. -/
def takeEntry? (s : Layout) : Option Layout :=
  if s.inFlow || s.keyAllowed then
    (s.openHere .blockSequence).dropKey?.map fun s => s.take .entry s.place.next true
  else none

/-- A question mark before a key. -/
def takeKey? (s : Layout) : Option Layout :=
  if s.inFlow || s.keyAllowed then
    (s.openHere .blockMapping).dropKey?.map fun s => s.take .key s.place.next (!s.inFlow)
  else none

/-- A colon before a value. What may be a key is one. -/
def takeValue? (s : Layout) : Option Layout :=
  match s.possible with
  | some k =>
    let s := (s.insert k.before .key).openAt k.column k.before .blockMapping
    some { s.take .value s.place.next false with possible := none }
  | none =>
    if s.inFlow || s.keyAllowed then
      some ((s.openHere .blockMapping).take .value s.place.next (!s.inFlow))
    else none

/-- The name at a place, and the place after it. A name ends before a blank or one of some marks. -/
def name? (p : Place) : Option (String × Place) :=
  let (name, after) := p.span isNameChar
  let ends := endsWord after.rest ||
    after.rest.head?.any ['?', ':', ',', ']', '}', '%', '@', '\x60'].contains
  if name.isEmpty || !ends then none else some (String.ofList name, after)

/-- A name that is given to a part. -/
def takeAnchor? (s : Layout) : Option Layout := do
  let s ← s.noteKey?
  let (name, after) ← name? s.place.next
  let number := s.names.length
  let s := { s with names := (name, number) :: s.names.filter (·.1 ≠ name) }
  return s.take (.anchor number) after false

/-- A name that is called. It has to be known. -/
def takeAlias? (s : Layout) : Option Layout := do
  let s ← s.noteKey?
  let (name, after) ← name? s.place.next
  return s.take (.alias (← s.names.lookup name)) after false

/-- A tag. It ends before a blank, in brackets also before a comma. -/
def takeTag? (s : Layout) : Option Layout := do
  let s ← s.noteKey?
  let (t, after) ← writtenTag? s.place
  if endsWord after.rest || (s.inFlow && after.rest.head? = some ',') then
    return s.take (.tag t) after false
  else none

/-- A scalar in quotes. -/
def takeQuoted? (s : Layout) (double : Bool) : Option Layout := do
  let s ← s.noteKey?
  let (text, after) ← quoted? double (s.place.rest.length + 1) s.place.next
  return s.take (.scalar .quoted (String.ofList text)) after false

/-- A block of lines. A key may follow. -/
def takeBlock? (s : Layout) (style : ScalarStyle) : Option Layout := do
  let s ← s.dropKey?
  let (text, after) ← block? (style = .folded) s.columns.head? s.place.next
  return s.take (.scalar style (String.ofList text)) after true

/-- A plain scalar. A key may follow in a later line. -/
def takePlain? (s : Layout) : Option Layout := do
  let s ← s.noteKey?
  let column := (s.columns.head?.map (· + 1)).getD 0
  let (text, after, crossed) ← plain? s.inFlow column (s.place.rest.length + 1) s.place
  return s.take (.scalar .plain (String.ofList text)) after crossed

/-! ## Directives -/

/-- A number of at most nine digits, and the place after it. -/
def versionNumber? (p : Place) : Option (Nat × Place) :=
  let (digits, after) := p.span isDigit
  if 9 < digits.length then none else (natural? digits).map (·, after)

/-- The version that a directive asks for, and the place after it. -/
def version? (p : Place) : Option (Token × Place) := do
  let (major, p) ← versionNumber? (p.span isGap).2
  if p.rest.head? = some '.' then
    let (minor, p) ← versionNumber? p.next
    return (.version major minor, p)
  else none

/-- The handle that a directive explains, and the place after it. -/
def handle? (p : Place) : Option (Token × Place) := do
  let p := (p.span isGap).2
  if p.rest.head? ≠ some '!' then none
  else
    let (name, p) := (tagHandle? p).getD ("!", p.next)
    let (gap, start) := p.span isGap
    let (text, after) ← tagText? true start
    if gap.isEmpty || after.column = start.column || !endsWord after.rest then none
    else return (.handle name text, after)

/-- The directive after a percent sign, and the place after its line. -/
def directive? (p : Place) : Option (Token × Place) := do
  let (name, p) := p.span isNameChar
  let (t, p) ←
    if !endsWord p.rest then none
    else if name = "YAML".toList then version? p
    else if name = "TAG".toList then handle? p
    else none
  return (t, ← p.endLine?)

/-! ## All tokens -/

/-- The token at the place, where `c` is followed by `cs`. -/
def takeToken? (s : Layout) (c : Char) (cs : List Char) : Option Layout :=
  let p := s.place
  if p.column = 0 && c = '%' then (directive? p.next).bind fun (t, after) => s.outside? t after
  else if p.startsWith "---" then s.outside? .documentStart (Place.skip 3 p)
  else if p.startsWith "..." then s.outside? .documentEnd (Place.skip 3 p)
  else if c = '[' then s.openBracket? .flowSequence
  else if c = '{' then s.openBracket? .flowMapping
  else if c = ']' then s.closeBracket? .flowSequenceEnd
  else if c = '}' then s.closeBracket? .flowMappingEnd
  else if c = ',' then s.dropKey?.map fun s => s.take .comma s.place.next true
  else if c = '-' && endsWord cs then s.takeEntry?
  else if c = '?' && (s.inFlow || endsWord cs) then s.takeKey?
  else if c = ':' && (s.inFlow || endsWord cs) then s.takeValue?
  else if c = '*' then s.takeAlias?
  else if c = '&' then s.takeAnchor?
  else if c = '!' then s.takeTag?
  else if c = '|' && !s.inFlow then s.takeBlock? .literal
  else if c = '>' && !s.inFlow then s.takeBlock? .folded
  else if c = '\'' then s.takeQuoted? false
  else if c = '"' then s.takeQuoted? true
  else if startsPlain s.inFlow (c :: cs) then s.takePlain?
  else none

/-- All tokens of a document. Each step takes at least one character. -/
def tokens? : Nat → Layout → Option (List Token)
  | 0, _ => none
  | n + 1, s => do
    let (place, keyAllowed) := s.place.seek s.inFlow s.keyAllowed
    let s ← { s with place, keyAllowed }.expireKeys?
    let s := s.close (· ≤ place.column)
    match place.rest with
    | [] => (s.close fun _ => false).dropKey?.map (·.tokens.reverse)
    | c :: cs => s.takeToken? c cs >>= tokens? n

end Layout

/-- The tokens of a text. -/
def Token.read? (cs : List Char) : Option (List Token) :=
  if cs.all isPrintable then
    let cs := unifyBreaks cs
    (Layout.start cs).tokens? (cs.length + 1)
  else none

end MailTrace.Yaml
