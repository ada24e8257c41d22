import MailTrace.Text.Cut

/-!
# Places in a document

A document is read from its characters with the line and the column at hand, since its layout says
how its parts belong together. Line feeds, carriage returns and next-line characters all end a line
in the same way; the line and paragraph separators end one too, but are kept where line breaks are.
-/

namespace MailTrace.Yaml

open MailTrace.Text

/-! ## Characters -/

/-- A blank or a tab. -/
def isGap (c : Char) : Bool := c = ' ' || c = '\t'

/-- The end of a line, once breaks are unified. -/
def isBreak (c : Char) : Bool := c = '\n' || c = '\u2028' || c = '\u2029'

/-- A letter, a digit, a hyphen or an underscore. -/
def isNameChar (c : Char) : Bool := c.isAlphanum || c = '-' || c = '_'

/-- The characters of a document. -/
def isPrintable (c : Char) : Bool :=
  let n := c.toNat
  n = 0x9 || n = 0xA || n = 0xD || (0x20 ≤ n && n ≤ 0x7E) || n = 0x85 || (0xA0 ≤ n && n ≤ 0xD7FF) ||
    (0xE000 ≤ n && n ≤ 0xFFFD) || 0x10000 ≤ n

/-- The text with a line feed for every carriage return, next line, and pair of carriage return and
line feed. -/
def unifyBreaks : List Char → List Char
  | [] => []
  | '\r' :: '\n' :: cs => '\n' :: unifyBreaks cs
  | '\r' :: cs => '\n' :: unifyBreaks cs
  | '\u0085' :: cs => '\n' :: unifyBreaks cs
  | c :: cs => c :: unifyBreaks cs

/-- Nothing more of a word follows. -/
def endsWord : List Char → Bool
  | [] => true
  | c :: _ => isGap c || isBreak c

/-! ## Places -/

/-- A place in a document: what follows it, its line, and its column. -/
structure Place where
  rest : List Char
  line : Nat
  column : Nat
deriving Inhabited

namespace Place

/-- The place after one character. -/
def next (p : Place) : Place :=
  match p.rest with
  | [] => p
  | c :: cs => if isBreak c then ⟨cs, p.line + 1, 0⟩ else ⟨cs, p.line, p.column + 1⟩

/-- The place some characters further on. -/
def skip : Nat → Place → Place
  | 0, p => p
  | n + 1, p => skip n p.next

/-- The characters at a place that belong together, and the place after them. -/
def span (p : Place) (belongs : Char → Bool) : List Char × Place :=
  let run := p.rest.takeWhile belongs
  (run, skip run.length p)

/-- The line at this place consists of the mark, or begins with it as a word. -/
def startsWith (p : Place) (mark : String) : Bool :=
  p.column = 0 && ((after? mark.toList p.rest).map endsWord).getD false

/-- A line that begins or ends a document. -/
def isMarker (p : Place) : Bool := p.startsWith "---" || p.startsWith "..."

/-- The way to the next token over blanks, line breaks and comments, and whether a key may start
there. A tab may not stand where a key may start, except in brackets. A byte order mark may begin a
line, and takes a column. -/
def seekFrom (flow : Bool) : (keyAllowed comment : Bool) → (line column : Nat) → List Char →
    Place × Bool
  | keyAllowed, _, line, column, [] => (⟨[], line, column⟩, keyAllowed)
  | keyAllowed, comment, line, column, c :: cs =>
    if isBreak c then seekFrom flow (keyAllowed || !flow) false (line + 1) 0 cs
    else if comment || c = '#' then seekFrom flow keyAllowed true line (column + 1) cs
    else if c = ' ' || (c = '\t' && (flow || !keyAllowed)) || (c = '\uFEFF' && column = 0) then
      seekFrom flow keyAllowed false line (column + 1) cs
    else (⟨c :: cs, line, column⟩, keyAllowed)

/-- The next token, and whether a key may start there. -/
def seek (p : Place) (flow keyAllowed : Bool) : Place × Bool :=
  seekFrom flow keyAllowed false p.line p.column p.rest

/-- The start of the next line, if nothing but blanks and a comment follows in this one. -/
def endLine? (p : Place) : Option Place :=
  let (_, p) := p.span isGap
  let (_, p) := if p.rest.head? = some '#' then p.span (!isBreak ·) else ([], p)
  match p.rest with
  | [] => some p
  | c :: _ => if isBreak c then some p.next else none

end Place

end MailTrace.Yaml
