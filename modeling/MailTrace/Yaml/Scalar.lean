import MailTrace.Net.IPAddress
import MailTrace.Yaml.Place

/-!
# Scalars

The texts that a document is made of: plain, in quotes, or in a block of lines. Each reader starts
at the first character of a scalar and stops after the last. A line break inside a plain, quoted or
folded scalar counts as a blank, and further ones count as themselves.
-/

namespace MailTrace.Yaml

open MailTrace.Net MailTrace.Text

/-- How a scalar is written. -/
inductive ScalarStyle where
  | plain
  | quoted
  /-- A block of lines with its line breaks kept. -/
  | literal
  /-- A block of lines with its line breaks folded. -/
  | folded
deriving DecidableEq, Repr

/-- What line breaks between two words stand for. -/
def foldBreaks : List Char → List Char
  | ['\n'] => [' ']
  | '\n' :: more => more
  | breaks => breaks

/-- What the blanks and line breaks between two words stand for. -/
def foldGap (run : List Char) : List Char :=
  if run.any isBreak then foldBreaks (run.filter isBreak) else run

/-- The blanks and line breaks at a place, and the place after them. -/
def Place.gap (p : Place) : List Char × Place := p.span fun c => isGap c || isBreak c

/-! ## Plain scalars -/

/-- The characters that set the parts in brackets apart. -/
def isFlowMark (c : Char) : Bool := c ∈ [',', '[', ']', '{', '}']

/-- The characters that no plain scalar starts with. -/
def isIndicator (c : Char) : Bool :=
  isFlowMark c ||
    c ∈ ['-', '?', ':', '#', '&', '*', '!', '|', '>', '\'', '"', '%', '@', '\x60']

/-- A plain scalar can start with these characters. -/
def startsPlain (flow : Bool) : List Char → Bool
  | [] => false
  | c :: cs =>
    if isGap c || isBreak c then false
    else if c = '-' then !(cs.head?.map isGap).getD false
    else if c = '?' || c = ':' then !flow && !endsWord cs
    else !isIndicator c

/-- The word of a plain scalar at the start of a text. In brackets a colon may not stand before a
mark of its own. -/
def plainWord? (flow : Bool) : List Char → Option (List Char)
  | [] => some []
  | c :: cs =>
    if isGap c || isBreak c then some []
    else if flow && c = ':' && (cs.head?.map fun d => isFlowMark d || d = '?').getD false then none
    else if (c = ':' && endsWord cs) || (flow && isFlowMark c) then some []
    else (plainWord? flow cs).map (c :: ·)

/-- A tab stands where a line would have to be indented to a column. -/
def hasTabIndent (column : Nat) (run : List Char) : Bool :=
  ((pieces isBreak run).drop 1).any fun line => (line.take column).contains '\t'

/-- The words of a plain scalar, the place after the blanks that follow them, and whether these
cross a line. Outside brackets each further line is indented to a column. -/
def plain? (flow : Bool) (column : Nat) : Nat → Place → Option (List Char × Place × Bool)
  | 0, _ => none
  | n + 1, p =>
    if p.isMarker || p.rest.head? = some '#' then some ([], p, false)
    else do
      let word ← plainWord? flow p.rest
      let after := Place.skip word.length p
      let (run, next) := after.gap
      if run.isEmpty then return (word, after, false)
      else if hasTabIndent column run then none
      else
        let crossed := run.any isBreak
        if !flow && next.column < column then return (word, next, crossed)
        else
          let (more, last, crossedLast) ← plain? flow column n next
          if more.isEmpty then return (word, next, crossed)
          else return (word ++ foldGap run ++ more, last, crossedLast)

/-! ## Quoted scalars -/

/-- The character that an escape of one letter stands for. -/
def escape? : Char → Option Char
  | '0' => some '\x00'
  | 'a' => some '\x07'
  | 'b' => some '\x08'
  | 't' | '\t' => some '\t'
  | 'n' => some '\n'
  | 'v' => some '\x0b'
  | 'f' => some '\x0c'
  | 'r' => some '\r'
  | 'e' => some '\x1b'
  | ' ' => some ' '
  | '"' => some '"'
  | '/' => some '/'
  | '\\' => some '\\'
  | 'N' => some '\u0085'
  | '_' => some '\u00a0'
  | 'L' => some '\u2028'
  | 'P' => some '\u2029'
  | _ => none

/-- The number of digits of an escape that names a code point. -/
def codeWidth? : Char → Option Nat
  | 'x' => some 2
  | 'u' => some 4
  | 'U' => some 8
  | _ => none

/-- The character that digits name. -/
def codePoint? (digits : List Char) (width : Nat) : Option Char := do
  if digits.length < width then none
  else
    let n ← IPAddress.hexadecimal? digits
    if h : n.isValidChar then some (Char.ofNatAux n h) else none

/-- The escape at a place, without its backslash: the text that it stands for and the place after
it. An escaped line break and the blanks after it leave only the further line breaks. -/
def escaped? (p : Place) : Option (List Char × Place) :=
  match p.rest with
  | [] => none
  | e :: cs =>
    if isBreak e then
      let (run, after) := p.next.gap
      some (run.filter isBreak, after)
    else
      match codeWidth? e with
      | some width =>
        (codePoint? (cs.take width) width).map fun c => ([c], Place.skip (width + 1) p)
      | none => (escape? e).map fun c => ([c], p.next)

/-- The text of a quoted scalar after its opening quote, and the place after its closing quote. A
single quote is written twice, and with double quotes a backslash starts an escape. -/
def quoted? (double : Bool) : Nat → Place → Option (List Char × Place)
  | 0, _ => none
  | n + 1, p =>
    let go (text : List Char) (next : Place) :=
      (quoted? double n next).map fun (more, after) => (text ++ more, after)
    if p.isMarker then none
    else
      match p.rest with
      | [] => none
      | c :: cs =>
        if isGap c || isBreak c then go (foldGap p.gap.1) p.gap.2
        else if double && c = '\\' then (escaped? p.next).bind fun (text, next) => go text next
        else if c ≠ (if double then '"' else '\'') then go [c] p.next
        else if !double && cs.head? = some '\'' then go [c] (Place.skip 2 p)
        else some ([], p.next)

/-! ## Block scalars -/

/-- What becomes of the line breaks at the end of a block. -/
inductive Chomping where
  /-- One of them is kept. -/
  | clip
  /-- None is kept. -/
  | strip
  /-- All are kept. -/
  | keep
deriving DecidableEq, Repr

/-- The mark for the line breaks at the end, and the place after it. -/
def chomping? (p : Place) : Option (Chomping × Place) :=
  match p.rest with
  | '+' :: _ => some (.keep, p.next)
  | '-' :: _ => some (.strip, p.next)
  | _ => none

/-- The digit for the indentation, and the place after it. There is no indentation of zero. -/
def indentation? (p : Place) : Option (Option Nat × Place) :=
  match p.rest with
  | c :: _ =>
    if c = '0' then none
    else if isDigit c then some (some (c.toNat - '0'.toNat), p.next)
    else some (none, p)
  | [] => some (none, p)

/-- The marks after the first character of a block, in any order, and the place after them. -/
def blockMarks? (p : Place) : Option (Chomping × Option Nat × Place) :=
  match chomping? p with
  | some (chomping, p) => (indentation? p).map fun (indent, p) => (chomping, indent, p)
  | none => do
    let (indent, p) ← indentation? p
    match indent, chomping? p with
    | some _, some (chomping, p) => return (chomping, indent, p)
    | _, _ => return (.clip, indent, p)

/-- The empty lines before the next line of a block: their breaks, the greatest column among them
and this line, and the start of the line after its indentation. As long as the indentation is not
known all blanks belong to it, and a tab may not stand among them. -/
def emptyLines? (indent : Option Nat) : (deepest line column : Nat) → List Char →
    Option (List Char × Nat × Place)
  | deepest, line, column, [] => some ([], max deepest column, ⟨[], line, column⟩)
  | deepest, line, column, c :: cs =>
    let isIndent := indent.all (column < ·)
    if c = ' ' && isIndent then emptyLines? indent deepest line (column + 1) cs
    else if c = '\t' && isIndent then none
    else if isBreak c then
      (emptyLines? indent (max deepest column) (line + 1) 0 cs).map
        fun (breaks, found) => (c :: breaks, found)
    else some ([], max deepest column, ⟨c :: cs, line, column⟩)

/-- The lines of a block from a place on, the line breaks after the last of them, and the place
after these. The break of the line before and the breaks of the empty lines since come before the
line; in a folded block the break counts as a blank unless a line around it starts with one. -/
def blockLines? (folded : Bool) (indent : Nat) : Nat → (before since : List Char) →
    (indented : Bool) → Place → Option (List Char × List Char × List Char × Place)
  | 0, _, _, _, _ => none
  | n + 1, before, since, indented, p =>
    if p.column ≠ indent || p.rest.isEmpty then some ([], before, since, p)
    else do
      let indentedHere := (p.rest.head?.map isGap).getD false
      let breaks := if folded && before = ['\n'] && !indented && !indentedHere
        then foldBreaks (before ++ since) else before ++ since
      let (line, after) := p.span (!isBreak ·)
      let (more, _, next) ← emptyLines? (some indent) 0 after.next.line after.next.column
        after.next.rest
      let (text, before, since, last) ←
        blockLines? folded indent n (after.rest.take 1) more indentedHere next
      return (breaks ++ line ++ text, before, since, last)

/-- A block scalar after its first character, and the place after it. The column of the block around
it is given, if there is one. -/
def block? (folded : Bool) (outer : Option Nat) (p : Place) : Option (List Char × Place) := do
  let (chomping, digit, p) ← blockMarks? p
  let start ← p.endLine?
  let least := (outer.map (· + 1)).getD 1
  let wanted := digit.map (outer.getD 0 + ·)
  let (breaks, deepest, first) ← emptyLines? wanted 0 start.line start.column start.rest
  let indent := wanted.getD (max deepest least)
  let (text, last, more, after) ←
    blockLines? folded indent (first.rest.length + 1) [] breaks false first
  let ending := match chomping with
    | .clip => last
    | .strip => []
    | .keep => last ++ more
  return (text ++ ending, after)

end MailTrace.Yaml
