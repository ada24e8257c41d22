import MailTrace.Yaml.Token

/-!
# Documents

A document is read from its tokens as a tree of scalars, sequences and mappings. A part that has a
number stands again where its number is called; of several parts with one number it is the last.
-/

namespace MailTrace.Yaml

/-- A part of a document. The tag is that of a scalar; tags of collections say nothing more. -/
inductive Node where
  | scalar (tag : Option Tag) (style : ScalarStyle) (text : String)
  | sequence (items : List Node)
  | mapping (pairs : List (Node × Node))
  | anchored (number : Nat) (node : Node)
  | alias (number : Nat)
deriving Inhabited

/-- Nothing is written. -/
def Node.empty : Node := .scalar none .plain ""

/-! ## Parts -/

/-- What stands in front of a part: its number and its tag. -/
structure Properties where
  anchor : Option Nat
  tag : Option Tag

/-- The properties in front of a part, in any order, and the tokens after them. -/
def properties? (handles : Handles) : List Token → Option (Properties × List Token)
  | .anchor k :: .tag t :: rest => do return (⟨some k, some (← t.resolve? handles)⟩, rest)
  | .tag t :: .anchor k :: rest => do return (⟨some k, some (← t.resolve? handles)⟩, rest)
  | .anchor k :: rest => some (⟨some k, none⟩, rest)
  | .tag t :: rest => do return (⟨none, some (← t.resolve? handles)⟩, rest)
  | rest => some (⟨none, none⟩, rest)

/-- A part with its number. -/
def Properties.attach (ps : Properties) (n : Node) : Node :=
  match ps.anchor with
  | some k => .anchored k n
  | none => n

/-- One of some tokens follows. -/
def followedBy (ts : List Token) (tokens : List Token) : Bool := tokens.head?.any ts.contains

/-- Where a part may stand. -/
inductive Context where
  /-- In brackets. -/
  | flow
  /-- In a block. -/
  | block
  /-- In a mapping that is a block, where a sequence needs no indentation. -/
  | member
deriving DecidableEq, Repr

mutual

/-- The part at the start of the tokens, and the tokens after it. After properties there may be
nothing. -/
def node? (hs : Handles) : Nat → Context → List Token → Option (Node × List Token)
  | 0, _, _ => none
  | _ + 1, _, .alias k :: rest => some (.alias k, rest)
  | n + 1, context, tokens => do
    let (ps, rest) ← properties? hs tokens
    let sequence := fun ((items, rest) : List Node × List Token) =>
      (ps.attach (.sequence items), rest)
    let mapping := fun ((pairs, rest) : List (Node × Node) × List Token) =>
      (ps.attach (.mapping pairs), rest)
    match rest with
    | .scalar style text :: rest => return (ps.attach (.scalar ps.tag style text), rest)
    | .flowSequence :: rest => (flowItems? hs n true rest).map sequence
    | .flowMapping :: rest => (flowPairs? hs n true rest).map mapping
    | _ =>
      match rest, context with
      | .entry :: _, .member => (items? hs n true rest).map sequence
      | .blockSequence :: rest, .block | .blockSequence :: rest, .member =>
        (items? hs n false rest).map sequence
      | .blockMapping :: rest, .block | .blockMapping :: rest, .member =>
        (pairs? hs n rest).map mapping
      | _, _ =>
        if ps.anchor.isSome || ps.tag.isSome then
          return (ps.attach (.scalar ps.tag .plain ""), rest)
        else none

/-- The part at the start of the tokens, or nothing where one of some tokens follows. -/
def nodeUnless? (hs : Handles) : Nat → (nothing : List Token) → Context → List Token →
    Option (Node × List Token)
  | 0, _, _, _ => none
  | n + 1, nothing, context, tokens =>
    if followedBy nothing tokens then some (.empty, tokens) else node? hs n context tokens

/-- The items of a block. Those of a bare block have no token at their end. -/
def items? (hs : Handles) : Nat → (bare : Bool) → List Token → Option (List Node × List Token)
  | 0, _, _ => none
  | n + 1, bare, .entry :: rest => do
    let nothing := if bare then [.entry, .key, .value, .blockEnd] else [.entry, .blockEnd]
    let (item, rest) ← nodeUnless? hs n nothing .block rest
    let (items, rest) ← items? hs n bare rest
    return (item :: items, rest)
  | _ + 1, true, rest => some ([], rest)
  | _ + 1, false, .blockEnd :: rest => some ([], rest)
  | _ + 1, false, _ => none

/-- The value after a colon, or nothing. -/
def value? (hs : Handles) : Nat → (nothing : List Token) → Context → List Token →
    Option (Node × List Token)
  | 0, _, _, _ => none
  | n + 1, nothing, context, .value :: rest => nodeUnless? hs n nothing context rest
  | _ + 1, _, _, rest => some (.empty, rest)

/-- The pairs of a block. -/
def pairs? (hs : Handles) : Nat → List Token → Option (List (Node × Node) × List Token)
  | 0, _ => none
  | n + 1, .key :: rest => do
    let nothing := [.key, .value, .blockEnd]
    let (key, rest) ← nodeUnless? hs n nothing .member rest
    let (value, rest) ← value? hs n nothing .member rest
    let (pairs, rest) ← pairs? hs n rest
    return ((key, value) :: pairs, rest)
  | _ + 1, .blockEnd :: rest => some ([], rest)
  | _ + 1, _ => none

/-- A pair in brackets, which starts with the token of a key. -/
def flowPair? (hs : Handles) : Nat → (close : Token) → List Token →
    Option ((Node × Node) × List Token)
  | 0, _, _ => none
  | n + 1, close, rest => do
    let (key, rest) ← nodeUnless? hs n [.value, .comma, close] .flow rest
    let (value, rest) ← value? hs n [.comma, close] .flow rest
    return ((key, value), rest)

/-- The items up to the closing bracket, with a comma before each but the first. A pair stands for a
mapping of its own. -/
def flowItems? (hs : Handles) : Nat → (first : Bool) → List Token →
    Option (List Node × List Token)
  | 0, _, _ => none
  | _ + 1, _, .flowSequenceEnd :: rest => some ([], rest)
  | n + 1, false, .comma :: rest => flowItems? hs n true rest
  | n + 1, true, .key :: rest => do
    let (pair, rest) ← flowPair? hs n .flowSequenceEnd rest
    let (items, rest) ← flowItems? hs n false rest
    return (.mapping [pair] :: items, rest)
  | n + 1, true, rest => do
    let (item, rest) ← node? hs n .flow rest
    let (items, rest) ← flowItems? hs n false rest
    return (item :: items, rest)
  | _ + 1, false, _ => none

/-- The pairs up to the closing brace, with a comma before each but the first. A key alone has
nothing as its value. -/
def flowPairs? (hs : Handles) : Nat → (first : Bool) → List Token →
    Option (List (Node × Node) × List Token)
  | 0, _, _ => none
  | _ + 1, _, .flowMappingEnd :: rest => some ([], rest)
  | n + 1, false, .comma :: rest => flowPairs? hs n true rest
  | n + 1, true, .key :: rest => do
    let (pair, rest) ← flowPair? hs n .flowMappingEnd rest
    let (pairs, rest) ← flowPairs? hs n false rest
    return (pair :: pairs, rest)
  | n + 1, true, rest => do
    let (key, rest) ← node? hs n .flow rest
    let (pairs, rest) ← flowPairs? hs n false rest
    return ((key, .empty) :: pairs, rest)
  | _ + 1, false, _ => none

end

/-! ## Documents -/

/-- The handles that directives explain, and the tokens after the directives. At most one directive
names a version, which is 1.1 or 1.2, and no two explain one handle. -/
def directives? : (versioned : Bool) → Handles → List Token → Option (Handles × List Token)
  | versioned, hs, .version major minor :: rest =>
    if !versioned && major = 1 && (minor = 1 || minor = 2) then directives? true hs rest else none
  | versioned, hs, .handle name text :: rest =>
    if (hs.lookup name).isNone then directives? versioned (hs ++ [(name, text)]) rest else none
  | _, hs, rest => some (hs ++ Handles.core, rest)

/-- The part that a document consists of, and the tokens after it. A document without a beginning
may be empty only where nothing follows. -/
def body? (tokens : List Token) : Option (Node × List Token) := do
  let fuel := 4 * tokens.length + 4
  match tokens with
  | [] => return (.empty, [])
  | .version .. :: _ | .handle .. :: _ | .documentStart :: _ =>
    match ← directives? false [] tokens with
    | (hs, .documentStart :: rest) =>
      match rest with
      | [] | .version .. :: _ | .handle .. :: _ | .documentStart :: _ | .documentEnd :: _ =>
        return (.empty, rest)
      | _ => node? hs fuel .block rest
    | _ => none
  | _ => node? Handles.core fuel .block tokens

mutual

/-- The parts with numbers, each before the parts inside it. -/
def Node.numbered : Node → List (Nat × Node)
  | .scalar .. | .alias _ => []
  | .sequence items => numberedItems items
  | .mapping pairs => numberedPairs pairs
  | .anchored k node => (k, node) :: node.numbered

/-- The parts with numbers among items. -/
def numberedItems : List Node → List (Nat × Node)
  | [] => []
  | item :: items => item.numbered ++ numberedItems items

/-- The parts with numbers among pairs. -/
def numberedPairs : List (Node × Node) → List (Nat × Node)
  | [] => []
  | (key, value) :: pairs => key.numbered ++ value.numbered ++ numberedPairs pairs

end

/-- A document: the part that it consists of, and the parts with numbers, the last first. -/
structure Document where
  root : Node
  numbered : List (Nat × Node)

namespace Document

/-- The only document of a text. -/
def read? (cs : List Char) : Option Document := do
  let (root, rest) ← body? (← Token.read? cs)
  if rest.all (· = .documentEnd) then return ⟨root, root.numbered.reverse⟩ else none

/-- What stands for a part: the part itself, or the one whose number it calls. -/
def part? (d : Document) : Node → Option Node
  | .alias k => d.numbered.lookup k
  | .anchored _ node => some node
  | node => some node

end Document

end MailTrace.Yaml
