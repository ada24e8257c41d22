import MailTrace.Source.Directory

/-!
# Reading octets as they come

Octets come in pieces, as one read after the other gives them, and a line can begin in one piece and end
in another. `Lines.read` says what lines octets have; here they are taken one by one, and no more pieces
are read than a line needs.
-/

namespace MailTrace

open MailTrace.Text

/-- What one read gives. Only at the end nothing is read. -/
abbrev Chunk := { octets : List UInt8 // octets ≠ [] }

/-- The octets of pieces one after the other. -/
def Chunk.octets (chunks : List Chunk) : List UInt8 := chunks.flatMap (·.val)

/-- Octets that are read piece by piece and given line by line. -/
structure LineStream where
  /-- The file that the octets come from, if they come from one. -/
  file : Option String
  /-- The octets that were read and not given. -/
  buffer : List UInt8
  /-- The pieces that are not read yet. -/
  coming : List Chunk
  /-- Reading fails after the last piece. -/
  breaks : Bool
  /-- The lines given so far. -/
  line : Nat
deriving DecidableEq, Repr

namespace LineStream

/-- Before the first read. -/
def start (file : Option String) (chunks : List Chunk) (breaks : Bool) : LineStream :=
  ⟨file, [], chunks, breaks, 0⟩

/-- The octets up to a line feed, or to the last one, then those that are left of what was read, and the
pieces that were not. -/
def takeLine (buffer : List UInt8) (coming : List Chunk) : List UInt8 × List UInt8 × List Chunk :=
  match cutAt Lines.lineFeed buffer, coming with
  | some (line, rest), coming => (line ++ [Lines.lineFeed], rest, coming)
  | none, [] => (buffer, [], [])
  | none, chunk :: coming =>
    let (more, left) := takeLine chunk.val coming
    (buffer ++ more, left)

/-- A line without its line feed is given. -/
def give (s : LineStream) (line : List UInt8) : LineStream × Pull :=
  ({ s with line := s.line + 1 }, .line ⟨Lines.text line, s.file.map (⟨·, s.line + 1⟩)⟩)

/-- The next line. What comes before the end is a line unless it is empty; what comes before a failure is
none. -/
def next (s : LineStream) : LineStream × Pull :=
  let (taken, buffer, coming) := takeLine s.buffer s.coming
  let s := { s with buffer, coming }
  match before? [Lines.lineFeed] taken with
  | some line => s.give line
  | none => if s.breaks then (s, .failed) else if taken.isEmpty then (s, .ended) else s.give taken

/-- The octets that were not given yet. -/
def octets (s : LineStream) : List UInt8 := s.buffer ++ Chunk.octets s.coming

/-- Nothing is lost when octets are taken. -/
theorem takeLine_append (buffer : List UInt8) (coming : List Chunk) :
    (takeLine buffer coming).1 ++ ((takeLine buffer coming).2.1 ++
        Chunk.octets (takeLine buffer coming).2.2) = buffer ++ Chunk.octets coming := by
  induction coming generalizing buffer with
  | nil =>
    unfold takeLine
    cases hcut : cutAt Lines.lineFeed buffer with
    | some parts =>
      obtain ⟨line, rest⟩ := parts
      simp [(cutAt_eq_some_iff.1 hcut).1]
    | none => rfl
  | cons chunk coming ih =>
    unfold takeLine
    cases hcut : cutAt Lines.lineFeed buffer with
    | some parts =>
      obtain ⟨line, rest⟩ := parts
      simp [(cutAt_eq_some_iff.1 hcut).1]
    | none =>
      dsimp only
      rw [List.append_assoc, ih]
      rfl

/-- A line takes an octet or more. -/
theorem length_octets_of_line {s s' : LineStream} {l : SourceLine} (h : s.next = (s', .line l)) :
    s'.octets.length < s.octets.length := by
  have hlength := congrArg List.length (takeLine_append s.buffer s.coming)
  rw [List.length_append] at hlength
  have htaken : s'.octets = (takeLine s.buffer s.coming).2.1 ++
      Chunk.octets (takeLine s.buffer s.coming).2.2 ∧ 0 < (takeLine s.buffer s.coming).1.length := by
    unfold next at h
    generalize takeLine s.buffer s.coming = t at h
    obtain ⟨taken, buffer, coming⟩ := t
    dsimp only at h ⊢
    split at h
    · rename_i line hline
      rw [before?_eq_some_iff.1 hline]
      cases h
      exact ⟨rfl, by simp⟩
    · split at h
      · cases h
      · split at h
        · cases h
        · rename_i hne
          cases h
          exact ⟨rfl, List.length_pos_iff.2 fun hnil => hne (by rw [hnil]; rfl)⟩
  unfold octets at htaken ⊢
  rw [htaken.1]
  omega

/-- All lines, and whether reading fails after them. -/
def lines (s : LineStream) : FileLines :=
  match h : s.next with
  | (s', .line l) =>
    have : s'.octets.length < s.octets.length := length_octets_of_line h
    (FileLines.mk [l] false).append s'.lines
  | (_, .failed) => ⟨[], true⟩
  | (_, .ended) | (_, .waiting) => .empty
termination_by s.octets.length

end LineStream

/-- The lines unpacked from a file, as pieces come from the unpacking. If that fails, the lines before
are all there is. -/
def unpackedInPieces (path : String) (chunks : List Chunk) (intact : Bool) : List SourceLine :=
  (LineStream.start (some path) chunks !intact).lines.lines

end MailTrace
