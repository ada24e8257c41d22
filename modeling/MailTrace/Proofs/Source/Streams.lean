import MailTrace.Proofs.Source.Lines
import MailTrace.Source.Stream

/-!
# Reading octets as they come gives their lines

1. What is taken for a line is the first line of the octets that were not given yet, wherever the pieces
   begin and end (`takeLine_fst`).
2. So one step gives that line, and the octets after it are left (`next_of_append_cons`); without a line
   feed what is left is the last line, unless reading fails (`next_of_notMem`).
3. All steps give the lines of the octets (`lines_eq`), and so does unpacking (`unpackedInPieces_eq`).
-/

namespace MailTrace

open MailTrace.Text Lines

namespace LineStream

variable {s : LineStream}

/-- It does not matter where the pieces begin and end. -/
theorem takeLine_fst (buffer : List UInt8) (coming : List Chunk) :
    (takeLine buffer coming).1 = firstLine (buffer ++ Chunk.octets coming) := by
  induction coming generalizing buffer with
  | nil =>
    unfold takeLine
    cases hcut : cutAt lineFeed buffer with
    | some parts =>
      obtain ⟨line, rest⟩ := parts
      obtain ⟨rfl, hline⟩ := cutAt_eq_some_iff.1 hcut
      rw [List.append_assoc, List.cons_append, firstLine_append_cons hline]
    | none =>
      have hbuffer := firstLine_append_of_notMem (cutAt_eq_none_iff.1 hcut) (Chunk.octets [])
      exact (List.append_nil buffer).symm.trans hbuffer.symm
  | cons chunk coming ih =>
    unfold takeLine
    cases hcut : cutAt lineFeed buffer with
    | some parts =>
      obtain ⟨line, rest⟩ := parts
      obtain ⟨rfl, hline⟩ := cutAt_eq_some_iff.1 hcut
      rw [List.append_assoc, List.cons_append, firstLine_append_cons hline]
    | none =>
      dsimp only
      rw [firstLine_append_of_notMem (cutAt_eq_none_iff.1 hcut), ih]
      rfl

/-- What is left when the octets of a line were taken. -/
def left (s : LineStream) : LineStream :=
  { s with buffer := (takeLine s.buffer s.coming).2.1, coming := (takeLine s.buffer s.coming).2.2 }

theorem octets_left {rest : List UInt8} (h : s.octets = firstLine s.octets ++ rest) :
    s.left.octets = rest := by
  have happend : (takeLine s.buffer s.coming).1 ++ s.left.octets = s.octets := takeLine_append _ _
  rw [takeLine_fst, ← octets] at happend
  exact List.append_cancel_left (happend.trans h)

theorem next_eq (s : LineStream) :
    s.next =
      match before? [lineFeed] (firstLine s.octets) with
      | some line => s.left.give line
      | none =>
        if s.breaks then (s.left, .failed)
        else if firstLine s.octets = [] then (s.left, .ended)
        else s.left.give (firstLine s.octets) := by
  unfold next octets
  simp only [takeLine_fst, List.isEmpty_iff]
  rfl

/-- **The first line is given, and the octets after it are left.** -/
theorem next_of_append_cons {line rest : List UInt8} (hline : lineFeed ∉ line)
    (h : s.octets = line ++ lineFeed :: rest) :
    s.next = s.left.give line ∧ s.left.octets = rest := by
  have hfirst : firstLine s.octets = line ++ [lineFeed] := by rw [h, firstLine_append_cons hline]
  constructor
  · rw [next_eq, hfirst, before?_eq_some_iff.2 rfl]
  · refine octets_left ?_
    rw [hfirst, h, List.append_assoc]
    rfl

/-- **Without a line feed what is left is the last line, unless reading fails.** -/
theorem next_of_notMem (h : lineFeed ∉ s.octets) :
    s.left.octets = [] ∧
      s.next =
        if s.breaks then (s.left, .failed)
        else if s.octets = [] then (s.left, .ended)
        else s.left.give s.octets := by
  have hfirst := firstLine_of_notMem h
  have hbefore : before? [lineFeed] s.octets = none := by
    refine Option.eq_none_iff_forall_ne_some.2 fun line hline => h ?_
    rw [before?_eq_some_iff.1 hline]
    exact List.mem_concat_self
  constructor
  · exact octets_left (by rw [hfirst, List.append_nil])
  · rw [next_eq, hfirst, hbefore]

theorem next_same (s : LineStream) : s.next.1.file = s.file ∧ s.next.1.breaks = s.breaks := by
  rw [next_eq]
  split
  · exact ⟨rfl, rfl⟩
  · split
    · exact ⟨rfl, rfl⟩
    · split <;> exact ⟨rfl, rfl⟩

/-- A stream is not asked before it can tell what comes next. -/
theorem next_ne_waiting (s : LineStream) : s.next.2 ≠ .waiting := by
  rw [next_eq]
  split
  · exact nofun
  · split
    · exact nofun
    · split <;> exact nofun

/-! ## All lines -/

theorem lines_next (s : LineStream) :
    s.lines =
      match s.next with
      | (s', .line l) => (FileLines.mk [l] false).append s'.lines
      | (_, .failed) => ⟨[], true⟩
      | (_, .ended) | (_, .waiting) => .empty := by
  rw [lines]
  split <;> rename_i h <;> simp only [h]

/-- The octets that become lines. What has no end is a line unless reading fails. -/
def given (s : LineStream) : List (List UInt8) :=
  if s.breaks then (split s.octets).1 else all s.octets

theorem given_of_append_cons {s' : LineStream} {line rest : List UInt8} (hline : lineFeed ∉ line)
    (h : s.octets = line ++ lineFeed :: rest) (hrest : s'.octets = rest)
    (hbreaks : s'.breaks = s.breaks) : s.given = line :: s'.given := by
  unfold given
  rw [h, hrest, hbreaks, all_append_cons hline, split_append_cons hline]
  exact (apply_ite (List.cons line) _ _ _).symm

theorem given_of_octets_eq_nil (h : s.octets = []) : s.given = [] := by
  unfold given
  rw [h]
  exact ite_self []

theorem given_of_notMem (h : lineFeed ∉ s.octets) :
    s.given = if s.breaks then [] else if s.octets = [] then [] else [s.octets] := by
  rw [given, all_eq, split_of_notMem h]
  rfl

/-- Where the octets end no line follows. -/
theorem given_of_end {s' : LineStream} {pull : Pull} (h : s.next = (s', pull))
    (hend : pull = .ended ∨ pull = .failed) :
    lineFeed ∉ s.octets ∧ s.given = [] ∧ s'.octets = [] := by
  have hnoLine {line : List UInt8} (hgive : s.next = s.left.give line) : False := by
    obtain ⟨-, rfl⟩ := Prod.mk.inj (hgive.symm.trans h)
    rcases hend with hend | hend <;> cases hend
  have hmem : lineFeed ∉ s.octets := by
    intro hmem
    obtain ⟨line, rest, hoctets, hline⟩ := List.eq_append_cons_of_mem hmem
    exact hnoLine (next_of_append_cons hline hoctets).1
  obtain ⟨hrest, hnext⟩ := next_of_notMem hmem
  rw [given_of_notMem hmem]
  by_cases hbreaks : s.breaks
  · rw [if_pos hbreaks] at hnext
    obtain ⟨rfl, -⟩ := Prod.mk.inj (hnext.symm.trans h)
    exact ⟨hmem, if_pos hbreaks, hrest⟩
  · rw [if_neg hbreaks] at hnext ⊢
    by_cases hnil : s.octets = []
    · rw [if_pos hnil] at hnext
      obtain ⟨rfl, -⟩ := Prod.mk.inj (hnext.symm.trans h)
      exact ⟨hmem, if_pos hnil, hrest⟩
    · rw [if_neg hnil] at hnext
      exact (hnoLine hnext).elim

/-- A line that is given stands before those of the octets after it. -/
theorem lines_of_give {line : List UInt8} {others : List (List UInt8)}
    (h : s.next = s.left.give line) (hgiven : s.given = line :: others)
    (ih : (s.left.give line).1.lines = ⟨place s.file (s.line + 1) (others.map text), s.breaks⟩) :
    s.lines = ⟨place s.file s.line (s.given.map text), s.breaks⟩ := by
  rw [lines_next, h, hgiven, List.map_cons, place_cons]
  dsimp only [give] at ih ⊢
  rw [ih]
  rfl

/-- **The lines of octets that come in pieces are those of the octets.** -/
theorem lines_eq (s : LineStream) :
    s.lines = ⟨place s.file s.line (s.given.map text), s.breaks⟩ := by
  induction hlength : s.octets.length using Nat.strongRecOn generalizing s with
  | _ n ih =>
    subst hlength
    have hafter {line : List UInt8} (hnext : s.next = s.left.give line) :
        (s.left.give line).1.lines =
          ⟨place s.file (s.line + 1) ((s.left.give line).1.given.map text), s.breaks⟩ := by
      have hlt : (s.left.give line).1.octets.length < s.octets.length :=
        length_octets_of_line hnext
      exact ih _ hlt _ rfl
    by_cases hmem : lineFeed ∈ s.octets
    · obtain ⟨line, rest, hoctets, hline⟩ := List.eq_append_cons_of_mem hmem
      obtain ⟨hnext, hrest⟩ := next_of_append_cons hline hoctets
      exact lines_of_give hnext (given_of_append_cons hline hoctets hrest rfl) (hafter hnext)
    · obtain ⟨hrest, hnext⟩ := next_of_notMem hmem
      have hgiven := given_of_notMem hmem
      by_cases hbreaks : s.breaks
      · rw [if_pos hbreaks] at hnext hgiven
        rw [lines_next, hnext, hgiven, hbreaks]
        cases s.file <;> rfl
      · rw [if_neg hbreaks] at hnext hgiven
        by_cases hnil : s.octets = []
        · rw [if_pos hnil] at hnext hgiven
          rw [lines_next, hnext, hgiven, Bool.eq_false_iff.2 hbreaks]
          cases s.file <;> rfl
        · rw [if_neg hnil] at hnext hgiven
          refine lines_of_give hnext ?_ (hafter hnext)
          have hlast : (s.left.give s.octets).1.given = [] := given_of_octets_eq_nil hrest
          rw [hgiven, hlast]

theorem lines_of_unnamed (h : s.file = none) :
    s.lines.lines = (s.given.map text).map (⟨·, none⟩) := by
  rw [lines_eq, h]
  rfl

/-- A line stands before those of a stream that has the octets after it. -/
theorem lines_of_append_cons {s' : LineStream} {line rest : List UInt8} (hunnamed : s.file = none)
    (hunnamed' : s'.file = none) (hbreaks : s'.breaks = s.breaks) (hline : lineFeed ∉ line)
    (h : s.octets = line ++ lineFeed :: rest) (hrest : s'.octets = rest) :
    s.lines.lines = ⟨text line, none⟩ :: s'.lines.lines := by
  rw [lines_of_unnamed hunnamed, lines_of_unnamed hunnamed',
    given_of_append_cons hline h hrest hbreaks]
  rfl

theorem octets_start (file : Option String) (chunks : List Chunk) (breaks : Bool) :
    (start file chunks breaks).octets = Chunk.octets chunks := rfl

/-- Octets that can be read to their end have the same lines in whatever pieces they come. -/
theorem lines_start (file : Option String) (chunks : List Chunk) :
    (start file chunks false).lines = ⟨Lines.read file (Chunk.octets chunks), false⟩ := by
  rw [lines_eq, given, octets_start]
  rfl

end LineStream

/-- **What is unpacked piece by piece has the lines of all that is unpacked.** -/
theorem unpackedInPieces_eq (path : String) (chunks : List Chunk) (intact : Bool) :
    unpackedInPieces path chunks intact =
      (FileContent.compressed (Chunk.octets chunks) intact).unpackedLines path := by
  unfold unpackedInPieces
  rw [LineStream.lines_eq, LineStream.given, LineStream.octets_start]
  cases intact <;> rfl

end MailTrace
