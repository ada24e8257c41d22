import MailTrace.Proofs.Source.Lines
import MailTrace.Source.Tail

/-!
# One look at a file that is followed

1. The buffer holds the octets after those that were looked at (`Fits`), so what is taken for a line is
   the first line of the octets that are left, however often the buffer is filled (`takeLine_eq`).
2. One look has one of three outcomes: nothing is left, the first line is given, or what is left has no
   end and is kept (`look_of_nil`, `look_of_append_cons`, `look_of_notMem`).
3. The octets that were looked at are the lines that were counted and the line that is kept (`Reads`).
   A look gives the line that they have more afterwards (`Reads.look`), and octets that are written
   later change nothing (`Reads.append`).
-/

namespace MailTrace.Tail

open MailTrace.Text Lines

variable {t : Tail} {octets : List UInt8} {d : Disk}

/-- The octets that were not looked at. -/
def left (octets : List UInt8) (t : Tail) : List UInt8 := octets.drop t.position

/-- The buffer holds the octets after those that were looked at. -/
structure Fits (octets : List UInt8) (t : Tail) : Prop where
  length_buffer_le : t.buffer.length ≤ t.offset
  buffer_isPrefix : t.buffer <+: t.left octets

theorem fits_of_buffer_eq_nil (h : t.buffer = []) : Fits octets t := by
  refine ⟨?_, ?_⟩ <;> rw [h]
  · exact Nat.zero_le _
  · exact List.nil_prefix

/-! ## Taking a line -/

theorem position_fill (octets : List UInt8) (t : Tail) : (t.fill octets).position = t.position := by
  unfold fill position
  split
  · rename_i hbuffer
    rw [List.isEmpty_iff.1 hbuffer]
    exact Nat.add_sub_cancel _ _
  · rfl

theorem left_fill (octets : List UInt8) (t : Tail) : (t.fill octets).left octets = t.left octets := by
  rw [left, position_fill, left]

theorem Fits.fill (h : Fits octets t) : Fits octets (t.fill octets) := by
  refine ⟨?_, ?_⟩
  · unfold Tail.fill
    split
    · exact Nat.le_add_left _ _
    · exact h.length_buffer_le
  · rw [left_fill]
    unfold Tail.fill
    split
    · rename_i hbuffer
      rw [left, position, List.isEmpty_iff.1 hbuffer]
      exact List.take_prefix _ _
    · exact h.buffer_isPrefix

/-- The buffer is only empty where nothing is left. -/
theorem left_eq_nil_of_fill (h : (t.fill octets).buffer = []) : t.left octets = [] := by
  unfold fill at h
  split at h
  · rename_i hbuffer
    rw [left, position, List.isEmpty_iff.1 hbuffer]
    exact (List.take_eq_nil_iff.1 h).resolve_left (by decide)
  · rename_i hbuffer
    exact absurd (List.isEmpty_iff.2 h) hbuffer

theorem fill_of_left_eq_nil (hfits : Fits octets t) (h : t.left octets = []) :
    t.buffer = [] ∧ t.fill octets = t := by
  have hbuffer : t.buffer = [] := List.prefix_nil.1 (h ▸ hfits.buffer_isPrefix)
  have hdrop : octets.drop t.offset = [] := by
    rw [left, position, hbuffer] at h
    exact h
  refine ⟨hbuffer, ?_⟩
  unfold fill
  rw [if_pos (List.isEmpty_iff.2 hbuffer), hdrop, List.take_nil]
  obtain ⟨path, file, offset, buffer, unfinished, line⟩ := t
  cases hbuffer
  rfl

theorem takeLine_of_left_eq_nil (hfits : Fits octets t) (h : t.left octets = []) (n : Nat) :
    t.takeLine octets (n + 1) = ([], t) := by
  obtain ⟨hbuffer, hfill⟩ := fill_of_left_eq_nil hfits h
  unfold takeLine
  dsimp only
  rw [hfill, if_pos (List.isEmpty_iff.2 hbuffer)]

/-- Octets at the start of the buffer are looked at. -/
theorem Fits.advance {taken rest : List UInt8} (h : Fits octets t) (hbuffer : t.buffer = taken ++ rest) :
    Fits octets { t with buffer := rest } ∧
      ({ t with buffer := rest } : Tail).position = t.position + taken.length ∧
      t.left octets = taken ++ ({ t with buffer := rest } : Tail).left octets := by
  obtain ⟨more, hmore⟩ := h.buffer_isPrefix
  rw [hbuffer, List.append_assoc] at hmore
  have hlength : t.buffer.length = taken.length + rest.length := by rw [hbuffer, List.length_append]
  have hle := h.length_buffer_le
  have hposition : ({ t with buffer := rest } : Tail).position = t.position + taken.length := by
    unfold position
    dsimp only
    omega
  have hleft : ({ t with buffer := rest } : Tail).left octets = rest ++ more := by
    rw [left, hposition, ← List.drop_drop, ← left, ← hmore, List.drop_left]
  refine ⟨⟨?_, ?_⟩, hposition, ?_⟩
  · dsimp only
    omega
  · rw [hleft]
    exact List.prefix_append _ _
  · rw [hleft, hmore]

theorem fill_eq (octets : List UInt8) (t : Tail) :
    t.fill octets = { t with offset := (t.fill octets).offset, buffer := (t.fill octets).buffer } := by
  unfold fill
  split <;> rfl

/-- **What is taken is the first line of what is left**, and the reader goes on after it. -/
theorem takeLine_eq {n : Nat} (h : Fits octets t) (hn : (t.left octets).length < n) :
    ∃ offset buffer,
      t.takeLine octets n = (firstLine (t.left octets), { t with offset, buffer }) ∧
      Fits octets { t with offset, buffer } ∧
      ({ t with offset, buffer } : Tail).position =
        t.position + (firstLine (t.left octets)).length := by
  induction n generalizing t with
  | zero => exact absurd hn (Nat.not_lt_zero _)
  | succ n ih =>
    have hfits := h.fill
    have hposition := position_fill octets t
    have hleft := left_fill octets t
    have hempty : (t.fill octets).buffer = [] → t.left octets = [] := left_eq_nil_of_fill
    unfold takeLine
    rw [fill_eq] at hfits hposition hleft hempty ⊢
    generalize (t.fill octets).offset = offset at *
    generalize (t.fill octets).buffer = buffer at *
    dsimp only at hempty ⊢
    by_cases hbuffer : buffer = []
    · rw [if_pos (List.isEmpty_iff.2 hbuffer), hempty hbuffer]
      exact ⟨offset, buffer, rfl, hfits, hposition⟩
    · rw [if_neg (mt List.isEmpty_iff.1 hbuffer)]
      cases hcut : cutAt lineFeed buffer with
      | some parts =>
        obtain ⟨line, rest⟩ := parts
        obtain ⟨rfl, hline⟩ := cutAt_eq_some_iff.1 hcut
        obtain ⟨hfits', hposition', hleft'⟩ :=
          hfits.advance (by simp : line ++ lineFeed :: rest = (line ++ [lineFeed]) ++ rest)
        have hfirst : firstLine (t.left octets) = line ++ [lineFeed] := by
          rw [← hleft, hleft', List.append_assoc]
          exact firstLine_append_cons hline _
        rw [hfirst]
        exact ⟨offset, rest, rfl, hfits', hposition'.trans (by rw [hposition])⟩
      | none =>
        obtain ⟨hfits', hposition', hleft'⟩ := hfits.advance (List.append_nil buffer).symm
        have hfirst : firstLine (t.left octets) =
            buffer ++ firstLine (({ t with offset, buffer := [] } : Tail).left octets) := by
          rw [← hleft, hleft']
          exact firstLine_append_of_notMem (cutAt_eq_none_iff.1 hcut) _
        have hlength := congrArg List.length hleft'
        rw [hleft, List.length_append] at hlength
        have hpos : 0 < buffer.length := List.length_pos_iff.2 hbuffer
        obtain ⟨offset', buffer', htake, hfits'', hposition''⟩ := ih hfits' (by omega)
        dsimp only at htake hfits'' hposition'' ⊢
        rw [htake, hfirst]
        refine ⟨offset', buffer', rfl, hfits'', ?_⟩
        rw [hposition'', hposition', hposition, List.length_append]
        omega

/-! ## One look -/

section Look

variable (hfits : Fits (d.content t.file).octets t)
include hfits

/-- With nothing left it is only looked whether the file is stale. -/
theorem look_of_nil (h : t.left (d.content t.file).octets = []) :
    t.look d = (if t.isStale d then (open? d t.path).getD t else t, none) := by
  unfold look
  dsimp only
  rw [takeLine_of_left_eq_nil hfits h]
  rfl

/-- What is taken in one look. -/
theorem look_takeLine :
    ∃ offset buffer,
      t.takeLine (d.content t.file).octets ((d.content t.file).octets.length + 2) =
        (firstLine (t.left (d.content t.file).octets), { t with offset, buffer }) ∧
      Fits (d.content t.file).octets { t with offset, buffer } ∧
      ({ t with offset, buffer } : Tail).position =
        t.position + (firstLine (t.left (d.content t.file).octets)).length := by
  refine takeLine_eq hfits ?_
  rw [left, List.length_drop]
  omega

/-- **The first line of what is left is given, after what was kept.** -/
theorem look_of_append_cons {line rest : List UInt8} (hline : lineFeed ∉ line)
    (h : t.left (d.content t.file).octets = line ++ lineFeed :: rest) :
    ∃ offset buffer,
      let t' : Tail := { t with offset, buffer, unfinished := [], line := t.line + 1 }
      t.look d = (t', some ⟨text (t.unfinished ++ line), some ⟨t.path, t.line + 1⟩⟩) ∧
      Fits (d.content t.file).octets t' ∧
      t'.position = t.position + (line ++ [lineFeed]).length := by
  obtain ⟨offset, buffer, htake, hfits', hposition⟩ := look_takeLine hfits
  rw [h, firstLine_append_cons hline] at htake hposition
  refine ⟨offset, buffer, ?_, ⟨hfits'.1, hfits'.2⟩, hposition⟩
  have hne : ¬ (line ++ [lineFeed]).isEmpty = true := by simp
  have hbefore : before? [lineFeed] (t.unfinished ++ (line ++ [lineFeed])) =
      some (t.unfinished ++ line) := before?_eq_some_iff.2 (List.append_assoc _ _ _).symm
  unfold look
  dsimp only
  rw [htake]
  dsimp only
  rw [if_neg hne, hbefore]

/-- **What is left and has no end is kept.** -/
theorem look_of_notMem (h : lineFeed ∉ t.left (d.content t.file).octets)
    (hne : t.left (d.content t.file).octets ≠ []) :
    ∃ offset buffer,
      let t' : Tail :=
        { t with offset, buffer, unfinished := t.unfinished ++ t.left (d.content t.file).octets }
      t.look d = (t', none) ∧ Fits (d.content t.file).octets t' ∧
      t'.position = t.position + (t.left (d.content t.file).octets).length := by
  obtain ⟨offset, buffer, htake, hfits', hposition⟩ := look_takeLine hfits
  rw [firstLine_of_notMem h] at htake hposition
  refine ⟨offset, buffer, ?_, ⟨hfits'.1, hfits'.2⟩, hposition⟩
  have hbefore : before? [lineFeed] (t.unfinished ++ t.left (d.content t.file).octets) = none := by
    refine Option.eq_none_iff_forall_ne_some.2 fun line hline => h ?_
    have hlast := congrArg List.getLast? (before?_eq_some_iff.1 hline)
    rw [List.getLast?_append, List.getLast?_concat, List.getLast?_eq_some_getLast hne,
      Option.some_or] at hlast
    exact Option.some_inj.1 hlast ▸ List.getLast_mem hne
  unfold look
  dsimp only
  rw [htake]
  dsimp only
  rw [if_neg (mt List.isEmpty_iff.1 hne), hbefore]

end Look

/-! ## The lines of what was looked at -/

/-- The octets that were looked at. -/
def seen (octets : List UInt8) (t : Tail) : List UInt8 := octets.take t.position

theorem seen_append_left (octets : List UInt8) (t : Tail) : t.seen octets ++ t.left octets = octets :=
  List.take_append_drop _ _

/-- The lines that have an end are counted, and what follows them is kept. -/
structure Reads (octets : List UInt8) (t : Tail) : Prop where
  fits : Fits octets t
  position_le : t.position ≤ octets.length
  line_eq : t.line = (split (t.seen octets)).1.length
  unfinished_eq : t.unfinished = (split (t.seen octets)).2

theorem reads_open (octets : List UInt8) (path : String) (file : Nat) :
    Reads octets ⟨path, file, 0, [], [], 0⟩ :=
  ⟨fits_of_buffer_eq_nil rfl, Nat.zero_le _, rfl, rfl⟩

theorem Reads.length_seen (h : Reads octets t) : (t.seen octets).length = t.position :=
  List.length_take_of_le h.position_le

/-- Octets that are written later change nothing about those before. -/
theorem Reads.append (h : Reads octets t) (more : List UInt8) :
    Reads (octets ++ more) t ∧ t.seen (octets ++ more) = t.seen octets := by
  have hseen : t.seen (octets ++ more) = t.seen octets := List.take_append_of_le_length h.position_le
  have hleft : t.left (octets ++ more) = t.left octets ++ more :=
    List.drop_append_of_le_length h.position_le
  refine ⟨⟨⟨h.fits.1, ?_⟩, ?_, ?_, ?_⟩, hseen⟩
  · rw [hleft]
    exact h.fits.2.trans (List.prefix_append _ _)
  · rw [List.length_append]
    exact Nat.le_add_right_of_le h.position_le
  · rw [hseen, h.line_eq]
  · rw [hseen, h.unfinished_eq]

/-- The octets that are looked at next. -/
theorem Reads.seen_of_position {t' : Tail} {taken rest : List UInt8} (h : Reads octets t)
    (hleft : t.left octets = taken ++ rest) (hposition : t'.position = t.position + taken.length) :
    t'.position ≤ octets.length ∧ t'.seen octets = t.seen octets ++ taken := by
  have hoctets : octets = (t.seen octets ++ taken) ++ rest := by
    rw [List.append_assoc, ← hleft, seen_append_left]
  have hlength : t'.position = (t.seen octets ++ taken).length := by
    rw [hposition, List.length_append, h.length_seen]
  constructor
  · have := congrArg List.length hoctets
    rw [List.length_append, ← hlength] at this
    omega
  · rw [seen, hlength]
    exact (congrArg (List.take _) hoctets).trans List.take_left

/-- A line after the octets looked at begins with what is kept. -/
theorem Reads.split_line {line : List UInt8} (h : Reads octets t) (hline : lineFeed ∉ line) :
    split (t.seen octets ++ (line ++ [lineFeed])) =
      ((split (t.seen octets)).1 ++ [t.unfinished ++ line], []) := by
  have hkept : lineFeed ∉ t.unfinished ++ line := fun hmem =>
    (List.mem_append.1 hmem).elim (h.unfinished_eq ▸ lineFeed_notMem_rest _) hline
  rw [split_append, ← h.unfinished_eq, ← List.append_assoc, split_append_cons hkept]
  rfl

/-- Octets without a line feed are kept after what is kept already. -/
theorem Reads.split_rest {more : List UInt8} (h : Reads octets t) (hmore : lineFeed ∉ more) :
    split (t.seen octets ++ more) = ((split (t.seen octets)).1, t.unfinished ++ more) := by
  have hkept : lineFeed ∉ t.unfinished ++ more := fun hmem =>
    (List.mem_append.1 hmem).elim (h.unfinished_eq ▸ lineFeed_notMem_rest _) hmore
  rw [split_append, ← h.unfinished_eq, split_of_notMem hkept, List.append_nil]

/-- **A look gives the line that the octets looked at have more afterwards**, and more octets were
looked at then. -/
theorem Reads.look (h : Reads (d.content t.file).octets t)
    (hlt : t.position < (d.content t.file).octets.length) :
    (t.look d).1.path = t.path ∧ (t.look d).1.file = t.file ∧
      Reads (d.content t.file).octets (t.look d).1 ∧ t.position < (t.look d).1.position ∧
      finished t.path ((t.look d).1.seen (d.content t.file).octets) =
        finished t.path (t.seen (d.content t.file).octets) ++ (t.look d).2.toList := by
  generalize hoctets : (d.content t.file).octets = octets at *
  have hne : t.left octets ≠ [] := fun hnil => by
    have := List.drop_eq_nil_iff.1 hnil
    omega
  by_cases hmem : lineFeed ∈ t.left octets
  · obtain ⟨line, rest, hleft, hline⟩ := List.eq_append_cons_of_mem hmem
    obtain ⟨offset, buffer, hlook, hfits, hposition⟩ :=
      look_of_append_cons (hoctets ▸ h.fits) hline (hoctets ▸ hleft)
    have hleft' : t.left octets = (line ++ [lineFeed]) ++ rest := hleft.trans (by simp)
    obtain ⟨hle, hseen⟩ := h.seen_of_position hleft' hposition
    have hsplit := h.split_line hline
    rw [hlook]
    refine ⟨rfl, rfl, ⟨hoctets ▸ hfits, hle, ?_, ?_⟩, ?_, ?_⟩
    · rw [hseen, hsplit, List.length_append, ← h.line_eq]
      rfl
    · rw [hseen, hsplit]
    · rw [hposition, List.length_append]
      exact Nat.lt_add_of_pos_right (Nat.succ_pos _)
    · rw [hseen, finished, hsplit, List.map_append, locate_append, List.length_map, ← h.line_eq,
        Nat.zero_add]
      rfl
  · obtain ⟨offset, buffer, hlook, hfits, hposition⟩ :=
      look_of_notMem (hoctets ▸ h.fits) (hoctets ▸ hmem) (hoctets ▸ hne)
    rw [hoctets] at hlook hfits hposition
    obtain ⟨hle, hseen⟩ := h.seen_of_position (List.append_nil _).symm hposition
    have hsplit := h.split_rest hmem
    rw [hlook]
    refine ⟨rfl, rfl, ⟨hfits, hle, ?_, ?_⟩, ?_, ?_⟩
    · rw [hseen, hsplit, h.line_eq]
    · rw [hseen, hsplit]
    · rw [hposition]
      exact Nat.lt_add_of_pos_right (List.length_pos_iff.2 hne)
    · rw [hseen, finished, hsplit]
      exact (List.append_nil _).symm

/-! ## Paths -/

theorem path_fill (octets : List UInt8) (t : Tail) : (t.fill octets).path = t.path := by
  unfold fill
  split <;> rfl

theorem path_takeLine (octets : List UInt8) (n : Nat) (t : Tail) :
    (t.takeLine octets n).2.path = t.path := by
  induction n generalizing t with
  | zero => rfl
  | succ n ih =>
    unfold takeLine
    dsimp only
    split
    · exact path_fill octets t
    · split
      · exact path_fill octets t
      · exact (ih _).trans (path_fill octets t)

/-- The lines of a file that is followed are found at its path. -/
def Finds (path : String) (looked : Tail × Option SourceLine) : Prop :=
  looked.1.path = path ∧ ∀ l ∈ looked.2, ∃ n, l.location = some ⟨path, n⟩

theorem finds_look (d : Disk) (t : Tail) : Finds t.path (t.look d) := by
  have hpath := path_takeLine (d.content t.file).octets ((d.content t.file).octets.length + 2) t
  unfold look
  dsimp only
  generalize t.takeLine (d.content t.file).octets ((d.content t.file).octets.length + 2) = taken at hpath
  obtain ⟨octets, t'⟩ := taken
  dsimp only at hpath ⊢
  rw [← hpath]
  split
  · refine ⟨?_, nofun⟩
    split
    · unfold open?
      cases d.find? t'.path <;> rfl
    · rfl
  · split
    · refine ⟨rfl, fun l hl => ?_⟩
      cases hl
      exact ⟨_, rfl⟩
    · exact ⟨rfl, nofun⟩

theorem finds_lookTimes (d : Disk) (n : Nat) (t : Tail) : Finds t.path (t.lookTimes d n) := by
  induction n generalizing t with
  | zero => exact ⟨rfl, nofun⟩
  | succ n ih =>
    have hlook := finds_look d t
    unfold lookTimes
    split
    · rename_i t' line heq
      rwa [heq] at hlook
    · rename_i t' heq
      rw [heq] at hlook
      exact hlook.1 ▸ ih t'

end MailTrace.Tail
