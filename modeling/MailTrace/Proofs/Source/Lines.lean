import MailTrace.Proofs.Text.Utf8
import MailTrace.Source.Lines

/-!
# Lines and their octets

1. Octets that follow others go on with their last line if it has no end yet (`split_append`). So the
   lines that have an end stay what they are when more octets come (`finished_append`).
2. Lines are numbered by their places (`locate_eq_mapIdx`).
3. Texts that were written with line feeds, each with or without a carriage return before it, are the
   lines that are read, numbered from one (`all_writeText`, `read_writeText`).
-/

namespace MailTrace.Lines

open MailTrace.Text

/-! ## Cutting at line feeds -/

theorem split_cons (b : UInt8) (bs : List UInt8) :
    split (b :: bs) =
      if b = lineFeed then ([] :: (split bs).1, (split bs).2)
      else match (split bs).1 with
        | [] => ([], b :: (split bs).2)
        | first :: others => ((b :: first) :: others, (split bs).2) := rfl

theorem split_of_notMem {bs : List UInt8} (h : lineFeed ∉ bs) : split bs = ([], bs) := by
  induction bs with
  | nil => rfl
  | cons b bs ih =>
    obtain ⟨hb, hbs⟩ := not_or.1 (mt List.mem_cons.2 h)
    rw [split_cons, if_neg (Ne.symm hb), ih hbs]

theorem split_append_cons {line : List UInt8} (h : lineFeed ∉ line) (rest : List UInt8) :
    split (line ++ lineFeed :: rest) = (line :: (split rest).1, (split rest).2) := by
  induction line with
  | nil => rw [List.nil_append, split_cons, if_pos rfl]
  | cons b line ih =>
    obtain ⟨hb, hline⟩ := not_or.1 (mt List.mem_cons.2 h)
    rw [List.cons_append, split_cons, if_neg (Ne.symm hb), ih hline]

/-- Octets after others go on where these have no line feed any more. -/
theorem split_append (a b : List UInt8) :
    split (a ++ b) =
      ((split a).1 ++ (split ((split a).2 ++ b)).1, (split ((split a).2 ++ b)).2) := by
  induction a with
  | nil => rfl
  | cons c a ih =>
    rw [List.cons_append, split_cons, split_cons, ih]
    by_cases hc : c = lineFeed
    · rw [if_pos hc, if_pos hc]
      rfl
    · rw [if_neg hc, if_neg hc]
      cases hlines : (split a).1 with
      | nil =>
        dsimp only
        rw [List.cons_append, split_cons, if_neg hc]
        rfl
      | cons first others => rfl

theorem lineFeed_notMem_rest (bs : List UInt8) : lineFeed ∉ (split bs).2 := by
  induction bs with
  | nil => exact List.not_mem_nil
  | cons b bs ih =>
    rw [split_cons]
    split
    · exact ih
    · rename_i hb
      split
      · exact fun hmem => (List.mem_cons.1 hmem).elim (fun heq => hb heq.symm) ih
      · exact ih

/-- Nothing follows the last line feed. -/
def EndsWithLine (bs : List UInt8) : Prop := bs = [] ∨ bs.getLast? = some lineFeed

theorem EndsWithLine.rest_eq_nil {bs : List UInt8} (h : EndsWithLine bs) : (split bs).2 = [] := by
  rcases h with rfl | h
  · rfl
  · obtain ⟨front, rfl⟩ := List.getLast?_eq_some_iff.1 h
    rw [split_append, split_append_cons (lineFeed_notMem_rest front)]
    rfl

theorem all_eq (bs : List UInt8) :
    all bs = (split bs).1 ++ if (split bs).2 = [] then [] else [(split bs).2] := by
  unfold all
  dsimp only
  cases (split bs).2 with
  | nil => simp
  | cons b rest => simp

theorem all_append_cons {line : List UInt8} (h : lineFeed ∉ line) (rest : List UInt8) :
    all (line ++ lineFeed :: rest) = line :: all rest := by
  rw [all_eq, all_eq, split_append_cons h]
  rfl

theorem all_of_notMem {bs : List UInt8} (h : lineFeed ∉ bs) (hne : bs ≠ []) : all bs = [bs] := by
  rw [all_eq, split_of_notMem h, if_neg hne]
  rfl

/-! ## The first line -/

/-- The octets up to the first line feed, or to the last octet. -/
def firstLine (bs : List UInt8) : List UInt8 :=
  match cutAt lineFeed bs with
  | some (line, _) => line ++ [lineFeed]
  | none => bs

theorem firstLine_of_notMem {bs : List UInt8} (h : lineFeed ∉ bs) : firstLine bs = bs := by
  unfold firstLine
  rw [cutAt_eq_none_iff.2 h]

theorem firstLine_append_cons {line : List UInt8} (h : lineFeed ∉ line) (rest : List UInt8) :
    firstLine (line ++ lineFeed :: rest) = line ++ [lineFeed] := by
  unfold firstLine
  rw [cutAt_eq_some_iff.2 ⟨rfl, h⟩]

theorem firstLine_append_of_notMem {a : List UInt8} (h : lineFeed ∉ a) (b : List UInt8) :
    firstLine (a ++ b) = a ++ firstLine b := by
  by_cases hb : lineFeed ∈ b
  · obtain ⟨line, rest, rfl, hline⟩ := List.eq_append_cons_of_mem hb
    have hmem : lineFeed ∉ a ++ line := fun hmem => (List.mem_append.1 hmem).elim h hline
    rw [← List.append_assoc, firstLine_append_cons hmem, firstLine_append_cons hline,
      List.append_assoc]
  · rw [firstLine_of_notMem hb,
      firstLine_of_notMem fun hmem => (List.mem_append.1 hmem).elim h hb]

/-! ## Places -/

theorem locate_append (file : String) (last : Nat) (ts us : List String) :
    locate file last (ts ++ us) = locate file last ts ++ locate file (last + ts.length) us := by
  induction ts generalizing last with
  | nil => rfl
  | cons t ts ih =>
    rw [List.cons_append, locate, ih, List.length_cons, Nat.add_right_comm]
    rfl

theorem locate_eq_mapIdx (file : String) (last : Nat) (ts : List String) :
    locate file last ts = ts.mapIdx fun i t => ⟨t, some ⟨file, last + i + 1⟩⟩ := by
  induction ts generalizing last with
  | nil => rfl
  | cons t ts ih =>
    rw [locate, ih, List.mapIdx_cons]
    congr 2
    funext i t
    rw [Nat.add_assoc last 1 i, Nat.add_comm 1 i]

theorem location_of_mem_locate {file : String} {last : Nat} {ts : List String} {l : SourceLine}
    (h : l ∈ locate file last ts) : ∃ n, l.location = some ⟨file, n⟩ := by
  rw [locate_eq_mapIdx] at h
  obtain ⟨i, hi, rfl⟩ := List.mem_mapIdx.1 h
  exact ⟨_, rfl⟩

/-- Lines that come after `last` others, with their places if they come from a file. -/
def place (file : Option String) (last : Nat) (ts : List String) : List SourceLine :=
  match file with
  | some file => locate file last ts
  | none => ts.map (⟨·, none⟩)

theorem place_cons (file : Option String) (last : Nat) (t : String) (ts : List String) :
    place file last (t :: ts) = ⟨t, file.map (⟨·, last + 1⟩)⟩ :: place file (last + 1) ts := by
  cases file <;> rfl

theorem read_eq (file : Option String) (bs : List UInt8) :
    read file bs = place file 0 ((all bs).map text) := rfl

/-- The lines of a file that have an end. -/
def finished (file : String) (bs : List UInt8) : List SourceLine :=
  locate file 0 ((split bs).1.map text)

theorem finished_append (file : String) (a b : List UInt8) :
    finished file (a ++ b) = finished file a ++
      locate file (split a).1.length ((split ((split a).2 ++ b)).1.map text) := by
  unfold finished
  rw [split_append, List.map_append, locate_append, List.length_map, Nat.zero_add]

/-- Lines that have an end stay what they are. -/
theorem finished_isPrefix {a c : List UInt8} (file : String) (h : a <+: c) :
    finished file a <+: finished file c := by
  obtain ⟨b, rfl⟩ := h
  exact ⟨_, (finished_append file a b).symm⟩

theorem EndsWithLine.read_eq_finished {bs : List UInt8} (h : EndsWithLine bs) (file : String) :
    read (some file) bs = finished file bs := by
  rw [read_eq, all_eq, if_pos h.rest_eq_nil, List.append_nil]
  rfl

/-! ## Texts that were written -/

/-- How a line ends. -/
inductive LineEnd where
  | lineFeed
  | carriageReturnLineFeed
deriving DecidableEq, Repr

/-- What the end of a line has before its line feed. -/
def LineEnd.mark : LineEnd → List UInt8
  | lineFeed => []
  | carriageReturnLineFeed => [carriageReturn]

/-- The octets of the end of a line. -/
def LineEnd.octets (e : LineEnd) : List UInt8 := e.mark ++ [Lines.lineFeed]

/-- The octets of texts with an end after each, and perhaps of one more without an end. -/
def writeText (ls : List (String × LineEnd)) (last : Option String) : List UInt8 :=
  (ls.flatMap fun l => Utf8.encode l.1.toList ++ l.2.octets) ++
    (last.elim [] fun t => Utf8.encode t.toList)

/-- A text can be one line: it has no line feed, and no carriage return at its end. -/
def FitsLine (t : String) : Prop := '\n' ∉ t.toList ∧ t.toList.getLast? ≠ some '\r'

instance (t : String) : Decidable (FitsLine t) := inferInstanceAs (Decidable (_ ∧ _))

theorem FitsLine.lineFeed_notMem {t : String} (h : FitsLine t) (e : LineEnd) :
    lineFeed ∉ Utf8.encode t.toList ++ e.mark := by
  intro hmem
  rcases List.mem_append.1 hmem with hmem | hmem
  · exact h.1 (Utf8.mem_of_mem_encode hmem (by decide))
  · cases e with
    | lineFeed => cases hmem
    | carriageReturnLineFeed => exact absurd (List.mem_singleton.1 hmem) (by decide)

theorem FitsLine.text_encode {t : String} (h : FitsLine t) (e : LineEnd) :
    text (Utf8.encode t.toList ++ e.mark) = t := by
  have hdecode : String.ofList (Utf8.decode (Utf8.encode t.toList)) = t := by
    rw [Utf8.decode_encode, String.ofList_toList]
  unfold text
  dsimp only
  cases e with
  | lineFeed =>
    have hlast : (Utf8.encode t.toList ++ LineEnd.lineFeed.mark).getLast? ≠ some carriageReturn := by
      intro hlast
      rw [LineEnd.mark, List.append_nil] at hlast
      exact h.2 (Utf8.getLast?_of_getLast?_encode hlast (by decide))
    rw [if_neg hlast, LineEnd.mark, List.append_nil, hdecode]
  | carriageReturnLineFeed =>
    rw [LineEnd.mark, if_pos List.getLast?_concat, List.dropLast_concat, hdecode]

/-- **Texts that were written are read.** -/
theorem all_writeText {ls : List (String × LineEnd)} {last : Option String}
    (hls : ∀ l ∈ ls, FitsLine l.1) (hlast : ∀ t ∈ last, FitsLine t ∧ t ≠ "") :
    (all (writeText ls last)).map text = ls.map (·.1) ++ last.toList := by
  induction ls with
  | nil =>
    cases last with
    | none => rfl
    | some t =>
      obtain ⟨hfits, hne⟩ := hlast t rfl
      have hoctets : writeText [] (some t) = Utf8.encode t.toList ++ LineEnd.lineFeed.mark :=
        (List.append_nil _).symm
      have hnonempty : Utf8.encode t.toList ++ LineEnd.lineFeed.mark ≠ [] := by
        intro hnil
        have hempty := Utf8.encode_eq_nil_iff.1 (List.append_eq_nil_iff.1 hnil).1
        exact hne (String.toList_eq_nil_iff.1 hempty)
      rw [hoctets, all_of_notMem (hfits.lineFeed_notMem _) hnonempty, List.map_singleton,
        hfits.text_encode]
      rfl
  | cons l ls ih =>
    obtain ⟨hfits, hls⟩ := List.forall_mem_cons.1 hls
    have hoctets : writeText (l :: ls) last =
        (Utf8.encode l.1.toList ++ l.2.mark) ++ lineFeed :: writeText ls last := by
      unfold writeText LineEnd.octets
      rw [List.flatMap_cons]
      simp only [List.append_assoc, List.cons_append, List.nil_append]
    rw [hoctets, all_append_cons (hfits.lineFeed_notMem l.2), List.map_cons, hfits.text_encode,
      ih hls]
    rfl

/-- Texts that were written to a file are numbered as they were written. -/
theorem read_writeText {ls : List (String × LineEnd)} {last : Option String} (file : String)
    (hls : ∀ l ∈ ls, FitsLine l.1) (hlast : ∀ t ∈ last, FitsLine t ∧ t ≠ "") :
    read (some file) (writeText ls last) =
      (ls.map (·.1) ++ last.toList).mapIdx fun i t => ⟨t, some ⟨file, i + 1⟩⟩ := by
  rw [read_eq, all_writeText hls hlast, place, locate_eq_mapIdx]
  simp only [Nat.zero_add]

end MailTrace.Lines
