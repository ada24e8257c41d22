import MailTrace.Proofs.Source.Streams
import MailTrace.Source.Queue

/-!
# A queue of files gives the lines of its files

A reader that takes the octets of files piece by piece says the same as one that has all lines of a file
as soon as it is open (`FileQueue.pulls_eq`).

1. What is left of an open file is lines, and whether reading fails after them (`OpenStream.view`). Each
   call takes one of the lines, or finds that there is none (`OpenStream.next_view`).
2. So the files that are passed over are the same (`FileQueue.advance_view`), and each call leaves both
   readers with the same lines (`FileQueue.next_view`).
-/

namespace MailTrace

/-! ## Open files -/

namespace LineStream

variable {s s' : LineStream}

theorem lines_of_line {l : SourceLine} (h : s.next = (s', .line l)) :
    s.lines = ⟨l :: s'.lines.lines, s'.lines.fails⟩ := by
  rw [lines_next, h]
  rfl

theorem lines_of_ended (h : s.next = (s', .ended)) : s.lines = ⟨[], false⟩ := by
  rw [lines_next, h]
  rfl

/-- A stream that failed goes on failing. -/
theorem lines_of_failed (h : s.next = (s', .failed)) :
    s.lines = ⟨[], true⟩ ∧ s'.lines = ⟨[], true⟩ := by
  have hlines : s.lines = ⟨[], true⟩ := by rw [lines_next, h]
  have hbreaks : s.breaks = true := by
    rw [lines_eq] at hlines
    exact congrArg FileLines.fails hlines
  obtain ⟨hfile, hsame⟩ := next_same s
  obtain ⟨-, -, hrest⟩ := given_of_end h (.inr rfl)
  rw [h] at hsame
  refine ⟨hlines, ?_⟩
  rw [lines_eq, given_of_octets_eq_nil hrest, hsame, hbreaks]
  cases s'.file <;> rfl

end LineStream

namespace LogReader

variable {d : Disk} {follow : Bool} {f : LogFile} {files : List LogFile}

theorem advance_of_open? {o : OpenFile} (h : open? d follow f = some o) :
    advance d follow (f :: files) = next d ⟨follow, files, some o⟩ := by
  unfold advance next
  rw [h]
  cases o with
  | followed t => rfl
  | rotated rest =>
    obtain ⟨lines, fails⟩ := rest
    cases lines with
    | cons l lines => rfl
    | nil => cases fails <;> rfl

theorem advance_of_unopened (h : open? d follow f = none) :
    advance d follow (f :: files) = advance d follow files := by
  rw [advance, h]

/-- What is said call after call, while the disk becomes what it is at each of them. -/
def pulls (r : LogReader) : List Disk → List Pull
  | [] => []
  | d :: ds =>
    let (r, pull) := r.next d
    pull :: r.pulls ds

end LogReader

namespace OpenStream

/-- What is left of an open file. -/
def view : OpenStream → OpenFile
  | plain s => .rotated s.lines
  | unpacked s => .rotated ⟨s.lines.lines, false⟩
  | followed t => .followed t

theorem next_plain (s : LineStream) (d : Disk) :
    (plain s).next d = (plain s.next.1, s.next.2.unlessEnded?) := rfl

theorem next_unpacked (s : LineStream) (d : Disk) :
    (unpacked s).next d = (unpacked s.next.1, s.next.2.onlyLine?) := rfl

/-- **A call takes the first line that is left, or the file is at its end.** -/
theorem next_view (d : Disk) (follow : Bool) (files : List LogFile) (s : OpenStream) :
    LogReader.next d ⟨follow, files, some s.view⟩ =
      match s.next d with
      | (s', some pull) => (⟨follow, files, some s'.view⟩, pull)
      | (_, none) => LogReader.advance d follow files := by
  cases s with
  | followed t => rfl
  | plain s =>
    show LogReader.next d ⟨follow, files, some (.rotated s.lines)⟩ = _
    rw [next_plain]
    cases hnext : s.next with
    | mk s' pull =>
      cases pull with
      | line l =>
        rw [LineStream.lines_of_line hnext]
        rfl
      | waiting => exact absurd (congrArg Prod.snd hnext) (LineStream.next_ne_waiting s)
      | ended =>
        rw [LineStream.lines_of_ended hnext]
        rfl
      | failed =>
        obtain ⟨hlines, hafter⟩ := LineStream.lines_of_failed hnext
        show _ = (LogReader.mk follow files (some (.rotated s'.lines)), Pull.failed)
        rw [hlines, hafter]
        rfl
  | unpacked s =>
    show LogReader.next d ⟨follow, files, some (.rotated ⟨s.lines.lines, false⟩)⟩ = _
    rw [next_unpacked]
    cases hnext : s.next with
    | mk s' pull =>
      cases pull with
      | line l =>
        rw [LineStream.lines_of_line hnext]
        rfl
      | waiting => exact absurd (congrArg Prod.snd hnext) (LineStream.next_ne_waiting s)
      | ended =>
        rw [LineStream.lines_of_ended hnext]
        rfl
      | failed =>
        rw [(LineStream.lines_of_failed hnext).1]
        rfl

/-! ## Opening files -/

variable {p : Pieces} {d : Disk} {follow : Bool} {f : LogFile}

/-- The lines that are unpacked in pieces. -/
theorem lines_unpack (p : Pieces) (path : String) (content? : Option FileContent) :
    (unpack p path content?).lines.lines =
      (content?.map (FileContent.unpackedLines path)).getD [] := by
  have hnone : (LineStream.start (some path) [] true).lines.lines = [] := by
    rw [LineStream.lines_eq]
    rfl
  cases content? with
  | none => exact hnone
  | some content =>
    cases content with
    | plain octets => exact hnone
    | directory => exact hnone
    | compressed octets intact =>
      have hpieces := unpackedInPieces_eq path (p.cut path octets) intact
      rwa [p.octets_cut] at hpieces

/-- The lines that are read in pieces. -/
theorem lines_ofContent (p : Pieces) (path : String) (content : FileContent) :
    (ofContent p path content).lines =
      match content.lines? path with
      | some lines => ⟨lines, false⟩
      | none => ⟨[], true⟩ := by
  unfold ofContent FileContent.lines?
  cases content.octets? with
  | none => rw [LineStream.lines_eq]; rfl
  | some octets =>
    dsimp only [Option.map_some]
    rw [LineStream.lines_start, p.octets_cut]

/-- A file that is opened has the lines that it holds, and one that cannot be opened has none. -/
theorem open?_cases (p : Pieces) (d : Disk) (follow : Bool) (f : LogFile) :
    (∃ s, open? p d follow f = some s ∧ LogReader.open? d follow f = some s.view) ∨
      LogReader.open? d follow f = none ∧ ∀ s, open? p d follow f = some s → (s.next d).2 = none := by
  unfold open? LogReader.open?
  cases hcompressed : f.compressed with
  | true =>
    have hlines := lines_unpack p f.path (d.content? f.path)
    cases hcontent : d.content? f.path with
    | none =>
      refine .inr ⟨rfl, fun s hs => ?_⟩
      cases hs
      rfl
    | some content =>
      have hfile : FileLines.ofFile d f = ⟨content.unpackedLines f.path, false⟩ := by
        simp [FileLines.ofFile, hcontent, hcompressed]
      refine .inl ⟨_, rfl, ?_⟩
      rw [hcontent] at hlines
      simp [hfile, view, hlines]
  | false =>
    cases hcontent : d.content? f.path with
    | none => exact .inr ⟨rfl, fun s hs => nomatch hs⟩
    | some content =>
      have hlines := lines_ofContent p f.path content
      have hfile : FileLines.ofFile d f = (ofContent p f.path content).lines := by
        simp only [FileLines.ofFile, hcontent, hcompressed, hlines]
        rfl
      obtain ⟨file, hfind, -⟩ := Option.map_eq_some_iff.1 hcontent
      simp only [Bool.not_false, Bool.and_true, Bool.false_eq_true, if_false, hfile, Tail.open?, hfind]
      split
      · exact .inl ⟨_, rfl, rfl⟩
      · exact .inl ⟨_, rfl, rfl⟩

end OpenStream

namespace FileQueue

/-- What is left of the open file, and the files still to be read. -/
def view (q : FileQueue) : LogReader := ⟨q.follow, q.files, q.current.map (·.view)⟩

theorem advance_view (p : Pieces) (d : Disk) (follow : Bool) (files : List LogFile) :
    LogReader.advance d follow files =
      ((advance p d follow files).1.view, (advance p d follow files).2) := by
  induction files with
  | nil => rfl
  | cons f rest ih =>
    rcases OpenStream.open?_cases p d follow f with ⟨s, hopen, hreader⟩ | ⟨hreader, hnone⟩
    · rw [LogReader.advance_of_open? hreader, OpenStream.next_view, advance, hopen]
      dsimp only
      cases s.next d with
      | mk s' pull =>
        cases pull with
        | some pull => rfl
        | none => exact ih
    · rw [LogReader.advance_of_unopened hreader, advance]
      cases hopen : OpenStream.open? p d follow f with
      | none => exact ih
      | some s =>
        have hend := hnone s hopen
        dsimp only
        cases hnext : s.next d with
        | mk s' pull =>
          rw [hnext] at hend
          cases hend
          exact ih

/-- **Both readers say the same, and the same is left to them.** -/
theorem next_view (d : Disk) (q : FileQueue) :
    q.view.next d = ((q.next d).1.view, (q.next d).2) := by
  obtain ⟨p, follow, files, current⟩ := q
  cases current with
  | none => exact advance_view p d follow files
  | some s =>
    have hnext := OpenStream.next_view d follow files s
    show LogReader.next d ⟨follow, files, some s.view⟩ = _
    rw [hnext]
    unfold next
    dsimp only
    cases s.next d with
    | mk s' pull =>
      cases pull with
      | some pull => rfl
      | none => exact advance_view p d follow files

/-- **Whatever pieces octets come in, the lines of the files are given.** -/
theorem pulls_eq (q : FileQueue) (ds : List Disk) : q.pulls ds = q.view.pulls ds := by
  induction ds generalizing q with
  | nil => rfl
  | cons d ds ih =>
    show (q.next d).2 :: (q.next d).1.pulls ds = (q.view.next d).2 :: (q.view.next d).1.pulls ds
    rw [next_view, ih]

theorem pulls_start (p : Pieces) (follow : Bool) (files : List LogFile) (ds : List Disk) :
    (start p follow files).pulls ds = (LogReader.start follow files).pulls ds := pulls_eq _ ds

end FileQueue

end MailTrace
