import Mathlib.Data.List.Nodup
import MailTrace.Proofs.Source.Queues
import MailTrace.Proofs.Source.Rotations
import MailTrace.Proofs.Source.Tails

/-!
# The lines of a directory

A directory is read file by file. What each file gives is known from what is stored under its path, so
what the reader says is known call by call.

1. The files of a directory have different paths (`Disk.nodup_paths`), and those that are rotated come
   before the one being written (`Disk.rotatedFiles_append_activeFiles`).
2. A file gives the lines of its first part (`LogFile.given`), and a directory in the place of a file that
   is not compressed blocks those after it (`LogFile.ofFile_eq`).
3. Each call takes the first line that is left of the rotated files, and only when nothing is left the
   file being written is opened (`LogReader.Leaves.next`). By induction on the calls this is all that is
   ever said (`LogReader.Leaves.pulls`).
4. So a directory is the lines of its files one after the other exactly if no file blocks and each gives
   what it holds (`FileQueue.pulls_eq_held_iff`), and what is followed comes after all that is rotated
   (`FileQueue.pulls_followed`).
-/

namespace MailTrace

open MailTrace.Text

/-! ## The files of a directory -/

/-- The files that are no longer written. -/
def rotatedFiles (files : List LogFile) : List LogFile := files.filter (·.rotation ≠ .active)

/-- The files that are still written. -/
def activeFiles (files : List LogFile) : List LogFile := files.filter (·.rotation = .active)

namespace Path

theorem join_of_nameIn? {dir path name : String} (h : nameIn? dir path = some name) :
    join dir name = path := by
  obtain ⟨-, hjoin⟩ := Option.filter_eq_some_iff.1 h
  simpa using (Bool.and_eq_true_iff.1 hjoin).2

/-- The names in a directory are those of paths. -/
theorem sublist_names (dir : String) (paths : List String) :
    ((paths.filterMap (nameIn? dir)).map (join dir)).Sublist paths := by
  induction paths with
  | nil => exact .slnil
  | cons path paths ih =>
    cases hname : nameIn? dir path with
    | none =>
      rw [List.filterMap_cons_none hname]
      exact ih.cons path
    | some name =>
      rw [List.filterMap_cons_some hname, List.map_cons, join_of_nameIn? hname]
      exact ih.cons_cons path

end Path

namespace Disk

variable {d : Disk} {dir : String} {bases : List String} {files : List LogFile}

theorem nodup_names (d : Disk) (dir : String) : ((d.names dir).map (Path.join dir)).Nodup := by
  have hpaths := d.paths.nodup.sublist (Path.sublist_names dir d.paths.keys)
  exact ((List.mergeSort_perm ..).map _).nodup_iff.2 hpaths

/-- The files of a directory are those of one log. -/
theorem exists_base_of_logFiles (h : d.logFiles dir bases = .ok files) :
    ∃ base, files = LogFile.ofBase dir (d.names dir) base := by
  have hdiscover : d.discover dir bases = .ok files ∧ files ≠ [] := by
    unfold logFiles at h
    split at h
    · cases h
    · rename_i hne
      exact ⟨h, fun hnil => hne (hnil ▸ h)⟩
  obtain ⟨hfound, hne⟩ := hdiscover
  unfold discover at hfound
  split at hfound
  · cases hfound
    by_cases hsome : ∃ base ∈ bases, ∃ name ∈ d.names dir, Rotation.Belongs base name
    · obtain ⟨base, hfirst⟩ := LogFile.exists_first hsome
      exact ⟨base, LogFile.discover_of_first hfirst dir⟩
    · exact absurd (LogFile.discover_of_none (fun base hbase name hname hbelongs =>
        hsome ⟨base, hbase, name, hname, hbelongs⟩) dir) hne
  · cases hfound

/-- The files of a directory have different paths. -/
theorem nodup_paths (h : d.logFiles dir bases = .ok files) : (files.map (·.path)).Nodup := by
  obtain ⟨base, rfl⟩ := exists_base_of_logFiles h
  obtain ⟨found, hperm, hnamed⟩ := LogFile.exists_named_ofBase dir (d.names dir) base
  have hpaths : (LogFile.ofBase dir (d.names dir) base).map (·.path) = found.map (Path.join dir) := by
    rw [← List.forall₂_eq_eq_eq, List.forall₂_map_left_iff, List.forall₂_map_right_iff]
    exact hnamed.imp fun _ _ hf => hf.1
  rw [hpaths]
  exact (hperm.map _).nodup_iff.2 ((nodup_names d dir).sublist (List.filter_sublist.map _))

/-- The rotated files come before the one being written. -/
theorem rotatedFiles_append_activeFiles (h : d.logFiles dir bases = .ok files) :
    rotatedFiles files ++ activeFiles files = files := by
  unfold rotatedFiles activeFiles
  obtain ⟨base, rfl⟩ := exists_base_of_logFiles h
  have hordered := LogFile.pairwise_ofBase dir (d.names dir) base
  generalize LogFile.ofBase dir (d.names dir) base = files at hordered ⊢
  induction files with
  | nil => rfl
  | cons f files ih =>
    obtain ⟨hlater, hordered⟩ := List.pairwise_cons.1 hordered
    by_cases hactive : f.rotation = .active
    · -- nothing is newer than the file being written
      have hall : ∀ g ∈ files, g.rotation = .active := by
        intro g hg
        have hnewer := hlater g hg
        rw [hactive] at hnewer
        cases hrotation : g.rotation <;> simp_all [Rotation.NotNewer]
      have hnone : files.filter (·.rotation ≠ .active) = [] :=
        List.filter_eq_nil_iff.2 fun g hg => by simp [hall g hg]
      have hkept : files.filter (·.rotation = .active) = files :=
        List.filter_eq_self.2 fun g hg => by simp [hall g hg]
      rw [List.filter_cons_of_neg (by simpa using hactive), List.filter_cons_of_pos (by simpa using hactive),
        hnone, hkept, List.nil_append]
    · rw [List.filter_cons_of_pos (by simpa using hactive), List.filter_cons_of_neg (by simpa using hactive),
        List.cons_append, ih hordered]

end Disk

/-! ## What is stored -/

namespace Packed

/-- The lines of all parts. If the last part breaks off, the lines that are whole. -/
def held (p : Packed) : List (List UInt8) :=
  if p.intact then Lines.all p.octets else (Lines.split p.octets).1

/-- The lines of the first part. -/
def given (p : Packed) : List (List UInt8) :=
  if p.intact || !p.later.isEmpty then Lines.all p.first else (Lines.split p.first).1

/-- A file of one part gives what it holds. -/
theorem given_eq_held {p : Packed} (h : p.later = []) : p.given = p.held := by
  unfold given held octets
  simp [h]

end Packed

/-- What is stored under a path: octets, with what they unpack to if they are compressed, or a
directory. -/
inductive Stored where
  | octets (raw : List UInt8) (packed : Option Packed)
  | directory
deriving DecidableEq, Repr

namespace Stored

/-- What it unpacks to, if it is compressed. -/
def packed? : Stored → Option Packed
  | octets _ packed => packed
  | directory => none

/-- What its reader finds, who unpacks it if its name says that it is compressed. -/
def content (compressed : Bool) : Stored → FileContent
  | octets raw packed =>
    if compressed then (packed.map (·.content)).getD (.plain raw) else .plain raw
  | directory => .directory

/-- The lines of a file, of which a directory has none. A file with the name of a compressed one that is
not compressed breaks off before its first line. -/
def lines (unpack : Packed → List (List UInt8)) (compressed : Bool) : Stored → List (List UInt8)
  | octets raw packed => if compressed then (packed.map unpack).getD [] else Lines.all raw
  | directory => []

end Stored

/-- What is stored under each path, or that it cannot be opened. -/
abbrev Storage := String → Option Stored

/-- Files of the disk are those of the storage. -/
def Disk.Holds (d : Disk) (s : Storage) (files : List LogFile) : Prop :=
  ∀ f ∈ files, d.content? f.path = (s f.path).map (·.content f.compressed)

namespace LogFile

/-- The lines of a file with their places. One that cannot be opened has none. -/
def linesBy (unpack : Packed → List (List UInt8)) (s : Storage) (f : LogFile) : List SourceLine :=
  let lines := ((s f.path).map (·.lines unpack f.compressed)).getD []
  (lines.map Lines.text).mapIdx fun i text => ⟨text, some ⟨f.path, i + 1⟩⟩

/-- The lines that a file gives. -/
def given (s : Storage) (f : LogFile) : List SourceLine := f.linesBy Packed.given s

/-- The lines that a file holds. -/
def held (s : Storage) (f : LogFile) : List SourceLine := f.linesBy Packed.held s

/-- A directory has the name of a file that is not compressed. It can be opened and not read. -/
def Blocks (s : Storage) (f : LogFile) : Prop := f.compressed = false ∧ s f.path = some .directory

instance (s : Storage) : DecidablePred (Blocks s) := fun _ => inferInstanceAs (Decidable (_ ∧ _))

variable {s : Storage} {f : LogFile} {files : List LogFile} {d : Disk}

theorem locate_zero (path : String) (texts : List String) :
    Lines.locate path 0 texts = texts.mapIdx fun i text => ⟨text, some ⟨path, i + 1⟩⟩ := by
  simp only [Lines.locate_eq_mapIdx, Nat.zero_add]

/-- What is unpacked of a file. -/
theorem unpackedLines_content (path : String) (stored : Stored) :
    (stored.content true).unpackedLines path =
      Lines.locate path 0 ((stored.lines Packed.given true).map Lines.text) := by
  cases stored with
  | directory => rfl
  | octets raw packed =>
    cases packed with
    | none => rfl
    | some p =>
      show p.content.unpackedLines path = Lines.locate path 0 (p.given.map Lines.text)
      unfold Packed.content Packed.given
      cases p.intact || !p.later.isEmpty <;> rfl

/-- What a file gives to its reader, and whether it blocks. -/
theorem ofFile_eq (h : d.content? f.path = (s f.path).map (·.content f.compressed)) :
    FileLines.ofFile d f = ⟨f.given s, decide (f.Blocks s)⟩ := by
  obtain ⟨path, rotation, compressed⟩ := f
  unfold FileLines.ofFile
  rw [h]
  dsimp only
  obtain hnone | ⟨stored, hstored⟩ := Option.eq_none_or_eq_some (s path)
  · simp [given, linesBy, Blocks, hnone, FileLines.empty]
  · have hgiven : given s ⟨path, rotation, compressed⟩ =
        Lines.locate path 0 ((stored.lines Packed.given compressed).map Lines.text) := by
      simp [given, linesBy, hstored, locate_zero]
    rw [hstored, hgiven]
    cases compressed with
    | true => simp [unpackedLines_content, Blocks]
    | false =>
      cases stored with
      | directory => simp [Blocks, hstored, Stored.content, FileContent.lines?, FileContent.octets?,
          Stored.lines, Lines.locate]
      | octets raw packed => simp [Blocks, hstored, Stored.content, FileContent.lines?,
          FileContent.octets?, Stored.lines, Lines.read]

/-- The lines up to the first file that blocks, and whether one does. -/
def allGiven (s : Storage) (files : List LogFile) : FileLines :=
  ⟨(files.takeWhile fun f => ¬ f.Blocks s).flatMap (·.given s), decide (∃ f ∈ files, f.Blocks s)⟩

theorem allGiven_cons (s : Storage) (f : LogFile) (files : List LogFile) :
    allGiven s (f :: files) = (FileLines.mk (f.given s) (decide (f.Blocks s))).append (allGiven s files) := by
  unfold allGiven FileLines.append
  by_cases hblocks : f.Blocks s
  · have hnone : f.given s = [] := by
      simp [given, linesBy, hblocks.2, Stored.lines]
    simp [hblocks, hnone]
  · simp [hblocks]

theorem ofFiles_eq (h : d.Holds s files) : FileLines.ofFiles d files = allGiven s files := by
  induction files with
  | nil => rfl
  | cons f files ih =>
    obtain ⟨hf, hfiles⟩ := List.forall_mem_cons.1 h
    rw [allGiven_cons, ← ofFile_eq hf, ← ih hfiles]
    rfl

end LogFile

/-! ## Call by call -/

/-- The first line that is left, or the failure after the last one. If nothing fails there is no more. -/
def FileLines.step : FileLines → Option (FileLines × Pull)
  | ⟨l :: lines, fails⟩ => some (⟨lines, fails⟩, .line l)
  | ⟨[], true⟩ => some (⟨[], true⟩, .failed)
  | ⟨[], false⟩ => none

/-- What is said call after call where lines are given one by one. Then it fails again and again, or
others go on. -/
def FileLines.before (given : FileLines) (others : List Disk → List Pull) (ds : List Disk) : List Pull :=
  (given.lines.map .line).take ds.length ++
    if given.fails then List.replicate (ds.length - given.lines.length) .failed
    else others (ds.drop given.lines.length)

namespace LogReader

variable {s : Storage} {rotated last rest files : List LogFile} {follow : Bool} {d : Disk}
  {r : LogReader} {left : FileLines}

/-- A reader has lines left before it comes to the last files. The files that it reads until then are
among the rotated ones. -/
inductive Leaves (s : Storage) (rotated last : List LogFile) (follow : Bool) :
    LogReader → FileLines → Prop where
  | closed {rest : List LogFile} (hrest : rest ⊆ rotated) :
    Leaves s rotated last follow ⟨follow, rest ++ last, none⟩ (LogFile.allGiven s rest)
  | opened {rest : List LogFile} (lines : FileLines) (hrest : rest ⊆ rotated) :
    Leaves s rotated last follow ⟨follow, rest ++ last, some (.rotated lines)⟩
      (lines.append (LogFile.allGiven s rest))

/-- A call takes the first line that is left, and without any it goes on to the last files. -/
def TakesFirst (s : Storage) (rotated last : List LogFile) (d : Disk) (follow : Bool)
    (left : FileLines) (called : LogReader × Pull) : Prop :=
  match left.step with
  | some (left', pull) => called.2 = pull ∧ Leaves s rotated last follow called.1 left'
  | none => called = advance d follow last

theorem open?_rotated {f : LogFile} (h : follow = true → f.rotation ≠ .active) :
    open? d follow f = (d.content? f.path).map fun _ => .rotated (.ofFile d f) := by
  unfold open?
  cases d.content? f.path with
  | none => rfl
  | some content =>
    have hfollowed : ¬ (follow && !f.compressed && f.rotation = .active && content.octets?.isSome) := by
      cases follow <;> simp_all
    exact if_neg hfollowed

theorem takesFirst_opened (lines : FileLines) (hrest : rest ⊆ rotated)
    (hadvance : TakesFirst s rotated last d follow (LogFile.allGiven s rest)
      (advance d follow (rest ++ last))) :
    TakesFirst s rotated last d follow (lines.append (LogFile.allGiven s rest))
      (next d ⟨follow, rest ++ last, some (.rotated lines)⟩) := by
  obtain ⟨lines, fails⟩ := lines
  cases lines with
  | cons l lines => cases fails <;> exact ⟨rfl, .opened _ hrest⟩
  | nil =>
    cases fails with
    | true => exact ⟨rfl, .opened _ hrest⟩
    | false => exact hadvance

theorem takesFirst_advance (hd : d.Holds s rotated)
    (hactive : ∀ f ∈ rotated, follow = true → f.rotation ≠ .active) (hrest : rest ⊆ rotated) :
    TakesFirst s rotated last d follow (LogFile.allGiven s rest) (advance d follow (rest ++ last)) := by
  induction rest with
  | nil => rfl
  | cons f rest ih =>
    obtain ⟨hf, hrest⟩ := List.cons_subset.1 hrest
    have hopen := open?_rotated (d := d) (hactive f hf)
    rw [LogFile.ofFile_eq (hd f hf)] at hopen
    rw [LogFile.allGiven_cons, List.cons_append]
    cases hcontent : d.content? f.path with
    | some content =>
      rw [hcontent] at hopen
      rw [advance_of_open? hopen]
      exact takesFirst_opened _ hrest (ih hrest)
    | none =>
      have hnone : s f.path = none := by
        have hstored := (hd f hf).symm
        rwa [hcontent, Option.map_eq_none_iff] at hstored
      have hgiven : FileLines.mk (f.given s) (decide (f.Blocks s)) = .empty := by
        simp [LogFile.given, LogFile.linesBy, LogFile.Blocks, hnone, FileLines.empty]
      rw [hcontent] at hopen
      rw [advance_of_unopened hopen, hgiven]
      exact ih hrest

/-- **A call takes the first line that is left.** -/
theorem Leaves.next (h : Leaves s rotated last follow r left) (hd : d.Holds s rotated)
    (hactive : ∀ f ∈ rotated, follow = true → f.rotation ≠ .active) :
    TakesFirst s rotated last d follow left (r.next d) := by
  cases h with
  | closed hrest => exact takesFirst_advance hd hactive hrest
  | opened lines hrest => exact takesFirst_opened lines hrest (takesFirst_advance hd hactive hrest)

/-- **All calls take the lines that are left, and then fail again and again or go on to the last
files.** -/
theorem Leaves.pulls (h : Leaves s rotated last follow r left) (ds : List Disk)
    (hds : ∀ d ∈ ds, d.Holds s rotated)
    (hactive : ∀ f ∈ rotated, follow = true → f.rotation ≠ .active) :
    r.pulls ds = left.before (start follow last).pulls ds := by
  unfold FileLines.before
  induction ds generalizing r left with
  | nil => cases left.fails <;> simp [LogReader.pulls]
  | cons d ds ih =>
    obtain ⟨hd, hds⟩ := List.forall_mem_cons.1 hds
    have hnext := h.next hd hactive
    show (r.next d).2 :: (r.next d).1.pulls ds = _
    obtain ⟨lines, fails⟩ := left
    cases lines with
    | cons l lines =>
      obtain ⟨hpull, hleaves⟩ := hnext
      rw [hpull, ih hleaves hds]
      simp
    | nil =>
      cases fails with
      | true =>
        obtain ⟨hpull, hleaves⟩ := hnext
        rw [hpull, ih hleaves hds]
        simp [List.replicate_succ]
      | false =>
        have hadvance : r.next d = advance d follow last := hnext
        rw [hadvance]
        rfl

/-- Without files there is no line. -/
theorem pulls_start_nil (follow : Bool) (ds : List Disk) :
    (start follow []).pulls ds = List.replicate ds.length .ended := by
  induction ds with
  | nil => rfl
  | cons d ds ih =>
    rw [List.length_cons, List.replicate_succ, ← ih]
    rfl

end LogReader

/-! ## Lines and the files they come from -/

/-- A line was found in a file. -/
def LogFile.Has (f : LogFile) (l : SourceLine) : Prop := ∃ n, l.location = some ⟨f.path, n⟩

theorem LogFile.has_iff {f : LogFile} {l : SourceLine} :
    f.Has l ↔ l.location.map (·.file) = some f.path := by
  rw [Option.map_eq_some_iff]
  exact ⟨fun ⟨n, hn⟩ => ⟨⟨f.path, n⟩, hn, rfl⟩, fun ⟨⟨file, n⟩, hn, hfile⟩ => ⟨n, hfile ▸ hn⟩⟩

instance (f : LogFile) : DecidablePred f.Has := fun _ => decidable_of_iff _ LogFile.has_iff.symm

theorem LogFile.has_of_mem_ofFile {f : LogFile} {d : Disk} {l : SourceLine}
    (h : l ∈ (FileLines.ofFile d f).lines) : f.Has l := by
  unfold FileLines.ofFile at h
  split at h
  · cases h
  · rename_i content _
    split at h
    · cases content with
      | plain octets => cases h
      | directory => cases h
      | compressed octets intact => cases intact <;> exact Lines.location_of_mem_locate h
    · split at h
      · rename_i lines hlines
        obtain ⟨octets, -, rfl⟩ := Option.map_eq_some_iff.1 hlines
        exact Lines.location_of_mem_locate h
      · cases h

/-- Lines that are left of a file, or will come. -/
def OpenFile.IsOf (f : LogFile) : OpenFile → Prop
  | rotated left => ∀ l ∈ left.lines, f.Has l
  | followed t => t.path = f.path

namespace LogReader

variable {files rest : List LogFile} {d : Disk} {follow : Bool} {r : LogReader}

/-- A reader has nothing but some files. -/
structure Within (files : List LogFile) (r : LogReader) : Prop where
  files_subset : r.files ⊆ files
  current : ∀ o ∈ r.current, ∃ f ∈ files, o.IsOf f

/-- What is said leaves a reader within some files, and a line is one of theirs. -/
def StaysWithin (files : List LogFile) (called : LogReader × Pull) : Prop :=
  Within files called.1 ∧ ∀ l, called.2 = .line l → ∃ f ∈ files, f.Has l

theorem isOf_of_open? {f : LogFile} {o : OpenFile} (h : open? d follow f = some o) : o.IsOf f := by
  unfold open? at h
  split at h
  · cases h
  · split at h
    · obtain ⟨t, ht, rfl⟩ := Option.map_eq_some_iff.1 h
      obtain ⟨file, -, rfl⟩ := Option.map_eq_some_iff.1 ht
      rfl
    · cases h
      exact fun l hl => LogFile.has_of_mem_ofFile hl

theorem staysWithin_opened {f : LogFile} {o : OpenFile} (hf : f ∈ files) (ho : o.IsOf f)
    (hrest : rest ⊆ files) (hadvance : StaysWithin files (advance d follow rest)) :
    StaysWithin files (next d ⟨follow, rest, some o⟩) := by
  cases o with
  | followed t =>
    have ht : t.path = f.path := ho
    obtain ⟨hpath, hline⟩ := Tail.finds_lookTimes d 3 t
    refine ⟨⟨hrest, fun o ho => ⟨f, hf, ?_⟩⟩, fun l hl => ⟨f, hf, ?_⟩⟩
    · cases ho
      exact hpath.trans ht
    · have hfound : (t.next d).2 = some l := by
        change ((t.next d).2.map Pull.line).getD .waiting = .line l at hl
        cases hnext : (t.next d).2 with
        | none =>
          rw [hnext] at hl
          cases hl
        | some l' =>
          rw [hnext] at hl
          cases hl
          rfl
      obtain ⟨n, hplace⟩ := hline l hfound
      exact ⟨n, ht ▸ hplace⟩
  | rotated left =>
    obtain ⟨lines, fails⟩ := left
    cases lines with
    | cons l lines =>
      obtain ⟨hl, hlines⟩ := List.forall_mem_cons.1 ho
      refine ⟨⟨hrest, fun o ho => ⟨f, hf, ?_⟩⟩, fun l' hl' => ⟨f, hf, ?_⟩⟩
      · cases ho
        exact hlines
      · cases hl'
        exact hl
    | nil =>
      cases fails with
      | true => exact ⟨⟨hrest, fun o ho' => ⟨f, hf, Option.some.inj ho' ▸ ho⟩⟩, fun l hl => nomatch hl⟩
      | false => exact hadvance

theorem staysWithin_advance (hrest : rest ⊆ files) : StaysWithin files (advance d follow rest) := by
  induction rest with
  | nil => exact ⟨⟨hrest, fun o ho => nomatch ho⟩, fun l hl => nomatch hl⟩
  | cons f rest ih =>
    obtain ⟨hf, hrest⟩ := List.cons_subset.1 hrest
    cases hopen : open? d follow f with
    | none =>
      rw [advance_of_unopened hopen]
      exact ih hrest
    | some o =>
      rw [advance_of_open? hopen]
      exact staysWithin_opened hf (isOf_of_open? hopen) hrest (ih hrest)

theorem Within.next (h : Within files r) (d : Disk) : StaysWithin files (r.next d) := by
  obtain ⟨follow, rest, current⟩ := r
  obtain ⟨hrest, hcurrent⟩ := h
  cases current with
  | none => exact staysWithin_advance hrest
  | some o =>
    obtain ⟨f, hf, ho⟩ := hcurrent o rfl
    exact staysWithin_opened hf ho hrest (staysWithin_advance hrest)

/-- **Every line that is said is one of the files.** -/
theorem Within.pulls (h : Within files r) (ds : List Disk) {l : SourceLine}
    (hl : .line l ∈ r.pulls ds) : ∃ f ∈ files, f.Has l := by
  induction ds generalizing r with
  | nil => cases hl
  | cons d ds ih =>
    obtain ⟨hnext, hline⟩ := h.next d
    change Pull.line l ∈ (r.next d).2 :: (r.next d).1.pulls ds at hl
    rcases List.mem_cons.1 hl with hfirst | hlater
    · exact hline l hfirst.symm
    · exact ih hnext hlater

end LogReader

namespace LogFile

variable {s : Storage} {files : List LogFile}

theorem has_of_mem_linesBy {unpack : Packed → List (List UInt8)} {f : LogFile} {l : SourceLine}
    (h : l ∈ f.linesBy unpack s) : f.Has l := by
  obtain ⟨i, hi, rfl⟩ := List.mem_mapIdx.1 h
  exact ⟨i + 1, rfl⟩

theorem path_eq_of_has {f g : LogFile} {l : SourceLine} (hf : f.Has l) (hg : g.Has l) : f.path = g.path :=
  Option.some.inj ((has_iff.1 hf).symm.trans (has_iff.1 hg))

/-- Among the lines of several files those of the first one are found by its path. -/
theorem filter_has {f : LogFile} {g : LogFile → List SourceLine} (hg : ∀ f, ∀ l ∈ g f, f.Has l)
    (hf : f.path ∉ files.map (·.path)) : ((f :: files).flatMap g).filter (f.Has ·) = g f := by
  have hfirst : (g f).filter (f.Has ·) = g f :=
    List.filter_eq_self.2 fun l hl => decide_eq_true (hg f l hl)
  have hlater : (files.flatMap g).filter (f.Has ·) = [] := List.filter_eq_nil_iff.2 fun l hl => by
    obtain ⟨f', hf', hl⟩ := List.mem_flatMap.1 hl
    simpa using fun hhas => hf (List.mem_map.2 ⟨f', hf', path_eq_of_has (hg f' l hl) hhas⟩)
  rw [List.flatMap_cons, List.filter_append, hfirst, hlater, List.append_nil]

/-- Lines of files with different paths can be told apart. -/
theorem eq_of_flatMap_eq {g h : LogFile → List SourceLine} (hg : ∀ f, ∀ l ∈ g f, f.Has l)
    (hh : ∀ f, ∀ l ∈ h f, f.Has l) (hpaths : (files.map (·.path)).Nodup)
    (heq : files.flatMap g = files.flatMap h) : ∀ f ∈ files, g f = h f := by
  induction files with
  | nil => exact fun f hf => nomatch hf
  | cons f files ih =>
    obtain ⟨hf, hpaths⟩ := List.nodup_cons.1 hpaths
    have hfirst : g f = h f := by rw [← filter_has hg hf, heq, filter_has hh hf]
    rw [List.flatMap_cons, List.flatMap_cons, hfirst] at heq
    exact List.forall_mem_cons.2 ⟨hfirst, ih hpaths (List.append_cancel_left heq)⟩

/-- A file does not block, and gives what it holds. -/
def ReadWhole (s : Storage) (f : LogFile) : Prop := ¬ f.Blocks s ∧ f.given s = f.held s

/-- A file of one part that does not block is read whole. -/
theorem readWhole_of_onePart {f : LogFile} (hblocks : ¬ f.Blocks s)
    (h : ∀ p ∈ (s f.path).bind Stored.packed?, p.later = []) : f.ReadWhole s := by
  have hlines : ∀ stored ∈ s f.path, stored.lines Packed.given f.compressed =
      stored.lines Packed.held f.compressed := by
    intro stored hstored
    cases stored with
    | directory => rfl
    | octets raw packed =>
      cases packed with
      | none => rfl
      | some p =>
        have hpacked : p ∈ (s f.path).bind Stored.packed? := Option.mem_bind_iff.2 ⟨_, hstored, rfl⟩
        show (if _ then p.given else _) = if _ then p.held else _
        rw [Packed.given_eq_held (h p hpacked)]
  refine ⟨hblocks, ?_⟩
  unfold given held linesBy
  rw [Option.map_congr hlines]

/-- **All that is held is given exactly if each file is read whole.** -/
theorem allGiven_eq_held_iff (hpaths : (files.map (·.path)).Nodup) :
    allGiven s files = ⟨files.flatMap (·.held s), false⟩ ↔ ∀ f ∈ files, f.ReadWhole s := by
  have hall (hblocks : ∀ f ∈ files, ¬ f.Blocks s) :
      (files.takeWhile fun f => ¬ f.Blocks s) = files :=
    List.takeWhile_eq_self_iff.2 fun f hf => decide_eq_true (hblocks f hf)
  constructor
  · intro h
    obtain ⟨hlines, hfails⟩ := FileLines.mk.inj h
    have hblocks : ∀ f ∈ files, ¬ f.Blocks s := by simpa using hfails
    rw [hall hblocks] at hlines
    have hgiven := eq_of_flatMap_eq (fun f l => has_of_mem_linesBy) (fun f l => has_of_mem_linesBy)
      hpaths hlines
    exact fun f hf => ⟨hblocks f hf, hgiven f hf⟩
  · intro h
    have hblocks : ∀ f ∈ files, ¬ f.Blocks s := fun f hf => (h f hf).1
    have hlines : files.flatMap (·.given s) = files.flatMap (·.held s) :=
      List.flatMap_congr fun f hf => (h f hf).2
    unfold allGiven
    rw [hall hblocks, hlines]
    simpa using hblocks

end LogFile

/-! ## Directories -/

/-- The first `n` answers where lines are given one by one, and then the same answer each time. -/
def FileLines.answers (given : FileLines) (n : Nat) : List Pull :=
  (given.lines.map .line).take n ++
    List.replicate (n - given.lines.length) (if given.fails then .failed else .ended)

theorem FileLines.eq_of_answers_eq {a b : FileLines} (h : ∀ n, a.answers n = b.answers n) : a = b := by
  have honly (c : FileLines) {n : Nat} (hn : c.lines.length ≤ n) :
      (c.answers n).filterMap Pull.onlyLine? = c.lines.map .line := by
    have hlast : Pull.onlyLine? (if c.fails then .failed else .ended) = none := by
      cases c.fails <;> rfl
    unfold answers
    rw [List.take_of_length_le (by simpa using hn), List.filterMap_append, List.filterMap_replicate, hlast,
      List.filterMap_map]
    simp [Function.comp_def, Pull.onlyLine?]
  obtain ⟨lines, fails⟩ := a
  obtain ⟨lines', fails'⟩ := b
  have hlines : lines.map Pull.line = lines'.map .line := by
    rw [← honly ⟨lines, fails⟩ (Nat.le_add_right lines.length lines'.length), h,
      honly ⟨lines', fails'⟩ (Nat.le_add_left ..)]
  obtain rfl : lines = lines' := List.map_injective_iff.2 (fun _ _ => Pull.line.inj) hlines
  have hlast := h (lines.length + 1)
  cases fails <;> cases fails' <;> simp [answers] at hlast ⊢

open LogFile

namespace FileQueue

variable {s : Storage} {files rotated last : List LogFile} {ds : List Disk} (p : Pieces)

/-- Without following, all that is said is what the files give. -/
theorem pulls_unfollowed (hds : ∀ d ∈ ds, d.Holds s files) :
    (start p false files).pulls ds = (allGiven s files).answers ds.length := by
  have hleaves : LogReader.Leaves s files [] false (LogReader.start false files) (allGiven s files) := by
    have hclosed : LogReader.Leaves s files [] false ⟨false, files ++ [], none⟩ (allGiven s files) :=
      .closed (List.Subset.refl files)
    rwa [List.append_nil] at hclosed
  rw [pulls_start, hleaves.pulls ds hds (fun f hf hfollow => nomatch hfollow), FileLines.before,
    LogReader.pulls_start_nil, List.length_drop, FileLines.answers]
  cases (allGiven s files).fails <;> rfl

/-- With following, the last files are read only after all that the rotated ones give. -/
theorem pulls_followed (hds : ∀ d ∈ ds, d.Holds s rotated)
    (hrotated : ∀ f ∈ rotated, f.rotation ≠ .active) :
    (start p true (rotated ++ last)).pulls ds =
      (allGiven s rotated).before (start p true last).pulls ds := by
  have hleaves : LogReader.Leaves s rotated last true (LogReader.start true (rotated ++ last))
      (allGiven s rotated) := .closed (List.Subset.refl rotated)
  have hothers : (start p true last).pulls = (LogReader.start true last).pulls :=
    funext fun ds => pulls_start p true last ds
  rw [pulls_start, hothers, hleaves.pulls ds hds fun f hf _ => hrotated f hf]

/-- **The lines that the files hold are said one after the other exactly if each file is read whole.** -/
theorem pulls_eq_held_iff {d : Disk} (hpaths : (files.map (·.path)).Nodup) (hd : d.Holds s files) :
    (∀ n, (start p false files).pulls (List.replicate n d) =
        FileLines.answers ⟨files.flatMap (·.held s), false⟩ n) ↔
      ∀ f ∈ files, f.ReadWhole s := by
  have hpulls (n : Nat) : (start p false files).pulls (List.replicate n d) =
      (allGiven s files).answers n := by
    rw [pulls_unfollowed p fun d' hd' => List.eq_of_mem_replicate hd' ▸ hd, List.length_replicate]
  rw [← allGiven_eq_held_iff hpaths]
  constructor
  · intro hclaim
    exact FileLines.eq_of_answers_eq fun n => (hpulls n).symm.trans (hclaim n)
  · intro hall n
    rw [hpulls, hall]

end FileQueue

/-- **What a directory is read as.** Its files are read in the order in which they are found. Each gives
its lines with its path and its own numbers: a file that cannot be opened none, a compressed file those
of its first part, and if that breaks off the ones that are whole. A directory in the place of a file that
is not compressed ends it all: every call from there on fails. Without one, every call after the last
line tells of the end. So the directory is the lines that its files hold, one file after the other,
exactly if no file blocks and each gives what it holds. If the log is followed, the same goes for the
files that are no longer written, and only after all their lines the file that is written is followed.
And the same is found by whoever takes all lines of a file at once. -/
theorem directory_read {d : Disk} {dir : String} {bases : List String} {files : List LogFile}
    (h : d.logFiles dir bases = .ok files) (s : Storage) (p : Pieces) :
    (∀ ds : List Disk, (∀ d ∈ ds, d.Holds s files) →
      (FileQueue.start p false files).pulls ds = (allGiven s files).answers ds.length) ∧
    (∀ d : Disk, d.Holds s files →
      ((∀ n, (FileQueue.start p false files).pulls (List.replicate n d) =
          FileLines.answers ⟨files.flatMap (·.held s), false⟩ n) ↔
        ∀ f ∈ files, f.ReadWhole s)) ∧
    (∀ ds : List Disk, (∀ d ∈ ds, d.Holds s (rotatedFiles files)) →
      (FileQueue.start p true files).pulls ds =
        (allGiven s (rotatedFiles files)).before (FileQueue.start p true (activeFiles files)).pulls ds) ∧
    (allGiven s (rotatedFiles files) = ⟨(rotatedFiles files).flatMap (·.held s), false⟩ ↔
      ∀ f ∈ rotatedFiles files, f.ReadWhole s) ∧
    (∀ (ds : List Disk) (l : SourceLine),
      .line l ∈ (FileQueue.start p true (activeFiles files)).pulls ds →
        ∃ f ∈ activeFiles files, f.Has l) ∧
    (d.Holds s files → d.logLines dir bases = .ok (allGiven s files)) := by
  have hpaths := Disk.nodup_paths h
  refine ⟨fun ds hds => FileQueue.pulls_unfollowed p hds, fun d hd => FileQueue.pulls_eq_held_iff p hpaths hd,
    fun ds hds => ?_, ?_, fun ds l hl => ?_, fun hd => ?_⟩
  · have hrotated : ∀ f ∈ rotatedFiles files, f.rotation ≠ .active := fun f hf => by
      simpa using (List.mem_filter.1 hf).2
    rw [← FileQueue.pulls_followed p hds hrotated, Disk.rotatedFiles_append_activeFiles h]
  · exact allGiven_eq_held_iff (hpaths.sublist (List.filter_sublist.map _))
  · rw [FileQueue.pulls_start] at hl
    have hwithin : LogReader.Within (activeFiles files) (LogReader.start true (activeFiles files)) :=
      ⟨List.Subset.refl _, nofun⟩
    exact hwithin.pulls ds hl
  · unfold Disk.logLines
    rw [h, ← ofFiles_eq hd]
    rfl

/-! ## Directories on a disk -/

/-- Each octet comes alone. -/
def Pieces.single : Pieces where
  cut _ octets := octets.map fun b => ⟨[b], List.cons_ne_nil b []⟩
  octets_cut _ octets := by
    unfold Chunk.octets
    rw [List.flatMap_map]
    exact List.flatMap_singleton' octets

/-- A disk with what is stored for some files. -/
def Storage.disk (s : Storage) (files : List LogFile) : Disk :=
  .ofFiles (files.filterMap fun f => (s f.path).map fun stored => (f.path, stored.content f.compressed))

/-- The names in a directory in the order in which the paths came. -/
def Disk.listed (d : Disk) (dir : String) : List String := d.paths.keys.filterMap (Path.nameIn? dir)

/-- Files that are listed from old to new are found in this order. -/
theorem Disk.logFiles_of_ordered {d : Disk} {dir base : String} {files : List LogFile}
    (hdir : d.isDirectory dir = true) (hdistinct : LogFile.Distinct (d.listed dir) base)
    (hfiles : ((d.listed dir).filterMap fun name =>
      (Rotation.ofName? base name).map fun (r, compressed) =>
        LogFile.mk (Path.join dir name) r compressed) = files)
    (hordered : files.Pairwise fun f g => f.rotation.le g.rotation = true) (hne : files ≠ []) :
    d.logFiles dir [base] = .ok files := by
  have hperm : (d.listed dir).Perm (d.names dir) := (List.mergeSort_perm ..).symm
  have hbase : LogFile.ofBase dir (d.names dir) base = files := by
    rw [← LogFile.ofBase_eq hperm hdistinct dir, LogFile.ofBase, hfiles]
    exact List.mergeSort_of_pairwise hordered
  have hfound : LogFile.discover dir (d.names dir) [base] = files := by
    unfold LogFile.discover
    rw [List.map_singleton, hbase, List.find?_cons_of_pos (by simpa using hne)]
    rfl
  unfold logFiles discover
  rw [if_pos hdir, hfound]
  cases files with
  | nil => exact absurd rfl hne
  | cons f files => rfl

instance (d : Disk) (s : Storage) (files : List LogFile) : Decidable (d.Holds s files) :=
  inferInstanceAs (Decidable (∀ _ ∈ files, _))

/-- A compressed file of two parts, and a file of one line. -/
def twoParts : Storage × List LogFile :=
  (fun path =>
    if path = "mail.log.1.gz" then some (.octets [0x1F, 0x8B] (some ⟨[97, 10], [[98, 10]], true⟩))
    else if path = "mail.log" then some (.octets [99, 10] none)
    else none,
    [⟨"mail.log.1.gz", .numbered 1, true⟩, ⟨"mail.log", .active, false⟩])

/-- A directory in the place of a file, and a file of one line. -/
def directoryBefore : Storage × List LogFile :=
  (fun path =>
    if path = "mail.log.1" then some .directory
    else if path = "mail.log" then some (.octets [99, 10] none)
    else none,
    [⟨"mail.log.1", .numbered 1, false⟩, ⟨"mail.log", .active, false⟩])

/-- The line of the second part is not read, and after the directory nothing is. -/
theorem twoParts_directoryBefore_not_read :
    ((twoParts.1.disk twoParts.2).logFiles "" ["mail.log"] = .ok twoParts.2 ∧
      ¬ ∀ n, (FileQueue.start .single false twoParts.2).pulls
          (List.replicate n (twoParts.1.disk twoParts.2)) =
        FileLines.answers ⟨twoParts.2.flatMap (·.held twoParts.1), false⟩ n) ∧
    (directoryBefore.1.disk directoryBefore.2).logFiles "" ["mail.log"] = .ok directoryBefore.2 ∧
      ¬ ∀ n, (FileQueue.start .single false directoryBefore.2).pulls
          (List.replicate n (directoryBefore.1.disk directoryBefore.2)) =
        FileLines.answers ⟨directoryBefore.2.flatMap (·.held directoryBefore.1), false⟩ n := by
  have hparts : (twoParts.1.disk twoParts.2).logFiles "" ["mail.log"] = .ok twoParts.2 :=
    Disk.logFiles_of_ordered rfl (by decide +kernel) (by decide +kernel) (by decide) (by decide)
  have hbefore : (directoryBefore.1.disk directoryBefore.2).logFiles "" ["mail.log"] =
      .ok directoryBefore.2 :=
    Disk.logFiles_of_ordered rfl (by decide +kernel) (by decide +kernel) (by decide) (by decide)
  exact ⟨⟨hparts, fun hall => absurd (hall 2) (by decide +kernel)⟩,
    hbefore, fun hall => absurd (hall 1) (by decide +kernel)⟩

/-- A compressed file that breaks off in its second line, a file that cannot be opened any more, and a
file whose last line has no end. -/
def brokenOff : Storage × List LogFile :=
  (fun path =>
    if path = "mail.log.2.gz" then some (.octets [0x1F, 0x8B] (some ⟨[97, 10, 98], [], false⟩))
    else if path = "mail.log" then some (.octets [99, 10, 100] none)
    else none,
    [⟨"mail.log.2.gz", .numbered 2, true⟩, ⟨"mail.log.1", .numbered 1, false⟩,
      ⟨"mail.log", .active, false⟩])

/-- The lines that are whole before the break, and those of the last file. -/
theorem brokenOff_read :
    ∃ d : Disk, d.logFiles "" ["mail.log"] = .ok brokenOff.2 ∧
      (∀ n, (FileQueue.start .single false brokenOff.2).pulls
          (List.replicate n (brokenOff.1.disk brokenOff.2)) =
        FileLines.answers ⟨brokenOff.2.flatMap (·.held brokenOff.1), false⟩ n) ∧
      brokenOff.2.flatMap (·.held brokenOff.1) =
        [⟨"a", some ⟨"mail.log.2.gz", 1⟩⟩, ⟨"c", some ⟨"mail.log", 1⟩⟩, ⟨"d", some ⟨"mail.log", 2⟩⟩] := by
  have hfound : (Disk.ofFiles (brokenOff.2.map fun f => (f.path, .plain []))).logFiles "" ["mail.log"] =
      .ok brokenOff.2 :=
    Disk.logFiles_of_ordered rfl (by decide +kernel) (by decide +kernel) (by decide) (by decide)
  obtain ⟨-, hwhole, -⟩ := directory_read hfound brokenOff.1 .single
  have hblocks : ∀ f ∈ brokenOff.2, ¬ f.Blocks brokenOff.1 := by decide +kernel
  have hparts : ∀ f ∈ brokenOff.2, ∀ p ∈ (brokenOff.1 f.path).bind Stored.packed?, p.later = [] := by
    decide +kernel
  have hread : ∀ f ∈ brokenOff.2, f.ReadWhole brokenOff.1 :=
    fun f hf => LogFile.readWhole_of_onePart (hblocks f hf) (hparts f hf)
  exact ⟨_, hfound, (hwhole (brokenOff.1.disk brokenOff.2) (by decide +kernel)).2 hread, by decide +kernel⟩

end MailTrace
