import Mathlib.Logic.Relation
import MailTrace.Proofs.Source.Tails
import MailTrace.Source.Follow

/-!
# Each line of a growing log is read once

1. The reader stands in the generation that is being written, in the file before it, or after the end of
   a file that was cut short (`Standing`). In each place the lines that it gave are those of the octets
   that it looked at.
2. A look reads on in the open file, opens the file again if it is stale, or leaves all as it was
   (`Sound.poll_cases`).
3. Every step keeps that (`Sound.step`), so the lines given are always among those that have an end
   (`Sound.yielded_isPrefix`), and are all of them once nothing is left (`Sound.yielded_eq`).
4. Looking comes to where nothing is left (`Sound.exists_idle`), since each look that changes something
   leaves less to read (`pending`).
5. A followed file is opened as `start` has it (`open?_start`), asking for its next line is looking
   (`exists_polls_eq_lookTimes`), and what is written at its path is written in steps (`step_append`,
   `reaches_overwrite`).
-/

namespace MailTrace

open MailTrace.Text Lines

/-! ## Disks -/

namespace Disk

variable {d : Disk} {path : String} {file : Nat}

theorem content_write (h : file < d.files.length) (octets : List UInt8) (other : Nat) :
    (d.write file octets).content other = if other = file then .plain octets else d.content other := by
  unfold write content
  rw [List.getD_eq_getElem?_getD, List.getElem?_set]
  by_cases hfile : other = file
  · rw [if_pos hfile, if_pos hfile.symm, if_pos h]
    rfl
  · rw [if_neg hfile, if_neg (Ne.symm hfile), List.getD_eq_getElem?_getD]

theorem content_create_of_lt (h : file < d.files.length) (path : String) (c : FileContent) :
    (d.create path c).content file = d.content file := by
  unfold create content
  rw [List.getD_eq_getElem?_getD, List.getElem?_append_left h, List.getD_eq_getElem?_getD]

theorem find?_link (d : Disk) (path : String) (file : Nat) :
    (d.link path file).find? path = some file := by
  unfold link find?
  rw [Table.get?_upsert, if_pos rfl]

theorem find?_create (d : Disk) (path : String) (c : FileContent) :
    (d.create path c).find? path = some d.files.length :=
  find?_link d path d.files.length

theorem find?_remove (d : Disk) (path : String) : (d.remove path).find? path = none := by
  unfold remove find?
  rw [Table.get?_erase, if_pos rfl]

/-- The content of the file that a path leads to is changed in the file itself. -/
theorem update_eq_write (h : d.find? path = some file) (f : List UInt8 → List UInt8) :
    d.update path f = d.write file (f (d.content file).octets) := by
  unfold update
  rw [h]
  rfl

end Disk

namespace Following

open Tail

variable {f g : Following}

/-- The lines of generations of a log that have an end. -/
def linesOf (path : String) (generations : List (List UInt8)) : List SourceLine :=
  generations.flatMap (finished path)

theorem linesOf_concat (path : String) (generations : List (List UInt8)) (octets : List UInt8) :
    linesOf path (generations ++ [octets]) = linesOf path generations ++ finished path octets := by
  unfold linesOf
  rw [List.flatMap_append, List.flatMap_singleton]

/-- The lines of all generations that have an end. -/
def expected (f : Following) : List SourceLine := linesOf f.tail.path (f.earlier ++ [f.content])

/-- The octets of the open file. -/
def opened (f : Following) : List UInt8 := (f.disk.content f.tail.file).octets

/-- The file at the path is opened. -/
def reopened (f : Following) : Following :=
  { f with tail := ⟨f.tail.path, f.current, 0, [], [], 0⟩ }

theorem opened_eq (h : f.tail.file = f.current) : f.opened = f.content := by
  rw [opened, h, content]

/-! ## Where the reader stands -/

/-- Where the reader stands, and what it gave. -/
inductive Standing (f : Following) : Prop
  /-- In the generation that is being written. -/
  | inside (hfile : f.tail.file = f.current) (hreads : f.tail.Reads f.content)
      (hyielded : f.yielded = linesOf f.tail.path f.earlier ++
        finished f.tail.path (f.tail.seen f.content))
  /-- In the file that was replaced. -/
  | outside {before : List (List UInt8)} (hfile : f.tail.file ≠ f.current)
      (hearlier : f.earlier = before ++ [f.opened]) (hreads : f.tail.Reads f.opened)
      (hyielded : f.yielded = linesOf f.tail.path before ++
        finished f.tail.path (f.tail.seen f.opened))
  /-- After the end of the file, which was cut short. -/
  | beyond (hshort : f.CutShort) (hbuffer : f.tail.buffer = []) (hearlier : f.earlier ≠ [])
      (hyielded : f.yielded = linesOf f.tail.path f.earlier)

/-- The reader stands somewhere, its file and the one being written exist, and the path leads to no other
file than the one being written. -/
structure Sound (f : Following) : Prop where
  standing : f.Standing
  current_lt : f.current < f.disk.files.length
  file_lt : f.tail.file < f.disk.files.length
  leads : ∀ file, f.disk.find? f.tail.path = some file → file = f.current

theorem Standing.fits (h : f.Standing) : f.tail.Fits f.opened := by
  cases h with
  | inside hfile hreads => exact opened_eq hfile ▸ hreads.fits
  | outside _ _ hreads => exact hreads.fits
  | beyond _ hbuffer => exact fits_of_buffer_eq_nil hbuffer

/-- The reader noticed what happened exactly if it stands in the generation that is being written. -/
theorem Standing.reads_of_noticed (h : f.Standing) (hnoticed : f.Noticed) :
    f.tail.Reads f.content ∧ f.yielded = linesOf f.tail.path f.earlier ++
      finished f.tail.path (f.tail.seen f.content) := by
  cases h with
  | inside _ hreads hyielded => exact ⟨hreads, hyielded⟩
  | outside hfile => exact absurd hnoticed.1 hfile
  | beyond hshort => exact absurd hshort hnoticed.2

theorem noticed_of_reads (hfile : f.tail.file = f.current) (hreads : f.tail.Reads f.content) :
    f.Noticed :=
  ⟨hfile, fun hshort => Nat.not_le_of_lt hshort.2 hreads.position_le⟩

theorem sound_start (d : Disk) (path : String) (octets : List UInt8) : (start d path octets).Sound where
  standing := .inside rfl (reads_open _ _ _) rfl
  current_lt := by
    show d.files.length < (d.files ++ [_]).length
    rw [List.length_append]
    exact Nat.lt_succ_self _
  file_lt := by
    show d.files.length < (d.files ++ [_]).length
    rw [List.length_append]
    exact Nat.lt_succ_self _
  leads file hfile := by
    have hcreate := Disk.find?_create d path (.plain octets)
    exact Option.some_inj.1 (hfile.symm.trans hcreate)

theorem open?_start (d : Disk) (path : String) (octets : List UInt8) :
    Tail.open? (start d path octets).disk path = some (start d path octets).tail := by
  unfold Tail.open? start
  rw [Disk.find?_create]
  rfl

/-! ## One look -/

theorem Sound.isStale_iff (h : f.Sound) :
    f.tail.isStale f.disk = true ↔ f.Present ∧ ¬ f.Noticed := by
  unfold isStale Present
  cases hfind : f.disk.find? f.tail.path with
  | none => simp
  | some file =>
    obtain rfl := h.leads file hfind
    have hcontent : (f.disk.content f.current).octets = f.content := rfl
    simp only [hcontent, Noticed, CutShort, true_and, Bool.or_eq_true, decide_eq_true_eq, ne_eq]
    omega

/-- With nothing left in the open file it is opened again if it is stale. -/
theorem Sound.poll_of_nil (h : f.Sound) (hnil : f.tail.left f.opened = []) :
    f.poll = if f.tail.isStale f.disk then f.reopened else f := by
  have hlook := look_of_nil h.standing.fits hnil
  unfold poll
  rw [hlook]
  split
  · rename_i hstale
    have hpresent : f.disk.find? f.tail.path = some f.current := (h.isStale_iff.1 hstale).1
    have hopen : Tail.open? f.disk f.tail.path = some f.reopened.tail := by
      rw [Tail.open?, hpresent]
      rfl
    rw [hopen, reopened]
    simp
  · simp

/-- **A look reads on in the open file, opens a stale file again, or leaves all as it was.** -/
theorem Sound.poll_cases (h : f.Sound) :
    (f.tail.Reads f.opened ∧ f.tail.position < f.opened.length) ∨
      (f.poll = f.reopened ∧ f.Present ∧ ¬ f.Noticed ∧ f.yielded = linesOf f.tail.path f.earlier) ∨
      (f.poll = f ∧ f.tail.left f.opened = [] ∧ (f.Present → f.Noticed)) := by
  by_cases hnil : f.tail.left f.opened = []
  · have hpoll := h.poll_of_nil hnil
    have hseen : f.tail.seen f.opened = f.opened := by
      have happend := seen_append_left f.opened f.tail
      rwa [hnil, List.append_nil] at happend
    by_cases hstale : f.tail.isStale f.disk = true
    · obtain ⟨hpresent, hnoticed⟩ := h.isStale_iff.1 hstale
      rw [if_pos hstale] at hpoll
      refine .inr (.inl ⟨hpoll, hpresent, hnoticed, ?_⟩)
      cases h.standing with
      | inside hfile hreads => exact absurd (noticed_of_reads hfile hreads) hnoticed
      | outside _ hearlier _ hyielded => rw [hyielded, hseen, hearlier, linesOf_concat]
      | beyond _ _ _ hyielded => exact hyielded
    · rw [if_neg hstale] at hpoll
      refine .inr (.inr ⟨hpoll, hnil, fun hpresent => ?_⟩)
      exact Decidable.byContradiction fun hnoticed =>
        hstale (h.isStale_iff.2 ⟨hpresent, hnoticed⟩)
  · have hlt : f.tail.position < f.opened.length :=
      Nat.lt_of_not_le fun hle => hnil (List.drop_eq_nil_of_le hle)
    refine .inl ⟨?_, hlt⟩
    cases h.standing with
    | inside hfile hreads => exact opened_eq hfile ▸ hreads
    | outside _ _ hreads => exact hreads
    | beyond hshort =>
      rw [opened_eq hshort.1] at hlt
      exact absurd hlt (Nat.not_lt_of_lt hshort.2)

theorem Sound.path_poll (h : f.Sound) : f.poll.tail.path = f.tail.path := by
  rcases h.poll_cases with ⟨hreads, hlt⟩ | ⟨hpoll, _⟩ | ⟨hpoll, _⟩
  · exact (hreads.look hlt).1
  · rw [hpoll]
    rfl
  · rw [hpoll]

/-- The generations stay what they are when the reader looks. -/
theorem Sound.expected_poll (h : f.Sound) : f.poll.expected = f.expected := by
  rw [expected, h.path_poll]
  rfl

theorem Sound.poll (h : f.Sound) : f.poll.Sound := by
  rcases h.poll_cases with ⟨hreads, hlt⟩ | ⟨hpoll, _, _, hyielded⟩ | ⟨hpoll, _⟩
  · obtain ⟨hpath, hfile, hreads', _, hfinished⟩ := hreads.look hlt
    have hopened : f.poll.opened = f.opened := congrArg (fun n => (f.disk.content n).octets) hfile
    -- what was given and the line of this look are those of the octets looked at by then
    have hyields {generations : List (List UInt8)}
        (hyielded : f.yielded = linesOf f.tail.path generations ++
          finished f.tail.path (f.tail.seen f.opened)) :
        f.poll.yielded = linesOf f.poll.tail.path generations ++
          finished f.poll.tail.path (f.poll.tail.seen f.opened) := by
      show f.yielded ++ _ = linesOf (f.tail.look f.disk).1.path _ ++
        finished (f.tail.look f.disk).1.path _
      rw [hpath, hyielded, List.append_assoc]
      exact congrArg _ hfinished.symm
    refine ⟨?_, h.current_lt, hfile ▸ h.file_lt, hpath ▸ h.leads⟩
    cases h.standing with
    | inside hinside _ hyielded =>
      have hcontent := opened_eq hinside
      exact .inside (hfile.trans hinside) (hcontent ▸ hreads')
        (hcontent ▸ hyields (hcontent ▸ hyielded))
    | outside houtside hearlier _ hyielded =>
      exact .outside (hfile.symm ▸ houtside) (hopened ▸ hearlier) (hopened ▸ hreads')
        (hopened ▸ hyields hyielded)
    | beyond hshort =>
      rw [opened_eq hshort.1] at hlt
      exact absurd hlt (Nat.not_lt_of_lt hshort.2)
  · rw [hpoll]
    refine ⟨.inside rfl (reads_open _ _ _) ?_, h.current_lt, h.current_lt, h.leads⟩
    exact hyielded.trans (List.append_nil _).symm
  · rw [hpoll]
    exact h

/-! ## The steps of those who write -/

theorem content_written (h : f.current < f.disk.files.length) (octets : List UInt8) :
    (f.written octets).content = octets := by
  show ((f.disk.write f.current octets).content f.current).octets = octets
  rw [Disk.content_write h, if_pos rfl]
  rfl

theorem length_files_written (f : Following) (octets : List UInt8) :
    (f.written octets).disk.files.length = f.disk.files.length :=
  List.length_set

theorem Sound.append (h : f.Sound) {octets : List UInt8}
    (hshort : f.CutShort → f.content.length + octets.length < f.tail.position) :
    (f.written (f.content ++ octets)).Sound := by
  have hcontent := content_written h.current_lt (f.content ++ octets)
  have hlength := (length_files_written f (f.content ++ octets)).symm
  refine ⟨?_, hlength ▸ h.current_lt, hlength ▸ h.file_lt, h.leads⟩
  cases h.standing with
  | inside hfile hreads hyielded =>
    obtain ⟨hreads', hseen⟩ := hreads.append octets
    refine .inside hfile (hcontent.symm ▸ hreads') ?_
    rw [hcontent]
    exact hyielded.trans (by rw [← hseen]; rfl)
  | outside hfile hearlier hreads hyielded =>
    have hopened : (f.written (f.content ++ octets)).opened = f.opened := by
      show ((f.disk.write f.current (f.content ++ octets)).content f.tail.file).octets = f.opened
      rw [Disk.content_write h.current_lt, if_neg hfile]
      rfl
    exact .outside hfile (hopened.symm ▸ hearlier) (hopened.symm ▸ hreads) (hopened.symm ▸ hyielded)
  | beyond hcut hbuffer hearlier hyielded =>
    refine .beyond ⟨hcut.1, ?_⟩ hbuffer hearlier hyielded
    rw [hcontent, List.length_append]
    exact hshort hcut

theorem Sound.truncate (h : f.Sound) {size : Nat} (hnoticed : f.Noticed)
    (hread : f.tail.position = f.content.length) (hsize : size < f.content.length) :
    (f.ended.written (f.content.take size)).Sound := by
  obtain ⟨hreads, hyielded⟩ := h.standing.reads_of_noticed hnoticed
  have hcontent := content_written (f := f.ended) h.current_lt (f.content.take size)
  have hlength := (length_files_written f.ended (f.content.take size)).symm
  refine ⟨.beyond ⟨hnoticed.1, ?_⟩ ?_ ?_ ?_, hlength ▸ h.current_lt, hlength ▸ h.file_lt, h.leads⟩
  · rw [hcontent, List.length_take]
    show min size f.content.length < f.tail.position
    omega
  · have hleft : f.tail.left f.content = [] := List.drop_eq_nil_of_le (Nat.le_of_eq hread.symm)
    exact List.prefix_nil.1 (hleft ▸ hreads.fits.buffer_isPrefix)
  · exact List.append_ne_nil_of_right_ne_nil _ (List.cons_ne_nil _ _)
  · have hseen : f.tail.seen f.content = f.content := List.take_of_length_le (Nat.le_of_eq hread.symm)
    rw [hseen, ← linesOf_concat] at hyielded
    exact hyielded

theorem Sound.replace (h : f.Sound) (octets : List UInt8) (hnoticed : f.Noticed) :
    (f.replaced octets).Sound := by
  obtain ⟨hreads, hyielded⟩ := h.standing.reads_of_noticed hnoticed
  have hopened : (f.replaced octets).opened = f.content := by
    show ((f.disk.create f.tail.path (.plain octets)).content f.tail.file).octets = f.content
    rw [Disk.content_create_of_lt h.file_lt]
    exact opened_eq hnoticed.1
  have hlength : (f.replaced octets).disk.files.length = f.disk.files.length + 1 :=
    List.length_append
  have hearlier : (f.replaced octets).earlier = f.earlier ++ [(f.replaced octets).opened] := by
    rw [hopened]
    rfl
  refine ⟨.outside (Nat.ne_of_lt h.file_lt) hearlier ?_ ?_, ?_, ?_, ?_⟩
  · rwa [hopened]
  · rwa [hopened]
  · rw [hlength]
    exact Nat.lt_succ_self _
  · rw [hlength]
    exact Nat.lt_succ_of_lt h.file_lt
  · intro file hfile
    exact Option.some_inj.1 (hfile.symm.trans (Disk.find?_create _ _ _))

/-- Where the path leads does not change what the open file holds. -/
theorem Sound.relink (h : f.Sound) {paths : Table String Nat}
    (hleads : ∀ file, paths.get? f.tail.path = some file → file = f.current) :
    ({ f with disk := { f.disk with paths } } : Following).Sound := by
  refine ⟨?_, h.current_lt, h.file_lt, hleads⟩
  cases h.standing with
  | inside hfile hreads hyielded => exact .inside hfile hreads hyielded
  | outside hfile hearlier hreads hyielded => exact .outside hfile hearlier hreads hyielded
  | beyond hshort hbuffer hearlier hyielded => exact .beyond hshort hbuffer hearlier hyielded

/-- **Every step keeps where the reader stands and what it gave.** -/
theorem Sound.step (h : f.Sound) (hstep : Step f g) : g.Sound := by
  cases hstep with
  | poll => exact h.poll
  | append octets hshort => exact h.append hshort
  | truncate size hnoticed hread hsize => exact h.truncate hnoticed hread hsize
  | replace octets hnoticed => exact h.replace octets hnoticed
  | remove =>
    refine h.relink fun file hfile => ?_
    exact absurd (hfile.symm.trans (Disk.find?_remove _ _)) nofun
  | restore =>
    refine h.relink fun file hfile => ?_
    exact Option.some_inj.1 (hfile.symm.trans (Disk.find?_link _ _ _))

theorem path_step (h : f.Sound) (hstep : Step f g) : g.tail.path = f.tail.path := by
  cases hstep with
  | poll => exact h.path_poll
  | append | truncate | replace | remove | restore => rfl

/-! ## What is given -/

/-- **Only lines that have an end are given**, those of each generation in order. -/
theorem Sound.yielded_isPrefix (h : f.Sound) : f.yielded <+: f.expected := by
  rw [expected, linesOf_concat]
  cases h.standing with
  | inside hfile hreads hyielded =>
    rw [hyielded]
    exact (List.prefix_append_right_inj _).2 (finished_isPrefix _ (List.take_prefix _ _))
  | outside hfile hearlier hreads hyielded =>
    rw [hyielded, hearlier, linesOf_concat, List.append_assoc]
    refine (List.prefix_append_right_inj _).2 ?_
    exact (finished_isPrefix _ (List.take_prefix _ _)).trans (List.prefix_append _ _)
  | beyond _ _ _ hyielded =>
    rw [hyielded]
    exact List.prefix_append _ _

/-- **With nothing left all lines that have an end are given.** -/
theorem Sound.yielded_eq (h : f.Sound) (hidle : f.Idle) (hback : f.Present ∨ f.Noticed) :
    f.yielded = f.expected := by
  rcases h.poll_cases with ⟨hreads, hlt⟩ | ⟨hpoll, _, hnoticed, _⟩ | ⟨_, hnil, hnoticed⟩
  · have hposition : (f.tail.look f.disk).1.position = f.tail.position :=
      congrArg (fun f => f.tail.position) hidle
    obtain ⟨_, _, _, hmore, _⟩ := hreads.look hlt
    exact absurd hposition (Nat.ne_of_gt hmore)
  · have hreopened : f.reopened.Noticed := ⟨rfl, fun hshort => Nat.not_lt_zero _ hshort.2⟩
    exact absurd (hpoll.symm.trans hidle ▸ hreopened) hnoticed
  · have hin : f.Noticed := hback.elim hnoticed id
    obtain ⟨_, hyielded⟩ := h.standing.reads_of_noticed hin
    have hseen : f.tail.seen f.content = f.content := by
      have happend := seen_append_left f.opened f.tail
      rwa [hnil, List.append_nil, opened_eq hin.1] at happend
    rw [hyielded, hseen, expected, linesOf_concat]

/-! ## Looking until nothing is left -/

/-- What the reader has yet to do: to read on, and to open the file again. -/
def pending (f : Following) : Nat :=
  f.opened.length - f.tail.position + if f.Noticed then 0 else f.content.length + 1

theorem Sound.noticed_poll (h : f.Sound) (hnoticed : f.Noticed) : f.poll.Noticed := by
  rcases h.poll_cases with ⟨hreads, hlt⟩ | ⟨_, _, hmissed, _⟩ | ⟨hpoll, _⟩
  · obtain ⟨_, hfile, hreads', _, _⟩ := hreads.look hlt
    have hcontent : f.opened = f.poll.content := opened_eq hnoticed.1
    exact noticed_of_reads (hfile.trans hnoticed.1) (hcontent ▸ hreads')
  · exact absurd hnoticed hmissed
  · exact hpoll.symm ▸ hnoticed

theorem Sound.back_poll (h : f.Sound) (hback : f.Present ∨ f.Noticed) :
    f.poll.Present ∨ f.poll.Noticed := by
  refine hback.imp (fun hpresent => ?_) h.noticed_poll
  show f.disk.find? f.poll.tail.path = some f.current
  rw [h.path_poll]
  exact hpresent

/-- A look that changes something leaves less to do. -/
theorem Sound.pending_poll (h : f.Sound) : f.poll = f ∨ f.poll.pending < f.pending := by
  rcases h.poll_cases with ⟨hreads, hlt⟩ | ⟨hpoll, _, hmissed, _⟩ | ⟨hpoll, _⟩
  · right
    obtain ⟨_, hfile, _, hmore, _⟩ := hreads.look hlt
    have hopened : f.poll.opened = f.opened := congrArg (fun n => (f.disk.content n).octets) hfile
    have hmore' : f.tail.position < f.poll.tail.position := hmore
    have hcontent : f.poll.content = f.content := rfl
    have hnoticed := h.noticed_poll
    unfold pending
    rw [hopened, hcontent]
    split <;> split <;> first | omega | (rename_i hn hm; exact absurd (hnoticed hm) hn)
  · right
    have hreopened : f.reopened.Noticed := ⟨rfl, fun hshort => Nat.not_lt_zero _ hshort.2⟩
    have hopened : f.reopened.opened.length - f.reopened.tail.position = f.content.length := rfl
    rw [hpoll, pending, pending, if_pos hreopened, if_neg hmissed, hopened]
    omega
  · exact .inl hpoll

theorem Sound.polls (h : f.Sound) (n : Nat) :
    (f.polls n).Sound ∧ (f.polls n).expected = f.expected ∧
      (f.Present ∨ f.Noticed → (f.polls n).Present ∨ (f.polls n).Noticed) := by
  induction n generalizing f with
  | zero => exact ⟨h, rfl, id⟩
  | succ n ih =>
    obtain ⟨hsound, hexpected, hback⟩ := ih h.poll
    exact ⟨hsound, hexpected.trans h.expected_poll, fun hb => hback (h.back_poll hb)⟩

/-- Looking comes to where nothing is left. -/
theorem Sound.exists_idle (h : f.Sound) : ∃ n, (f.polls n).Idle := by
  induction hpending : f.pending using Nat.strongRecOn generalizing f with
  | _ p ih =>
    subst hpending
    rcases h.pending_poll with hidle | hlt
    · exact ⟨0, hidle⟩
    · obtain ⟨n, hn⟩ := ih _ hlt h.poll rfl
      exact ⟨n + 1, hn⟩

/-- Asking for the next line is looking once or more. -/
theorem exists_polls_eq_lookTimes (f : Following) (k : Nat) :
    ∃ n, f.polls n = { f with
      tail := (f.tail.lookTimes f.disk k).1
      yielded := f.yielded ++ (f.tail.lookTimes f.disk k).2.toList } := by
  induction k generalizing f with
  | zero =>
    refine ⟨0, ?_⟩
    rw [lookTimes, Option.toList_none, List.append_nil]
    rfl
  | succ k ih =>
    unfold lookTimes
    cases hlook : f.tail.look f.disk with
    | mk t line =>
      have hpoll : f.poll = { f with tail := t, yielded := f.yielded ++ line.toList } := by
        rw [Following.poll, hlook]
      cases line with
      | some line => exact ⟨1, hpoll⟩
      | none =>
        obtain ⟨n, hn⟩ := ih f.poll
        refine ⟨n + 1, hn.trans ?_⟩
        rw [hpoll, Option.toList_none, List.append_nil]

/-! ## Writing at the path -/

/-- Appending at the path is a step. -/
theorem step_append (hpresent : f.Present) {octets : List UInt8}
    (hshort : f.CutShort → f.content.length + octets.length < f.tail.position) :
    Step f { f with disk := f.disk.append f.tail.path octets } := by
  rw [Disk.append, Disk.update_eq_write hpresent]
  exact .append octets hshort

/-- A log that was read to its end can be overwritten with a shorter one. -/
theorem reaches_overwrite (h : f.Sound) (octets : List UInt8) (hpresent : f.Present)
    (hnoticed : f.Noticed) (hread : f.tail.position = f.content.length)
    (hlength : octets.length < f.content.length) :
    Relation.ReflTransGen Step f
      { f.ended with disk := f.disk.overwrite f.tail.path octets } := by
  have hempty : (f.ended.written (f.content.take 0)).content = [] :=
    content_written h.current_lt []
  have hwrite : (f.disk.write f.current (f.content.take 0)).write f.current octets =
      f.disk.overwrite f.tail.path octets := by
    rw [Disk.overwrite, Disk.update_eq_write hpresent, Disk.write, Disk.write, List.set_set]
    rfl
  have happend : Step (f.ended.written (f.content.take 0))
      ((f.ended.written (f.content.take 0)).written octets) := by
    have hstep := Step.append (f := f.ended.written (f.content.take 0)) octets fun _ => by
      rw [hempty, List.length_nil, Nat.zero_add]
      exact hread ▸ hlength
    rwa [hempty, List.nil_append] at hstep
  rw [← hwrite]
  exact .tail (.single (.truncate 0 hnoticed hread (Nat.zero_lt_of_lt hlength))) happend

/-! ## Every run -/

theorem sound_of_reaches {d : Disk} {path : String} {octets : List UInt8}
    (h : Relation.ReflTransGen Step (start d path octets) f) : f.Sound ∧ f.tail.path = path := by
  induction h with
  | refl => exact ⟨sound_start d path octets, rfl⟩
  | tail _ hstep ih => exact ⟨ih.1.step hstep, (path_step ih.1 hstep).trans ih.2⟩

/-- **Each line of a log is given once.** However the log grows, is cut short, replaced and taken away
while it is read, the lines given are the first of those that have an end, generation by generation and
numbered from one in each. With the log in its place, or the reader in the generation that is being
written, looking comes to where nothing is left, and there they are all of them. -/
theorem yielded_of_reaches {d : Disk} {path : String} {octets : List UInt8}
    (h : Relation.ReflTransGen Step (start d path octets) f) :
    f.yielded <+: (f.earlier ++ [f.content]).flatMap (finished path) ∧
      (f.Present ∨ f.Noticed →
        (∃ n, (f.polls n).Idle) ∧
        ∀ n, (f.polls n).Idle →
          (f.polls n).yielded = (f.earlier ++ [f.content]).flatMap (finished path)) := by
  obtain ⟨hsound, rfl⟩ := sound_of_reaches h
  refine ⟨hsound.yielded_isPrefix, fun hback => ⟨hsound.exists_idle, fun n hidle => ?_⟩⟩
  obtain ⟨hsound', hexpected, hback'⟩ := hsound.polls n
  exact (hsound'.yielded_eq hidle (hback' hback)).trans hexpected

/-- The log is overwritten with a shorter one while the reader keeps the octets of a line that has no end
yet. -/
theorem yielded_of_overwritten :
    ∃ f, Relation.ReflTransGen Step (start .empty "mail.log" [97, 10]) f ∧
      ∃ n, (f.polls n).Idle ∧
        (f.polls n).yielded = [⟨"a", some ⟨"mail.log", 1⟩⟩, ⟨"c", some ⟨"mail.log", 1⟩⟩] := by
  have hgrown : Relation.ReflTransGen Step (start .empty "mail.log" [97, 10])
      ((start .empty "mail.log" [97, 10]).poll.written [97, 10, 98]).poll :=
    .tail (.tail (.single (.poll _)) (.append [98] fun h => absurd h (by decide +kernel))) (.poll _)
  have hover := hgrown.trans (reaches_overwrite (sound_of_reaches hgrown).1 [99, 10]
    (by decide +kernel) (by decide +kernel) (by decide +kernel) (by decide +kernel))
  obtain ⟨-, hlines⟩ := yielded_of_reaches hover
  obtain ⟨⟨n, hidle⟩, hyielded⟩ := hlines (by decide +kernel)
  exact ⟨_, hover, n, hidle, (hyielded n hidle).trans (by decide +kernel)⟩

end Following

end MailTrace
