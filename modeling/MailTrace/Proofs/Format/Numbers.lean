import MailTrace.Proofs.Format.Texts

/-!
# The numbers of lines

A reader numbers the lines of its stream as they come, whether they give a record or not. Only an
envelope that cannot be read is not numbered, and every line after it has a lower number than its place.

1. One line is numbered unless it is such an envelope (`count_transform`), and its record has that number
   (`line_of_transform`).
2. So in a stream a record has the number of the lines numbered up to its own (`line_of_transformAll`).
3. That is the place of its line exactly if all lines before it were numbered (`numbered_by_place_iff`).
-/

namespace MailTrace

open MailTrace.Text MailTrace.Time

/-- A line that is not numbered: an envelope that cannot be read. -/
def Format.PassesOver (f : Format) (line : String) : Prop :=
  f = .enveloped ∧ Envelope.read? line.toList = none

instance (f : Format) : DecidablePred f.PassesOver := fun _ => inferInstanceAs (Decidable (_ ∧ _))

namespace Transformer

variable {t : Transformer} {line : String} {r : Record}

/-! ## One line -/

theorem transform_of_passesOver (h : t.format.PassesOver line) :
    t.transform line.toList = (.error .invalidEnvelope, t) := by
  obtain ⟨hformat, hread⟩ := h
  unfold transform
  simp only [hformat, hread]

/-- **A line is numbered unless it is an envelope that cannot be read.** -/
theorem count_transform (t : Transformer) (line : String) :
    (t.transform line.toList).2.count = t.count + if t.format.PassesOver line then 0 else 1 := by
  by_cases hpasses : t.format.PassesOver line
  · rw [transform_of_passesOver hpasses, if_pos hpasses, Nat.add_zero]
  · rw [if_neg hpasses]
    obtain ⟨format, count, years⟩ := t
    cases format with
    | classic | dated | stamped => rfl
    | enveloped =>
      unfold transform
      dsimp only
      split
      · rename_i hread
        exact absurd ⟨rfl, hread⟩ hpasses
      · rfl

/-- **A record has the number that its line was given.** -/
theorem line_of_transform (h : (t.transform line.toList).1 = .ok r) :
    ¬ t.format.PassesOver line ∧ r.location.line = t.count + 1 := by
  obtain ⟨time, body, kept, file, -, hrecord⟩ := exists_record_of_transform h
  refine ⟨fun hpasses => ?_, congrArg (·.line) (record_eq_ok hrecord).2⟩
  rw [transform_of_passesOver hpasses] at h
  cases h

/-! ## A stream of lines -/

/-- How many of the first lines of a stream are numbered. -/
def numbered (f : Format) (lines : List String) : Nat := lines.countP fun line => ¬ f.PassesOver line

theorem numbered_cons (f : Format) (line : String) (lines : List String) :
    numbered f (line :: lines) = (if f.PassesOver line then 0 else 1) + numbered f lines := by
  unfold numbered
  rw [List.countP_cons, Nat.add_comm]
  by_cases hpasses : f.PassesOver line <;> simp [hpasses]

/-- A record has the number of the lines that were numbered up to its own. -/
theorem line_of_transformAll {lines : List String} {i : Nat}
    (h : (t.transformAll lines)[i]? = some (.ok r)) :
    r.location.line = t.count + numbered t.format (lines.take (i + 1)) := by
  induction lines generalizing t i with
  | nil => cases h
  | cons line lines ih =>
    rw [List.take_succ_cons, numbered_cons]
    cases i with
    | zero =>
      obtain ⟨hpasses, hline⟩ := line_of_transform (Option.some.inj h)
      rw [hline, if_neg hpasses]
      rfl
    | succ i =>
      have hlater : ((t.transform line.toList).2.transformAll lines)[i]? = some (.ok r) := h
      rw [ih hlater, count_transform, format_transform, Nat.add_assoc]

theorem lt_length_of_transformAll {lines : List String} {i : Nat} {result : Except FormatFault Record}
    (h : (t.transformAll lines)[i]? = some result) : i < lines.length := by
  induction lines generalizing t i with
  | nil => cases h
  | cons line lines ih =>
    cases i with
    | zero => exact Nat.succ_pos _
    | succ i => exact Nat.succ_lt_succ (ih (t := (t.transform line.toList).2) h)

/-- The line of a record is numbered. -/
theorem not_passesOver_of_transformAll {lines : List String} {i : Nat}
    (h : (t.transformAll lines)[i]? = some (.ok r)) : ∀ line ∈ lines[i]?, ¬ t.format.PassesOver line := by
  induction lines generalizing t i with
  | nil => cases h
  | cons line lines ih =>
    cases i with
    | zero =>
      intro line' hline'
      cases hline'
      exact (line_of_transform (Option.some.inj h)).1
    | succ i =>
      have hlater := ih (t := (t.transform line.toList).2) h
      rwa [format_transform] at hlater

end Transformer

open Transformer

/-- **Where the number of a line is its place.** A record of a stream has the number of the lines that
were numbered up to its own. In all formats but one this is the place of its line in the stream, whatever
lines were refused before it. In the format of envelopes it is the place exactly if each line before it
was an envelope that could be read. -/
theorem numbered_by_place_iff (f : Format) (year : Option Int) (now : Instant) (lines : List String)
    {i : Nat} {r : Record} (h : ((start f year now).transformAll lines)[i]? = some (.ok r)) :
    r.location.line = numbered f (lines.take (i + 1)) ∧
      (f ≠ .enveloped → r.location.line = i + 1) ∧
      (r.location.line = i + 1 ↔ ∀ line ∈ lines.take i, ¬ f.PassesOver line) := by
  have hline : r.location.line = numbered f (lines.take (i + 1)) :=
    (line_of_transformAll h).trans (Nat.zero_add _)
  have hlength : (lines.take (i + 1)).length = i + 1 :=
    List.length_take_of_le (lt_length_of_transformAll h)
  have hplace : r.location.line = i + 1 ↔ ∀ line ∈ lines.take i, ¬ f.PassesOver line := by
    rw [hline, numbered]
    conv_lhs => rhs; rw [← hlength]
    rw [List.countP_eq_length, List.take_add_one]
    simp only [decide_eq_true_eq, List.mem_append, Option.mem_toList]
    exact ⟨fun hall line hmem => hall line (.inl hmem), fun hall line hmem =>
      hmem.elim (hall line) (not_passesOver_of_transformAll h line)⟩
  exact ⟨hline, fun hformat => hplace.2 fun _ _ hpasses => hformat hpasses.1, hplace⟩

/-- A line that is no envelope, and an envelope after it. -/
def unreadableFirst : List String :=
  ["no envelope", "\x7b\"@timestamp\":\"2021-03-06T06:09:00.798Z\"," ++
    "\"message\":\"Mar  6 07:08:59 mail postfix/qmgr[1]: A1: removed\"\x7d"]

theorem exists_record_unreadableFirst :
    ∃ r, ((start .enveloped none 0).transformAll unreadableFirst)[1]? = some (.ok r) ∧
      r.location.line = 1 := by
  have hnumber : ((((start .enveloped none 0).transformAll unreadableFirst)[1]?.bind
      (·.toOption)).map (·.location.line)) = some 1 := by decide +kernel
  obtain ⟨r, hr, hline⟩ := Option.map_eq_some_iff.1 hnumber
  obtain ⟨result, hresult, hok⟩ := Option.bind_eq_some_iff.1 hr
  cases result with
  | error fault => cases hok
  | ok r' =>
    cases hok
    exact ⟨r, hresult, hline⟩

/-- The envelope is the second line and is numbered as the first. -/
theorem unreadableFirst_not_by_place :
    ¬ ∀ (i : Nat) (r : Record),
      ((start .enveloped none 0).transformAll unreadableFirst)[i]? = some (.ok r) →
        r.location.line = i + 1 := by
  intro hplaces
  obtain ⟨r, hr, hline⟩ := exists_record_unreadableFirst
  have hplace := hplaces 1 r hr
  rw [hline] at hplace
  exact absurd hplace (by decide)

/-- One of the two lines up to the envelope is numbered. -/
theorem unreadableFirst_numbered :
    ∃ r, ((start .enveloped none 0).transformAll unreadableFirst)[1]? = some (.ok r) ∧
      r.location.line = numbered .enveloped (unreadableFirst.take 2) ∧
      ¬ ∀ line ∈ unreadableFirst.take 1, ¬ Format.PassesOver .enveloped line := by
  obtain ⟨r, hr, hline⟩ := exists_record_unreadableFirst
  obtain ⟨hnumber, -, hplace⟩ := numbered_by_place_iff .enveloped none 0 unreadableFirst hr
  refine ⟨r, hr, hnumber, mt hplace.2 ?_⟩
  rw [hline]
  decide

end MailTrace
