import MailTrace.Proofs.Store.Archive
import MailTrace.Proofs.Tracker.References
import MailTrace.Store.Bounce

/-!
# Lines of stored deliveries are in the archive

A delivery that is looked up refers to its lines by second and checksum. Each such reference leads to
a line in the archive (`lines_resolve`).

1. The archive has the line of every record (`exists_line?_archiveOf`).
2. Whatever is written to the ledger, its lines are lines of what was written (`Ledger.Cites`).
3. What the tracker finds out refers to lines of records only.
-/

namespace MailTrace

open MailTrace.Time

/-! ## The archive of records -/

namespace Stores

theorem archiveOf_eq (records : List Record) :
    archiveOf records = records.foldl Archive.add .empty := by
  have heffect : ∀ a : Archive, (Writer.effect a (records.map Archive.insertion)).1 =
      records.foldl Archive.add a := by
    induction records with
    | nil => exact fun _ => rfl
    | cons r records ih => exact fun a => ih (a.add r)
  rw [archiveOf, Writer.drain_eq_effect]
  exact heffect .empty

theorem lines_foldl_add (a : Archive) (records : List Record) :
    (records.foldl Archive.add a).lines.rows.map (·.2) =
      a.lines.rows.map (·.2) ++ records.map Archive.lineOf := by
  induction records generalizing a with
  | nil => exact (List.append_nil _).symm
  | cons r records ih =>
    rw [List.foldl_cons, ih, Archive.rows_add, List.map_append, List.append_assoc]
    rfl

/-- The line of a record is found, if not as its own then as that of another record of the same
second with the same checksum. -/
theorem exists_line?_archiveOf {records : List Record} {r : Record} (hr : r ∈ records) :
    ∃ s ∈ records, s.time.second = r.time.second ∧ s.sum = r.sum ∧
      (archiveOf records).line? r.time.second r.sum = some s.line := by
  have hrows : (archiveOf records).lines.rows.map (·.2) = records.map Archive.lineOf := by
    rw [archiveOf_eq, lines_foldl_add]
    rfl
  have hline : Archive.lineOf r ∈ (archiveOf records).lines.rows.map (·.2) :=
    hrows ▸ List.mem_map_of_mem hr
  obtain ⟨row, hrow, hline⟩ := List.mem_map.1 hline
  unfold Archive.line?
  cases hfind : (archiveOf records).lines.rows.find? fun row =>
      row.2.second = r.time.second && row.2.sum = r.sum with
  | none =>
    have := List.find?_eq_none.1 hfind row hrow
    rw [hline] at this
    simp [Archive.lineOf] at this
  | some found =>
    have hfound : found.2 ∈ records.map Archive.lineOf :=
      hrows ▸ List.mem_map_of_mem (List.mem_of_find?_eq_some hfind)
    obtain ⟨s, hs, he⟩ := List.mem_map.1 hfound
    have hp := List.find?_some hfind
    rw [Bool.and_eq_true, decide_eq_true_eq, decide_eq_true_eq, ← he] at hp
    exact ⟨s, hs, hp.1, hp.2, by rw [Option.map_some, ← he]; rfl⟩

end Stores

/-! ## Lines in the ledger -/

namespace Ledger

/-- The ledger refers to known lines only, given by their seconds and checksums. -/
def Cites (known : Int → Int → Prop) (l : Ledger) : Prop :=
  ∀ row ∈ l.lines, known row.second row.sum

/-- The lines that a write brings. -/
def Write.lines : Write → List LineRef
  | .store d | .replace d => d.lines
  | .bounce b => [b.line]

theorem lines_write (f : Tracker.Finding) : f.write.lines = f.lines := by cases f <;> rfl

/-- A write brings known lines only. -/
def Write.Cites (known : Int → Int → Prop) (w : Write) : Prop :=
  ∀ l ∈ w.lines, known l.time.second l.sum

theorem mem_lineRows {id position : Nat} {refs : List LineRef} {row : LineRow}
    (h : row ∈ lineRows id position refs) :
    ∃ l ∈ refs, row.second = l.time.second ∧ row.sum = l.sum := by
  induction refs generalizing position with
  | nil => exact absurd h List.not_mem_nil
  | cons l refs ih =>
    rcases List.mem_cons.1 h with rfl | h
    · exact ⟨l, List.mem_cons_self, rfl, rfl⟩
    · obtain ⟨l', hl', he⟩ := ih h
      exact ⟨l', List.mem_cons_of_mem _ hl', he⟩

section Cites

variable {known : Int → Int → Prop} {l : Ledger}

theorem cites_empty : empty.Cites known := fun _ h => absurd h List.not_mem_nil

theorem Cites.insert (h : l.Cites known) {d : Delivery}
    (hd : ∀ line ∈ d.lines, known line.time.second line.sum) : (l.insert d).Cites known := by
  intro row hrow
  rcases List.mem_append.1 hrow with hrow | hrow
  · exact h row hrow
  · obtain ⟨line, hline, hsecond, hsum⟩ := mem_lineRows hrow
    exact hsecond ▸ hsum ▸ hd line hline

theorem Cites.withdraw (h : l.Cites known) (d : Delivery) : (l.withdraw d).Cites known :=
  fun row hrow => h row (List.mem_filter.1 hrow).1

theorem Cites.appendLine (h : l.Cites known) (id : Nat) {line : LineRef}
    (hline : known line.time.second line.sum) : (l.appendLine id line).Cites known := by
  intro row hrow
  rcases List.mem_append.1 hrow with hrow | hrow
  · exact h row hrow
  · rw [List.mem_singleton.1 hrow]
    exact hline

theorem Cites.bounce (h : l.Cites known) {b : BounceReport}
    (hb : known b.line.time.second b.line.sum) : (l.bounce b).Cites known := by
  unfold Ledger.bounce
  generalize l.matchedBy b = ids
  induction ids generalizing l with
  | nil => exact h
  | cons id ids ih =>
    exact ih (Cites.appendLine (l := l.markBounced b id) h id hb)

theorem Cites.apply (h : l.Cites known) {w : Write} (hw : w.Cites known) :
    (l.apply w).Cites known := by
  cases w with
  | store d => exact h.insert hw
  | replace d => exact (h.withdraw d).insert hw
  | bounce b => exact h.bounce (hw b.line (List.mem_singleton_self _))

/-- A write that is done makes of the ledger what it is to make of it. -/
theorem action_done {w : Write} {l' : Ledger} (h : w.action l = .done l') : l' = l.apply w := by
  cases w with
  | store d =>
    rw [Write.action] at h
    split at h
    · cases h
    · exact (Outcome.done.inj h).symm
  | replace d =>
    rw [Write.action] at h
    split at h
    · cases h
    · exact (Outcome.done.inj h).symm
  | bounce b => exact (Outcome.done.inj h).symm

theorem Cites.effect (h : l.Cites known) {ws : List Write} (hws : ∀ w ∈ ws, w.Cites known) :
    (Writer.effect l (ws.map (·.action))).1.Cites known := by
  induction ws generalizing l with
  | nil => exact h
  | cons w ws ih =>
    rw [List.map_cons, Writer.effect]
    cases he : w.action l with
    | done l' =>
      rw [action_done he]
      exact ih (h.apply (hws w List.mem_cons_self)) fun w hw => hws w (List.mem_cons_of_mem _ hw)
    | failed l' cause => exact h

theorem Cites.known_of_mem_find (h : l.Cites known) {sender recipient : String} {i : Interval}
    {d : KeptDelivery} (hd : d ∈ l.find sender recipient i) {ref : Int × Int}
    (href : ref ∈ d.lines) : known ref.1 ref.2 := by
  obtain ⟨row, -, rfl⟩ := List.mem_map.1 hd
  obtain ⟨line, hline, rfl⟩ := List.mem_map.1 href
  exact h line (List.mem_filter.1 (List.mem_mergeSort.1 hline)).1

end Cites

end Ledger

/-! ## Bounces that are tried again -/

namespace Desk

/-- The ledger and the bounces that wait refer to known lines only. -/
def Cites (known : Int → Int → Prop) (d : Desk) : Prop :=
  d.ledger.Cites known ∧ ∀ a ∈ d.waiting, known a.report.line.time.second a.report.line.sum

variable {known : Int → Int → Prop} {d : Desk}

/-- The attempt that is to follow is one at the same bounce. -/
theorem report_again? {a b : BounceAttempt} (h : a.again? = some b) : b.report = a.report := by
  unfold BounceAttempt.again? at h
  split at h
  · cases h
  · rw [← Option.some.inj h]

theorem Cites.attempt (h : d.Cites known) {a : BounceAttempt}
    (ha : known a.report.line.time.second a.report.line.sum) : (d.attempt a).Cites known := by
  have hstep : (d.ledger.attempt a).1.Cites known ∧
      ∀ b ∈ (d.ledger.attempt a).2, b.report = a.report := by
    unfold Ledger.attempt
    split
    · exact ⟨h.1, fun b hb => report_again? hb⟩
    · exact ⟨h.1.bounce ha, fun b hb => absurd hb (Option.not_mem_none _)⟩
  refine ⟨hstep.1, fun b hb => ?_⟩
  rcases List.mem_append.1 hb with hb | hb
  · exact h.2 b hb
  · rw [hstep.2 b (Option.mem_toList.1 hb)]
    exact ha

theorem Cites.foldl_attempt (h : d.Cites known) {waiting : List BounceAttempt}
    (hw : ∀ a ∈ waiting, known a.report.line.time.second a.report.line.sum) :
    (waiting.foldl Desk.attempt d).Cites known := by
  induction waiting generalizing d with
  | nil => exact h
  | cons a waiting ih =>
    exact ih (h.attempt (hw a List.mem_cons_self)) fun b hb => hw b (List.mem_cons_of_mem _ hb)

theorem Cites.write (h : d.Cites known) (retries : Nat) {w : Ledger.Write} (hw : w.Cites known) :
    (d.write retries w).Cites known := by
  cases w with
  | store delivery => exact ⟨h.1.apply hw, h.2⟩
  | replace delivery => exact ⟨h.1.apply hw, h.2⟩
  | bounce b => exact h.attempt (hw b.line (List.mem_singleton_self _))

theorem Cites.foldl_write (h : d.Cites known) (retries : Nat) {ws : List Ledger.Write}
    (hws : ∀ w ∈ ws, w.Cites known) : (ws.foldl (Desk.write retries) d).Cites known := by
  induction ws generalizing d with
  | nil => exact h
  | cons w ws ih =>
    exact ih (h.write retries (hws w List.mem_cons_self)) fun v hv =>
      hws v (List.mem_cons_of_mem _ hv)

theorem Cites.settle (h : d.Cites known) : d.settle.Cites known := by
  unfold Desk.settle
  generalize (d.waiting.map (·.retries + 1)).max?.getD 0 = n
  induction n generalizing d with
  | zero => exact h
  | succ n ih =>
    have hcleared : Cites known { d with waiting := [] } :=
      ⟨h.1, fun _ ha => absurd ha List.not_mem_nil⟩
    exact ih (hcleared.foldl_attempt h.2)

end Desk

/-! ## Stores of records -/

namespace Stores

/-- Every line of a delivery in a ledger is found in an archive, with its checksum, and is the line
of one of the records of that second. -/
def Resolves (records : List Record) (archive : Archive) (ledger : Ledger) : Prop :=
  ∀ sender recipient i, ∀ d ∈ ledger.find sender recipient i, ∀ ref ∈ d.lines,
    ∃ text, archive.line? ref.1 ref.2 = some text ∧ Checksum.ofText text = ref.2 ∧
      ∃ r ∈ records, r.time.second = ref.1 ∧ r.line = text

/-- A record has a line in a second with a checksum. -/
def HasLine (records : List Record) (second sum : Int) : Prop :=
  ∃ r ∈ records, r.time.second = second ∧ r.sum = sum

theorem resolves_archiveOf {records : List Record} {ledger : Ledger}
    (h : ledger.Cites (HasLine records)) : Resolves records (archiveOf records) ledger := by
  intro sender recipient i d hd ref href
  obtain ⟨r, hr, hsecond, hsum⟩ := h.known_of_mem_find hd href
  obtain ⟨s, hs, hsecond', hsum', hline⟩ := exists_line?_archiveOf hr
  rw [hsecond, hsum] at hline
  exact ⟨s.line, hline, hsum'.trans hsum, s, hs, hsecond'.trans hsecond, rfl⟩

theorem cites_of_mem_findings {settings : Tracker.Settings} {records : List Record} :
    ∀ w ∈ (Tracker.findings settings records).map (·.write), w.Cites (HasLine records) := by
  intro w hw
  obtain ⟨f, hf, rfl⟩ := List.mem_map.1 hw
  have hrs : ∀ r ∈ records, HasLine records r.ref.time.second r.ref.sum := fun r hr =>
    ⟨r, hr, rfl, rfl⟩
  intro l hl
  rw [Ledger.lines_write] at hl
  have hknown : f.Known fun l => HasLine records l.time.second l.sum :=
    Tracker.known_findings hrs f hf
  exact hknown l hl

/-- **References resolve.** Every line of every delivery that records lead to is found in the archive
of these records, whether bounces are tried once or again after all other writes. -/
theorem lines_resolve (settings : Tracker.Settings) (records : List Record) :
    Resolves records (ofRecords settings records).1.archive (ofRecords settings records).1.ledger ∧
      ∀ retries, Resolves records (ofRecords settings records).1.archive
        (((Tracker.findings settings records).map (·.write)).foldl (Desk.write retries)
          .empty).settle.ledger := by
  constructor
  · refine resolves_archiveOf ?_
    have hledger : (ofRecords settings records).1.ledger =
        (Writer.effect Ledger.empty
          (((Tracker.findings settings records).map (·.write)).map (·.action))).1 := by
      rw [List.map_map]
      show ((Writer.start Ledger.empty).drain _).1.committed = _
      rw [Writer.drain_eq_effect]
      rfl
    rw [hledger]
    exact Ledger.cites_empty.effect cites_of_mem_findings
  · intro retries
    refine resolves_archiveOf (Desk.Cites.settle ?_).1
    have hempty : Desk.empty.Cites (HasLine records) :=
      ⟨Ledger.cites_empty, fun _ ha => absurd ha List.not_mem_nil⟩
    exact hempty.foldl_write retries cites_of_mem_findings

end Stores

end MailTrace
