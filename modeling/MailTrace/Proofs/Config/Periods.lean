import MailTrace.Proofs.Config.Accepted
import MailTrace.Proofs.Time.Lengths

/-!
# Periods of the writers

Every writer commits once in a period, and the writer of raw lines also cleans once in one. A period of
zero breaks the writer off at its start. The checks of a configuration do not look at the periods, so
one can be accepted with which no run gets through its start.

1. What the reading finds at a key of a group is what the document writes there (`lookup_members?`).
2. A period of an accepted configuration is zero exactly if the document writes it as zero, in whatever
   words or number (`periods_eq_zero_iff`). A period that is left out is never zero.
3. A run breaks off in a writer exactly if the log can be opened and a period is zero
   (`abortsWriter_iff`). The task that reads may break off too, but under a name of its own.
-/

namespace MailTrace.Config

open MailTrace.Time MailTrace.Yaml

variable {doc : Document} {names : List String} {group key name : String} {n : Node}
variable {ms : List (String × Node)} {c : Config} {s : Surroundings} {clock : Instant}

/-! ## What a document writes -/

/-- The value of a key in a mapping. -/
def valueAt? (doc : Document) (key : String) : Node → Option Node
  | .mapping pairs =>
    (pairs.find? fun pair => (doc.part? pair.1).bind text? = some key).bind fun pair => doc.part? pair.2
  | _ => none

/-- The value of a key in a group of settings. -/
def written? (doc : Document) (group key : String) : Option Node := do
  valueAt? doc key (← valueAt? doc group (← doc.part? doc.root))

theorem valueAt?_cons (doc : Document) (key : String) (pair : Node × Node) (pairs : List (Node × Node)) :
    valueAt? doc key (.mapping (pair :: pairs)) =
      if (doc.part? pair.1).bind text? = some key then doc.part? pair.2
      else valueAt? doc key (.mapping pairs) := by
  unfold valueAt?
  dsimp only
  rw [List.find?_cons]
  by_cases hkey : (doc.part? pair.1).bind text? = some key <;> simp [hkey]

/-- The members of a mapping are its pairs in order. -/
theorem lookup_mapM_pairs {pairs : List (Node × Node)}
    (h : (pairs.mapM fun (k, v) => do return (← (doc.part? k).bind text?, ← doc.part? v)) = some ms)
    (key : String) : ms.lookup key = valueAt? doc key (.mapping pairs) := by
  induction pairs generalizing ms with
  | nil =>
    cases h
    rfl
  | cons pair pairs ih =>
    simp only [List.mapM_cons, Option.bind_eq_bind, Option.bind_eq_some_iff, Option.pure_def,
      Option.some.injEq] at h
    obtain ⟨member, ⟨name, hname, value, hvalue, rfl⟩, rest, hrest, rfl⟩ := h
    rw [List.lookup_cons, valueAt?_cons, Option.bind_eq_some_iff.2 hname, hvalue, ih hrest]
    by_cases hsame : key = name
    · simp [hsame]
    · simp [beq_false_of_ne hsame, Ne.symm hsame]

theorem lookup_members? (h : members? doc names n = some ms) (key : String) :
    ms.lookup key = valueAt? doc key n := by
  unfold members? at h
  split at h
  · obtain ⟨members, hmembers, h⟩ := Option.bind_eq_some_iff.1 h
    obtain ⟨-, hsame⟩ := Option.ite_none_right_eq_some.1 h
    cases hsame
    exact lookup_mapM_pairs hmembers key
  · cases h
    rfl
  · cases h

/-! ## Times that are zero -/

theorem member_duration?_eq_zero_iff {default d : Duration} (hdefault : default ≠ 0)
    (h : member ms key duration? default = some d) :
    d = 0 ↔ ∃ node, ms.lookup key = some node ∧ (setting node).TellsZero := by
  unfold member at h
  cases hwritten : ms.lookup key with
  | none =>
    rw [hwritten] at h
    cases h
    simp [hdefault]
  | some node =>
    rw [hwritten] at h
    simp [Duration.Setting.required?_eq_zero_iff h]

/-- A time of a group is zero exactly if it is written as zero. The group may be left out, and the time
in it. -/
theorem member_group_eq_zero_iff {α : Type} {read : Node → Option α} {length : α → Duration}
    {default a : α}
    (hread : ∀ n a, read n = some a → ∃ inner, members? doc names n = some inner ∧
      member inner key duration? (length default) = some (length a))
    (hdefault : length default ≠ 0) (h : member ms group read default = some a) :
    length a = 0 ↔
      ∃ node, (ms.lookup group).bind (valueAt? doc key) = some node ∧ (setting node).TellsZero := by
  unfold member at h
  cases hgroup : ms.lookup group with
  | none =>
    rw [hgroup] at h
    cases h
    simp [hdefault]
  | some n =>
    rw [hgroup] at h
    obtain ⟨inner, hinner, hlength⟩ := hread n a h
    rw [member_duration?_eq_zero_iff hdefault hlength, lookup_members? hinner, Option.bind_some]

theorem commitInterval_of_writer? {default w : WriterSettings}
    (h : writer? doc default n = some w) :
    ∃ inner, members? doc ["commit_interval", "action_queue_capacity"] n = some inner ∧
      member inner "commit_interval" duration? default.commitInterval = some w.commitInterval := by
  simp only [writer?, Option.bind_eq_bind, Option.bind_eq_some_iff, Option.pure_def,
    Option.some.injEq] at h
  obtain ⟨inner, hinner, interval, hinterval, capacity, -, rfl⟩ := h
  exact ⟨inner, hinner, hinterval⟩

theorem frequency_of_retention? {default r : RetentionSettings}
    (h : retention? doc default n = some r) :
    ∃ inner, members? doc ["max_age", "cleaning_batch_size", "cleaning_frequency"] n = some inner ∧
      member inner "cleaning_frequency" duration? default.frequency = some r.frequency := by
  simp only [retention?, Option.bind_eq_bind, Option.bind_eq_some_iff, Option.pure_def,
    Option.some.injEq] at h
  obtain ⟨inner, hinner, age, -, size, -, frequency, hfrequency, rfl⟩ := h
  exact ⟨inner, hinner, hfrequency⟩

/-- The groups of an accepted document, as its members give them. -/
theorem groups_of_ofDocument? {default : Config} (h : ofDocument? default doc = some c) :
    ∃ root ms, doc.part? doc.root = some root ∧ members? doc keys root = some ms ∧
      member ms "rawlogs" (retention? doc default.retention) default.retention = some c.retention ∧
      member ms "db" (writer? doc default.writer) default.writer = some c.writer := by
  unfold ofDocument? at h
  obtain ⟨root, hroot, h⟩ := Option.bind_eq_some_iff.1 h
  obtain ⟨ms, hms, h⟩ := Option.bind_eq_some_iff.1 h
  -- Ten settings stand before the groups, and two groups between these.
  iterate 10 obtain ⟨_, -, h⟩ := Option.bind_eq_some_iff.1 h
  obtain ⟨retention, hretention, h⟩ := Option.bind_eq_some_iff.1 h
  iterate 2 obtain ⟨_, -, h⟩ := Option.bind_eq_some_iff.1 h
  obtain ⟨writer, hwriter, h⟩ := Option.bind_eq_some_iff.1 h
  cases h
  exact ⟨root, ms, hroot, hms, hretention, hwriter⟩

/-- A text writes zero at a key of a group. -/
def WritesZero (document group key : String) : Prop :=
  ∃ node, (do written? (← Document.read? document.toList) group key) = some node ∧
    (setting node).TellsZero

instance (document group key : String) : Decidable (WritesZero document group key) :=
  decidable_of_iff ((do written? (← Document.read? document.toList) group key).any
    fun node => decide (setting node).TellsZero) (by simp [WritesZero, Option.any_eq_true])

theorem writesZero_iff {document : String} {root : Node}
    (hdoc : Document.read? document.toList = some doc) (hroot : doc.part? doc.root = some root)
    (hms : members? doc names root = some ms) :
    WritesZero document group key ↔
      ∃ node, (ms.lookup group).bind (valueAt? doc key) = some node ∧ (setting node).TellsZero := by
  have hwritten : (do written? (← Document.read? document.toList) group key) =
      (ms.lookup group).bind (valueAt? doc key) := by
    rw [hdoc, lookup_members? hms, Option.bind_eq_bind, Option.bind_some, written?, hroot]
    rfl
  unfold WritesZero
  rw [hwritten]

/-- **A period of an accepted configuration is zero exactly if it is written as zero.** -/
theorem periods_eq_zero_iff {workingDirectory document : String}
    (h : read workingDirectory document = .ok c) :
    (c.writer.commitInterval = 0 ↔ WritesZero document "db" "commit_interval") ∧
      (c.retention.frequency = 0 ↔ WritesZero document "rawlogs" "cleaning_frequency") := by
  obtain ⟨given, hgiven, rfl, -⟩ := exists_given_of_read h
  obtain ⟨doc, hdoc, hsettings⟩ := Option.bind_eq_some_iff.1 hgiven
  obtain ⟨root, ms, hroot, hms, hretention, hwriter⟩ := groups_of_ofDocument? hsettings
  rw [writesZero_iff hdoc hroot hms, writesZero_iff hdoc hroot hms]
  have hinterval : (default workingDirectory).writer.commitInterval ≠ 0 := Nat.succ_ne_zero _
  have hfrequency : (default workingDirectory).retention.frequency ≠ 0 := Nat.succ_ne_zero _
  change (given.writer.commitInterval = 0 ↔ _) ∧ (given.retention.frequency = 0 ↔ _)
  exact ⟨member_group_eq_zero_iff (fun _ _ => commitInterval_of_writer?) hinterval hwriter,
    member_group_eq_zero_iff (fun _ _ => frequency_of_retention?) hfrequency hretention⟩

/-! ## Runs -/

/-- The format is known and the log can be opened. -/
def Opens (c : Config) (s : Surroundings) (clock : Instant) : Prop :=
  ∃ f reading, Format.find? Format.all c.logFormat = some f ∧
    Service.readSource c s (.start f c.year? clock) clock = .ok reading

/-- A run breaks off in a writer. -/
def AbortsWriter (c : Config) (s : Surroundings) (clock : Instant) : Prop :=
  ∃ name ∈ [Stores.ledgerWriter, Stores.archiveWriter],
    (Service.run c s clock).2 = .error (.task (.aborted name))

theorem brokenWriter?_ne_none_iff :
    Service.brokenWriter? c ≠ none ↔ c.writer.commitInterval = 0 ∨ c.retention.frequency = 0 := by
  unfold Service.brokenWriter?
  split_ifs <;> simp_all

theorem name_mem_of_brokenWriter? (h : Service.brokenWriter? c = some name) :
    name ∈ [Stores.ledgerWriter, Stores.archiveWriter] := by
  unfold Service.brokenWriter? at h
  split_ifs at h <;> cases h <;> simp

theorem name_of_readFeed_aborted {t : Transformer} {f : Import.Feed}
    (h : (Service.readFeed c t clock f).2 = .error (.aborted name)) : name = Service.sourceTask := by
  unfold Service.readFeed at h
  dsimp only at h
  cases hresult : (Import.read ⟨c.readerIdleTimeout, none⟩ t clock f).2 with
  | ok =>
    rw [hresult] at h
    cases h
  | error fault =>
    rw [hresult] at h
    cases fault <;> cases h
    rfl

/-- The log cannot be opened, or what may break off while it is read is the task that reads it. -/
theorem readSource_cases (c : Config) (s : Surroundings) (t : Transformer) (clock : Instant) :
    (∃ fault, Service.readSource c s t clock = .error (.source fault)) ∨
    (∃ fault, Service.readSource c s t clock = .error (.socket fault)) ∨
    (∃ reading, Service.readSource c s t clock = .ok reading ∧
      ∀ name, reading.2 = .error (.aborted name) → name = Service.sourceTask) := by
  unfold Service.readSource
  cases c.source with
  | file =>
    dsimp only
    cases s.disk.fileLines (c.logPath.getD "") with
    | error fault => exact .inl ⟨fault, rfl⟩
    | ok lines => exact .inr (.inr ⟨_, rfl, fun _ => name_of_readFeed_aborted⟩)
  | directory =>
    dsimp only
    cases s.disk.logLines (c.logPath.getD "") c.logPatterns with
    | error fault => exact .inl ⟨fault, rfl⟩
    | ok lines => exact .inr (.inr ⟨_, rfl, fun _ => name_of_readFeed_aborted⟩)
  | stdin => exact .inr (.inr ⟨_, rfl, fun _ => name_of_readFeed_aborted⟩)
  | socket =>
    dsimp only
    cases SocketAddress.read (c.socket.getD "") with
    | error fault => exact .inr (.inl ⟨fault, rfl⟩)
    | ok address => exact .inr (.inr ⟨_, rfl, fun _ heq => nomatch heq⟩)

theorem name_of_readSource_aborted {t : Transformer} {reading : List Record × Except TaskFault Unit}
    (h : Service.readSource c s t clock = .ok reading) (haborted : reading.2 = .error (.aborted name)) :
    name = Service.sourceTask := by
  rcases readSource_cases c s t clock with
    ⟨fault, hread⟩ | ⟨fault, hread⟩ | ⟨reading', hread, hname⟩
  · cases h.symm.trans hread
  · cases h.symm.trans hread
  · cases h.symm.trans hread
    exact hname name haborted

theorem ledgerOf_ne_aborted (found : List Tracker.Finding) (name : String) :
    (Stores.ledgerOf found).2 ≠ .error (.aborted name) := by
  unfold Stores.ledgerOf
  dsimp only
  cases ((Writer.start .empty).drain (found.map fun f => f.write.action)).2 <;>
    exact fun heq => nomatch heq

/-- The first of two results that fails. -/
theorem firstFailure_pair_eq_error_iff {first second : Except TaskFault Unit} {fault : TaskFault} :
    Task.firstFailure [first, second] = .error fault ↔
      first = .error fault ∨ first = .ok () ∧ second = .error fault := by
  cases first <;> cases second <;> simp [Task.firstFailure]

/-- A task fails only once the log is open. -/
theorem opens_of_run {fault : TaskFault} (h : (Service.run c s clock).2 = .error (.task fault)) :
    Opens c s clock := by
  unfold Service.run at h
  split at h
  · cases h
  · rename_i f hformat
    rcases readSource_cases c s (.start f c.year? clock) clock with
      ⟨cause, hread⟩ | ⟨cause, hread⟩ | ⟨reading, hread, -⟩
    · rw [hread] at h
      cases h
    · rw [hread] at h
      cases h
    · exact ⟨f, reading, hformat, hread⟩

/-- Once the log is open a run ends as its tasks do, and the writers start before anything is read. -/
theorem run_eq_of_opens {f : Format} {reading : List Record × Except TaskFault Unit}
    (hformat : Format.find? Format.all c.logFormat = some f)
    (hread : Service.readSource c s (.start f c.year? clock) clock = .ok reading) :
    (Service.run c s clock).2 =
      match Service.brokenWriter? c with
      | some name => .error (.task (.aborted name))
      | none =>
        (Task.firstFailure [reading.2, (Stores.ofRecords c.tracker reading.1).2]).mapError .task := by
  unfold Service.run
  rw [hformat]
  dsimp only
  rw [hread]
  cases Service.brokenWriter? c <;> rfl

/-- A writer that is past its start fails with a cause, and what reads the log breaks off under a name
of its own. -/
theorem name_of_run_aborted (hwriters : Service.brokenWriter? c = none)
    (h : (Service.run c s clock).2 = .error (.task (.aborted name))) : name = Service.sourceTask := by
  obtain ⟨f, reading, hformat, hread⟩ := opens_of_run h
  rw [run_eq_of_opens hformat hread, hwriters] at h
  dsimp only at h
  cases hfirst : Task.firstFailure [reading.2, (Stores.ofRecords c.tracker reading.1).2] with
  | ok =>
    rw [hfirst] at h
    cases h
  | error fault =>
    rw [hfirst] at h
    cases h
    rcases firstFailure_pair_eq_error_iff.1 hfirst with hreading | ⟨-, hwriting⟩
    · exact name_of_readSource_aborted hread hreading
    · exact absurd hwriting (ledgerOf_ne_aborted _ name)

/-- A run breaks off in a writer exactly if the log can be opened and one of the periods is zero. -/
theorem abortsWriter_iff :
    AbortsWriter c s clock ↔
      Opens c s clock ∧ (c.writer.commitInterval = 0 ∨ c.retention.frequency = 0) := by
  rw [← brokenWriter?_ne_none_iff]
  constructor
  · rintro ⟨name, hwriter, hrun⟩
    refine ⟨opens_of_run hrun, fun hnone => ?_⟩
    rw [name_of_run_aborted hnone hrun] at hwriter
    exact absurd hwriter (by decide)
  · rintro ⟨hopens, hbroken⟩
    obtain ⟨f, reading, hformat, hread⟩ := hopens
    obtain ⟨name, hname⟩ := Option.ne_none_iff_exists'.1 hbroken
    refine ⟨name, name_mem_of_brokenWriter? hname, ?_⟩
    rw [run_eq_of_opens hformat hread, hname]

/-- **Exactly the accepted configurations that write no period as zero start their writers.** The
periods are those after which a writer commits and the writer of raw lines cleans. Each is zero exactly if
the document writes zero at its key, as a number or as a text with no digit but zeros. Whatever the
service finds around it, a run breaks off in a writer exactly if the log can be opened and one of the
two is written as zero. -/
theorem accepted_aborts_writer_iff {workingDirectory document : String}
    (h : read workingDirectory document = .ok c) :
    (0 < c.writer.commitInterval ↔ ¬ WritesZero document "db" "commit_interval") ∧
      (0 < c.retention.frequency ↔ ¬ WritesZero document "rawlogs" "cleaning_frequency") ∧
      ∀ (s : Surroundings) (clock : Instant), AbortsWriter c s clock ↔
        Opens c s clock ∧ (WritesZero document "db" "commit_interval" ∨
          WritesZero document "rawlogs" "cleaning_frequency") := by
  obtain ⟨hinterval, hfrequency⟩ := periods_eq_zero_iff h
  rw [← hinterval, ← hfrequency]
  exact ⟨Nat.pos_iff_ne_zero, Nat.pos_iff_ne_zero, fun _ _ => abortsWriter_iff⟩

theorem exists_ok_of_toOption {ε α β : Type} {result : Except ε α} {f : α → β} {b : β}
    (h : result.toOption.map f = some b) : ∃ a, result = .ok a ∧ f a = b := by
  cases result with
  | error e => cases h
  | ok a => exact ⟨a, rfl, Option.some.inj h⟩

/-- Periods in words, shorter than a second and with a fraction. -/
def briefPeriods : String :=
  "source: stdin\ndb:\n  commit_interval: 250ms\nrawlogs:\n  cleaning_frequency: 0.5 min\n"

/-- The document is accepted, and no run breaks off in a writer. -/
theorem briefPeriods_start :
    ∃ c, read "/srv" briefPeriods = .ok c ∧
      0 < c.writer.commitInterval ∧ 0 < c.retention.frequency ∧
        ∀ (s : Surroundings) (clock : Instant), ¬ AbortsWriter c s clock := by
  have hinterval : ¬ WritesZero briefPeriods "db" "commit_interval" := by decide +kernel
  have hfrequency : ¬ WritesZero briefPeriods "rawlogs" "cleaning_frequency" := by decide +kernel
  have haccepted : (read "/srv" briefPeriods).toOption.map (·.source) = some .stdin := by
    decide +kernel
  obtain ⟨c, hread, -⟩ := exists_ok_of_toOption haccepted
  obtain ⟨hcommits, hcleans, hruns⟩ := accepted_aborts_writer_iff hread
  refine ⟨c, hread, hcommits.2 hinterval, hcleans.2 hfrequency, fun s clock haborts => ?_⟩
  obtain ⟨-, hzero⟩ := (hruns s clock).1 haborts
  exact hzero.elim hinterval hfrequency

/-- No period between two commits. -/
def noInterval : String := "source: stdin\ndb:\n  commit_interval: 0\n"

/-- The document is accepted with a period of zero, and every run breaks off in the writer of the
ledger. -/
theorem noInterval_aborts :
    ∃ c, read "/srv" noInterval = .ok c ∧ c.writer.commitInterval = 0 ∧
      ∀ (s : Surroundings) (clock : Instant),
        (Service.run c s clock).2 = .error (.task (.aborted Stores.ledgerWriter)) := by
  have haccepted : (read "/srv" noInterval).toOption.map
      (fun c => (c.source, c.logFormat, c.writer.commitInterval)) = some (.stdin, "default", 0) := by
    decide +kernel
  obtain ⟨c, hread, hsettings⟩ := exists_ok_of_toOption haccepted
  simp only [Prod.mk.injEq] at hsettings
  obtain ⟨hsource, hformat, hinterval⟩ := hsettings
  refine ⟨c, hread, hinterval, fun s clock => ?_⟩
  have hknown : Format.find? Format.all c.logFormat = some .classic := by
    rw [hformat]
    decide
  have hopens : Service.readSource c s (.start .classic c.year? clock) clock =
      .ok (Service.readFeed c (.start .classic c.year? clock) clock
        (.ofLines (Lines.read none s.input))) := by
    unfold Service.readSource
    rw [hsource]
  have hbroken : Service.brokenWriter? c = some Stores.ledgerWriter := if_pos hinterval
  rw [run_eq_of_opens hknown hopens, hbroken]

end MailTrace.Config
