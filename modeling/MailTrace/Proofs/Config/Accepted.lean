import MailTrace.Config.Reading
import MailTrace.Proofs.Text.Searches
import MailTrace.Service.Run

/-!
# Configurations that are accepted

An accepted configuration is in normal form and names where its lines come from, so the service never
has to make anything up when it starts to read.

1. A text is tidy if something is in it and no blank is around it. Bringing a configuration into normal
   form leaves tidy texts alone and gives no others (`normalize_eq_self_iff`, `normal_normalize`).
2. A configuration that passes the checks names its source (`named_of_validate`), and then no run
   ends with the fault of a socket (`run_ne_socket`).
-/

namespace MailTrace.Config

open MailTrace.Text MailTrace.Time MailTrace.Yaml

/-! ## Tidy texts -/

/-- A text with something in it and no blank around it. -/
def Tidy (t : String) : Prop := t ≠ "" ∧ Trimmed t.toList

instance : DecidablePred Tidy := fun _ => inferInstanceAs (Decidable (_ ∧ _))

theorem nonBlank_of_tidy {t : String} (h : Tidy t) : nonBlank t = some t := by
  have hstrip : strip t = t := by
    unfold strip
    rw [trim_of_trimmed h.2, String.ofList_toList]
  unfold nonBlank
  rw [hstrip, if_neg (by simpa using h.1)]

theorem tidy_of_nonBlank {t u : String} (h : nonBlank t = some u) : Tidy u := by
  unfold nonBlank at h
  split at h
  · cases h
  · rename_i hne
    cases h
    refine ⟨by simpa using hne, ?_⟩
    unfold strip
    rw [String.toList_ofList]
    exact trimmed_trim t.toList

/-! ## Normal form -/

/-- Every text is tidy, some name of log files is given, and no batch and no queue is empty. -/
structure Normal (c : Config) : Prop where
  logFormat : Tidy c.logFormat
  socket : ∀ description ∈ c.socket, Tidy description
  logPatterns : ∀ p ∈ c.logPatterns, Tidy p
  logPatterns_ne : c.logPatterns ≠ []
  batchSize : 1 ≤ c.retention.batchSize
  queueCapacity : 1 ≤ c.writer.queueCapacity

theorem tidy_of_mem_normalPatterns {patterns : List String} {p : String}
    (h : p ∈ normalPatterns patterns) : Tidy p := by
  have hdefaults : ∀ p ∈ LogFile.defaultBases, Tidy p := by decide
  unfold normalPatterns at h
  dsimp only at h
  split at h
  · exact hdefaults p h
  · obtain ⟨written, -, hkept⟩ := List.mem_filterMap.1 h
    exact tidy_of_nonBlank hkept

theorem normalPatterns_ne_nil (patterns : List String) : normalPatterns patterns ≠ [] := by
  unfold normalPatterns
  dsimp only
  split
  · decide
  · rename_i hne
    simpa using hne

theorem normalPatterns_of_tidy {patterns : List String} (h : ∀ p ∈ patterns, Tidy p)
    (hne : patterns ≠ []) : normalPatterns patterns = patterns := by
  have hkept : patterns.filterMap nonBlank = patterns := by
    rw [List.filterMap_congr fun p hp => nonBlank_of_tidy (h p hp), List.filterMap_some]
  unfold normalPatterns
  rw [hkept, if_neg (by simpa using hne)]

theorem normal_normalize (c : Config) : Normal c.normalize where
  logFormat := by
    simp only [normalize]
    cases hformat : nonBlank c.logFormat with
    | none => decide
    | some format => exact tidy_of_nonBlank hformat
  socket description h := by
    simp only [normalize] at h
    obtain ⟨written, -, hkept⟩ := Option.bind_eq_some_iff.1 h
    exact tidy_of_nonBlank hkept
  logPatterns _ h := tidy_of_mem_normalPatterns h
  logPatterns_ne := normalPatterns_ne_nil c.logPatterns
  batchSize := Int.le_max_right ..
  queueCapacity := Nat.le_max_right ..

/-- **Exactly the configurations in normal form are left as they are.** -/
theorem normalize_eq_self_iff {c : Config} : c.normalize = c ↔ Normal c := by
  constructor
  · intro h
    have hnormal := normal_normalize c
    rwa [h] at hnormal
  · intro h
    have hformat : (nonBlank c.logFormat).getD defaultFormat = c.logFormat := by
      rw [nonBlank_of_tidy h.logFormat]
      rfl
    have hsocket : c.socket.bind nonBlank = c.socket := by
      cases hnamed : c.socket with
      | none => rfl
      | some description =>
        rw [Option.bind_some]
        exact nonBlank_of_tidy (h.socket description hnamed)
    unfold normalize
    rw [hformat, hsocket, normalPatterns_of_tidy h.logPatterns h.logPatterns_ne,
      Int.max_eq_left h.batchSize, Nat.max_eq_left h.queueCapacity]

/-! ## Sources -/

/-- The source is named: a file or a directory by a path, a socket by a description of one. -/
structure Named (c : Config) : Prop where
  logPath : c.source = .file ∨ c.source = .directory → ∃ path, c.logPath = some path
  socket : c.source = .socket →
    ∃ description address, c.socket = some description ∧ SocketAddress.read description = .ok address

theorem checkSource_of_validate {c : Config} (h : c.validate = .ok ()) : c.checkSource = .ok () := by
  unfold validate at h
  split at h
  · cases h
  · cases hsource : c.checkSource with
    | ok => rfl
    | error fault =>
      rw [hsource] at h
      cases h

theorem named_of_validate {c : Config} (h : c.validate = .ok ()) : Named c := by
  have hsource := checkSource_of_validate h
  unfold checkSource at hsource
  constructor
  · intro hkind
    have hpath : (if c.logPath.isNone then Except.error (.needsLogPath c.source) else .ok ()) =
        (.ok () : Except ConfigFault Unit) := by
      rcases hkind with hkind | hkind <;> simpa only [hkind] using hsource
    split at hpath
    · cases hpath
    · rename_i hsome
      exact Option.ne_none_iff_exists'.1 (by simpa using hsome)
  · intro hkind
    simp only [hkind] at hsource
    split at hsource
    · cases hsource
    · rename_i description hdescription
      split at hsource
      · rename_i address haddress
        exact ⟨description, address, hdescription, haddress⟩
      · cases hsource

theorem readSource_ne_socket {c : Config} (h : Named c) (s : Surroundings) (t : Transformer)
    (clock : Instant) (fault : SocketFault) :
    Service.readSource c s t clock ≠ .error (.socket fault) := by
  unfold Service.readSource
  cases hkind : c.source with
  | file =>
    dsimp only
    cases s.disk.fileLines (c.logPath.getD "") <;> exact fun heq => nomatch heq
  | directory =>
    dsimp only
    cases s.disk.logLines (c.logPath.getD "") c.logPatterns <;> exact fun heq => nomatch heq
  | stdin => exact fun heq => nomatch heq
  | socket =>
    obtain ⟨description, address, hdescription, haddress⟩ := h.socket hkind
    have hread : SocketAddress.read (c.socket.getD "") = .ok address := by
      rw [hdescription]
      exact haddress
    dsimp only
    rw [hread]
    exact fun heq => nomatch heq

theorem run_ne_socket {c : Config} (h : Named c) (s : Surroundings) (clock : Instant)
    (fault : SocketFault) : (Service.run c s clock).2 ≠ .error (.socket fault) := by
  unfold Service.run
  cases hformat : Format.find? Format.all c.logFormat with
  | none => exact fun heq => nomatch heq
  | some f =>
    dsimp only
    cases hread : Service.readSource c s (.start f c.year? clock) clock with
    | error ended =>
      intro heq
      obtain rfl : ended = .socket fault := Except.error.inj heq
      exact readSource_ne_socket h s _ clock fault hread
    | ok reading =>
      dsimp only
      cases Service.brokenWriter? c with
      | some name => exact fun heq => nomatch heq
      | none =>
        dsimp only
        cases Task.firstFailure [reading.2, (Stores.ofRecords c.tracker reading.1).2] <;>
          exact fun heq => nomatch heq

/-! ## Documents -/

/-- An accepted configuration is that of its document, brought into normal form and then checked. -/
theorem exists_given_of_read {workingDirectory document : String} {c : Config}
    (h : read workingDirectory document = .ok c) :
    ∃ given : Config,
      (Document.read? document.toList).bind (ofDocument? (default workingDirectory)) = some given ∧
        c = given.normalize ∧ c.validate = .ok () := by
  unfold read at h
  split at h
  · cases h
  · rename_i given hgiven
    dsimp only at h
    cases hvalid : given.normalize.validate with
    | error fault =>
      rw [hvalid] at h
      cases h
    | ok =>
      rw [hvalid] at h
      cases h
      exact ⟨given, hgiven, rfl, hvalid⟩

theorem exists_of_read {workingDirectory document : String} {c : Config}
    (h : read workingDirectory document = .ok c) :
    ∃ written : Config, c = written.normalize ∧ c.validate = .ok () := by
  obtain ⟨given, -, hnormal, hvalid⟩ := exists_given_of_read h
  exact ⟨given, hnormal, hvalid⟩

theorem one_le_rawQueueCapacity {c : Config} (h : Normal c) : 1 ≤ c.rawQueueCapacity :=
  Nat.le_min.2 ⟨Nat.mul_le_mul h.queueCapacity (by decide : 1 ≤ rawQueueFactor), by decide⟩

/-- **An accepted configuration can start its source.** It is in normal form: its texts are tidy, it
names log files, and no batch and no queue is empty. So bringing it into normal form again changes
nothing. Its source is named where it has to be, and whatever the service finds around it, no run ends
because a socket is described wrongly. -/
theorem accepted_can_start {workingDirectory document : String} {c : Config}
    (h : read workingDirectory document = .ok c) :
    c.normalize = c ∧ Normal c ∧ 1 ≤ c.rawQueueCapacity ∧ Named c ∧
      ∀ (s : Surroundings) (clock : Instant) (fault : SocketFault),
        (Service.run c s clock).2 ≠ .error (.socket fault) := by
  obtain ⟨written, rfl, hvalid⟩ := exists_of_read h
  have hnormal := normal_normalize written
  have hnamed := named_of_validate hvalid
  exact ⟨normalize_eq_self_iff.2 hnormal, hnormal, one_le_rawQueueCapacity hnormal, hnamed,
    fun s clock fault => run_ne_socket hnamed s clock fault⟩

/-- A socket with blanks around it, no format, and a blank name of log files. -/
def untidyDocument : String :=
  "source: socket\nsocket: ' unix=/run/mail.sock '\nlog_format: ' '\nlog_patterns: ['  ', ' mail.log ']\n" ++
    "db:\n  action_queue_capacity: 0\n"

/-- The document is accepted, and what it says can start. -/
theorem untidyDocument_can_start :
    ∃ c, read "/srv" untidyDocument = .ok c ∧ c.normalize = c ∧ Normal c ∧
      ∃ description address, c.socket = some description ∧
        SocketAddress.read description = .ok address := by
  have hread : (read "/srv" untidyDocument).toOption.map (·.source) = some .socket := by decide +kernel
  obtain ⟨c, hc, hsource⟩ := Option.map_eq_some_iff.1 hread
  cases hdocument : read "/srv" untidyDocument with
  | error fault =>
    rw [hdocument] at hc
    cases hc
  | ok c' =>
    rw [hdocument] at hc
    cases hc
    obtain ⟨hsame, hnormal, -, hnamed, -⟩ := accepted_can_start hdocument
    exact ⟨c, rfl, hsame, hnormal, hnamed.socket hsource⟩

end MailTrace.Config
