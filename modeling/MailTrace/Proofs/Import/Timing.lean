import MailTrace.Proofs.Import.Announcing
import MailTrace.Proofs.Import.Handshake

/-!
# Reading does not depend on timing

The delays of lines, the timeout, the clock and the moment of cancelling decide which moves the two
tasks of a reader make, and not what they publish.

1. `read` makes moves of the two tasks (`exists_reaches_run`): for each line those of its silence and its
   turn, then those of the end or of the cancelling.
2. Only the classic format looks at the years of its transformer (`reference_start`).
3. So what any run publishes is the reference, or a front of it if it was cancelled
   (`published_whatever_timing`).
-/

namespace MailTrace

open MailTrace.Time

/-! ## Years -/

namespace Transformer

variable {t : Transformer}

/-- Only the classic format looks at the years. -/
theorem transform_years (hformat : t.format ≠ .classic) (years : YearTracker) (line : List Char) :
    transform { t with years } line =
      ((t.transform line).1, { (t.transform line).2 with years }) := by
  obtain ⟨format, count, y⟩ := t
  cases format with
  | classic => exact absurd rfl hformat
  | dated | stamped => rfl
  | enveloped =>
    unfold transform
    dsimp only
    cases Envelope.read? line <;> rfl

theorem transformAll_years (hformat : t.format ≠ .classic) (years : YearTracker)
    (lines : List String) : transformAll { t with years } lines = t.transformAll lines := by
  induction lines generalizing t with
  | nil => rfl
  | cons line lines ih =>
    have hnext : (t.transform line.toList).2.format ≠ .classic := by rwa [format_transform]
    rw [transformAll, transformAll, transform_years hformat]
    dsimp only
    rw [ih hnext]

end Transformer

namespace Import

@[simp] theorem Trace.events_append (t u : Trace) : (t ++ u).events = t.events ++ u.events :=
  List.map_append

/-- The lines of a source. -/
def Feed.lines (feed : Feed) : List SourceLine := feed.arrivals.map (·.line)

namespace Handshake

/-! ## The moves of a run -/

theorem now_take? {r r' : Reader} {line : SourceLine} {taken : Trace}
    (h : r.take? line = some (r', taken)) : r'.now = r.now := by
  obtain ⟨_, rfl, rfl⟩ | ⟨_, _, rfl, rfl⟩ := take?_cases h <;> rfl

/-- The two tasks between two lines of a reader. -/
def between (r : Reader) (lines : List SourceLine) (ending : Ending) (events : List Event) :
    Handshake :=
  ⟨lines, ending, .asking, none, false, .selecting, false, r.transformer, r.progress, events⟩

section Moves

variable {r r' : Reader} {line : SourceLine} {taken : Trace} (lines : List SourceLine)
  (ending : Ending) (events : List Event)

theorem reaches_waitUntil (r : Reader) (timeout moment : Duration) :
    Reaches (between r lines ending events)
      (between (r.waitUntil timeout moment).1 lines ending
        (events ++ (r.waitUntil timeout moment).2.events)) := by
  unfold Reader.waitUntil
  cases hd : r.deadline? timeout with
  | none =>
    rw [show Trace.events [] = [] from rfl, List.append_nil]
    exact .refl
  | some deadline =>
    dsimp only
    split
    · unfold Reader.deadline? at hd
      split at hd
      · rename_i hwaits
        rw [Bool.and_eq_true, Bool.not_eq_true'] at hwaits
        rw [events_announce]
        exact .single (.silence rfl hwaits.1 hwaits.2)
      · cases hd
    · rw [show Trace.events [] = [] from rfl, List.append_nil]
      exact .refl

/-- A line is sent, taken and replied to. -/
theorem reaches_take (htake : r.take? line = some (r', taken)) :
    Reaches (between r (line :: lines) ending events)
      (between r' lines ending (events ++ taken.events)) := by
  refine .head (.scanLine rfl rfl) ?_
  refine .head (.send rfl rfl trivial) ?_
  refine .head (.take r.now r.lastRecord rfl rfl htake) ?_
  refine .head (.reply rfl rfl nofun) ?_
  exact .single (.takeReply rfl rfl)

theorem reaches_breakOff (htake : r.take? line = none) :
    Reaches (between r (line :: lines) ending events)
      { between r lines ending events with scanner := .waiting, taker := .brokenOff } := by
  refine .head (.scanLine rfl rfl) ?_
  refine .head (.send rfl rfl trivial) ?_
  exact .single (.breakOff r.now r.lastRecord rfl rfl htake)

theorem reaches_close (r : Reader) :
    Reaches (between r [] ending events)
      { between r [] ending (events ++ (r.close ending).1.events) with
        scanner := .ended ending, taker := .returned (r.close ending).2 } := by
  refine .head (.scanEnd rfl rfl) ?_
  refine .head (.stopAtEnd rfl rfl rfl) ?_
  exact .single (.close r.now r.lastRecord rfl rfl rfl)

theorem reaches_cancel (r : Reader) :
    Reaches (between r lines ending events)
      { between r lines ending events with
        scanner := .ended .exhausted, taker := .returned (.ok ()), cancelled := true } := by
  refine .head (.cancel rfl) ?_
  refine .head (.stop rfl rfl) ?_
  refine .head (.scanStopped rfl (.inl rfl)) ?_
  exact .single (.closeCancelled rfl rfl rfl)

end Moves

/-- The run over the lines still to come makes moves of the two tasks. -/
theorem exists_reaches_run (s : ReadSettings) (delay : Duration) (ending : Ending) (r : Reader)
    (arrivals : List Arrival) (events : List Event) :
    ∃ h, Reaches (between r (arrivals.map (·.line)) ending events) h ∧
      h.taker.result? = some (r.run s delay ending arrivals).2 ∧
        h.events = events ++ (r.run s delay ending arrivals).1.events ∧
          (h.cancelled = true →
            s.CancelledBy (r.now + ((arrivals.map (·.delay)).sum + delay))) := by
  induction arrivals generalizing r events with
  | nil =>
    unfold Reader.run
    dsimp only
    rw [List.map_nil, List.map_nil, List.sum_nil, Nat.zero_add]
    cases hc : Reader.cancelled? s (r.now + delay) with
    | some c =>
      have hwait := reaches_waitUntil [] ending events r s.idleTimeout c
      exact ⟨_, hwait.trans (reaches_cancel ..), rfl, rfl, fun _ => cancelledBy_of_some hc 0⟩
    | none =>
      have hwait := reaches_waitUntil [] ending events r s.idleTimeout (r.now + delay)
      refine ⟨_, hwait.trans (reaches_close ..), rfl, ?_, fun h => absurd h Bool.false_ne_true⟩
      dsimp only
      rw [Trace.events_append, ← List.append_assoc]
      rfl
  | cons a rest ih =>
    unfold Reader.run
    dsimp only
    -- the moment of the line, and how long it takes from there to the end
    rw [List.map_cons, List.map_cons, List.sum_cons, Nat.add_assoc, ← Nat.add_assoc]
    cases hc : Reader.cancelled? s (r.now + a.delay) with
    | some c =>
      have hwait := reaches_waitUntil (a.line :: rest.map (·.line)) ending events r s.idleTimeout c
      exact ⟨_, hwait.trans (reaches_cancel ..), rfl, rfl, fun _ => cancelledBy_of_some hc _⟩
    | none =>
      have hwait := reaches_waitUntil (a.line :: rest.map (·.line)) ending events r s.idleTimeout
        (r.now + a.delay)
      dsimp only
      cases htake : (r.waitUntil s.idleTimeout (r.now + a.delay)).1.take? a.line with
      | none =>
        exact ⟨_, hwait.trans (reaches_breakOff _ _ _ htake), rfl, rfl,
          fun h => absurd h Bool.false_ne_true⟩
      | some taken =>
        obtain ⟨r', taken⟩ := taken
        obtain ⟨h, hlater, hresult, hevents, hcancelled⟩ :=
          ih r' (events ++ (r.waitUntil s.idleTimeout (r.now + a.delay)).2.events ++ taken.events)
        -- the moves of the line lead to where the rest of the run begins
        have hnow : r'.now = r.now + a.delay := (now_take? htake).trans now_waitUntil
        rw [hnow] at hcancelled
        refine ⟨h, (hwait.trans (reaches_take _ _ _ htake)).trans hlater, hresult, ?_, hcancelled⟩
        rw [hevents]
        dsimp only
        rw [Trace.events_append, Trace.events_append, List.append_assoc, List.append_assoc,
          List.append_assoc]

end Handshake

/-! ## What is published -/

theorem reference_start {format : Format} {year year' : Option Int} {now now' : Instant}
    (hyears : format = .classic →
      (Transformer.start format year now).years = (Transformer.start format year' now').years)
    (lines : List SourceLine) :
    reference (.start format year now) lines = reference (.start format year' now') lines := by
  by_cases hformat : format = .classic
  · have hsame : Transformer.start format year now = Transformer.start format year' now' :=
      congrArg (Transformer.mk format 0) (hyears hformat)
    rw [hsame]
  · unfold reference
    rw [← Transformer.transformAll_years (t := .start format year now) hformat
      (Transformer.start format year' now').years]
    rfl

/-- What a run of the two tasks publishes, wherever it has come. -/
structure Sequential (t : Transformer) (lines : List SourceLine) (h : Handshake) : Prop where
  front : published h.events <+: reference t lines
  whole : h.Over → h.cancelled = false → published h.events = reference t lines
  goesOn : ¬ h.Over → ∃ h', Handshake.Step h h'

theorem sequential_of_reaches {t : Transformer} {clock : Instant} {lines : List SourceLine}
    {ending : Ending} {h : Handshake} (hreaches : Handshake.Reaches (.start t clock lines ending) h) :
    Sequential t lines h := by
  have hord := (Handshake.ordered_start t clock lines ending).reaches hreaches
  have hgoesOn (hgoing : ¬ h.Over) := (hord.exists_step hgoing).imp fun _ hstep => hstep.1
  refine ⟨hord.front, fun hover hgoing => ?_, hgoesOn⟩
  cases hord with
  | listening hturn =>
    have hlistens := hturn.listens
    unfold Handshake.Over at hover
    cases htaker : h.taker with
    | selecting | replying =>
      rw [htaker] at hover
      cases hover
    | stopping | brokenOff | returned =>
      rw [htaker] at hlistens
      cases hlistens
  | deaf _ _ hwhole => exact hwhole hgoing

/-- What `read` publishes, and the moves that it makes. -/
structure ReadsSequentially (s : ReadSettings) (t : Transformer) (clock : Instant) (feed : Feed) :
    Prop where
  moves : ∃ h, Handshake.Reaches (.start t clock feed.lines feed.ending) h ∧
    h.taker.result? = some (read s t clock feed).2 ∧ h.events = (read s t clock feed).1.events ∧
      (h.cancelled = true → s.CancelledBy feed.length)
  front : (read s t clock feed).1.records <+: reference t feed.lines
  whole : ¬ s.CancelledBy feed.length → (read s t clock feed).1.records = reference t feed.lines

theorem readsSequentially (s : ReadSettings) (t : Transformer) (clock : Instant) (feed : Feed) :
    ReadsSequentially s t clock feed := by
  obtain ⟨h, hreaches, hresult, hevents, hcancelled⟩ :=
    Handshake.exists_reaches_run s feed.delay feed.ending (.start t clock) feed.arrivals []
  have hseq : Sequential t feed.lines h := sequential_of_reaches hreaches
  have hrecords : published h.events = (read s t clock feed).1.records := by
    rw [hevents]
    exact published_events _
  have hlength : (Reader.start t clock).now + ((feed.arrivals.map (·.delay)).sum + feed.delay) =
      feed.length := Nat.zero_add _
  rw [hlength] at hcancelled
  refine ⟨⟨h, hreaches, hresult, hevents, hcancelled⟩, hrecords ▸ hseq.front, fun hgoing => ?_⟩
  have hover : h.Over := by
    unfold Handshake.Over
    rw [hresult]
    rfl
  exact hrecords.symm.trans (hseq.whole hover (Bool.eq_false_iff.2 (mt hcancelled hgoing)))

/-- **What is published does not depend on timing.** However the moves of the two tasks are chosen, they
publish the reference, or a front of it if they are cancelled; they are never stuck and come to an end.
So do the moves that `read` makes. Two runs over the same lines that are not cancelled publish the same
records, whatever their clocks, as long as the classic format begins both in the same year with the
same last year. -/
theorem published_whatever_timing :
    (∀ (t : Transformer) (clock : Instant) (lines : List SourceLine) (ending : Ending) (h : Handshake),
      Handshake.Reaches (.start t clock lines ending) h → Sequential t lines h) ∧
    (WellFounded fun h' h : Handshake => Handshake.Step h h') ∧
    (∀ (s : ReadSettings) (t : Transformer) (clock : Instant) (feed : Feed),
      ReadsSequentially s t clock feed) ∧
    (∀ (format : Format) (year year' : Option Int) (now now' clock clock' : Instant)
        (lines : List SourceLine) (ending ending' : Ending) (h h' : Handshake),
      (format = .classic →
        (Transformer.start format year now).years = (Transformer.start format year' now').years) →
      Handshake.Reaches (.start (.start format year now) clock lines ending) h →
      Handshake.Reaches (.start (.start format year' now') clock' lines ending') h' →
      h.Over → h'.Over → h.cancelled = false → h'.cancelled = false →
      published h.events = published h'.events) := by
  refine ⟨fun _ _ _ _ _ => sequential_of_reaches, Handshake.wellFounded_step, readsSequentially, ?_⟩
  intro format year year' now now' clock clock' lines ending ending' h h' hyears hreaches hreaches'
    hover hover' hgoing hgoing'
  calc published h.events
      = reference (.start format year now) lines :=
        (sequential_of_reaches hreaches).whole hover hgoing
    _ = reference (.start format year' now') lines := reference_start hyears lines
    _ = published h'.events := ((sequential_of_reaches hreaches').whole hover' hgoing').symm

/-- Reading without a timeout and without an end. -/
def patient : ReadSettings := ⟨0, none⟩

/-- A line of a rotated file that is read, one that is not, and one that is read after the silence has
ended the import. -/
def rotatedFeed : Feed :=
  ⟨[⟨10, ⟨"Jun 16 13:53:50 mail postfix/smtpd[20252]: connect from unknown[192.168.42.12]",
      some ⟨"mail.log.1", 3⟩⟩⟩,
    ⟨700, ⟨"no line of a log", some ⟨"mail.log.1", 4⟩⟩⟩,
    ⟨100, ⟨"Jun 16 13:53:51 mail postfix/qmgr[7]: A1: removed", some ⟨"mail.log.1", 5⟩⟩⟩],
    20, .exhausted⟩

/-- Two lines in envelopes, of which the first tells the file it is from. -/
def shippedFeed : Feed :=
  ⟨[⟨10, ⟨"\x7b\"@timestamp\":\"2020-06-16T13:53:50Z\"," ++
        "\"log\":\x7b\"file\":\x7b\"path\":\"/var/log/mail.log\"\x7d\x7d," ++
        "\"message\":\"Jun 16 13:53:50 mail postfix/qmgr[7]: A1: removed\"\x7d",
      some ⟨"mail.log.1", 7⟩⟩⟩,
    ⟨700, ⟨"\x7b\"@timestamp\":\"2020-06-16T13:53:51Z\"," ++
        "\"message\":\"Jun 16 13:53:51 mail postfix/qmgr[7]: B2: removed\"\x7d",
      some ⟨"mail.log.1", 8⟩⟩⟩],
    20, .exhausted⟩

/-- A hasty and a patient reading publish the same records. A record has the place that the source
tells, unless the line names its own file. -/
theorem rotatedFeed_whatever_timing :
    (read hasty (sameYear teatime) teatime rotatedFeed).1.records =
      (read patient (sameYear (teatime + 3600)) (teatime + 3600) (.ofLines rotatedFeed.lines)).1.records ∧
    (read hasty (sameYear teatime) teatime rotatedFeed).1.records.map (fun r => (r.line, r.location)) =
      [("Jun 16 13:53:50 mail postfix/smtpd[20252]: connect from unknown[192.168.42.12]",
          ⟨"mail.log.1", 3⟩),
        ("Jun 16 13:53:51 mail postfix/qmgr[7]: A1: removed", ⟨"mail.log.1", 5⟩)] ∧
    (read hasty (.start .enveloped none teatime) teatime shippedFeed).1.records.map (·.location) =
      [⟨"/var/log/mail.log", 1⟩, ⟨"mail.log.1", 8⟩] := by
  obtain ⟨-, -, hread, hsame⟩ := published_whatever_timing
  obtain ⟨h, hreaches, hresult, hevents, hcancelled⟩ :=
    (hread hasty (sameYear teatime) teatime rotatedFeed).moves
  obtain ⟨h', hreaches', hresult', hevents', hcancelled'⟩ :=
    (hread patient (sameYear (teatime + 3600)) (teatime + 3600) (.ofLines rotatedFeed.lines)).moves
  have hlate (feed : Feed) (hshort : feed.length < 1000) : ¬ hasty.CancelledBy feed.length := by
    rintro ⟨c, hc, hle⟩
    cases hc
    exact absurd hle (Nat.not_le.2 hshort)
  have hnever (moment : Duration) : ¬ patient.CancelledBy moment := by
    rintro ⟨c, hc, -⟩
    cases hc
  have hpublished := hsame .classic none none teatime (teatime + 3600) teatime (teatime + 3600)
    rotatedFeed.lines .exhausted .exhausted h h' (fun _ => by decide) hreaches hreaches'
    (by unfold Handshake.Over; rw [hresult]; rfl) (by unfold Handshake.Over; rw [hresult']; rfl)
    (Bool.eq_false_iff.2 (mt hcancelled (hlate rotatedFeed (by decide))))
    (Bool.eq_false_iff.2 (mt hcancelled' (hnever _)))
  rw [hevents, hevents', published_events, published_events] at hpublished
  refine ⟨hpublished, ?_, ?_⟩
  · rw [(hread _ _ _ rotatedFeed).whole (hlate _ (by decide))]
    decide +kernel
  · rw [(hread _ _ _ shippedFeed).whole (hlate _ (by decide))]
    decide +kernel

end Import

end MailTrace
