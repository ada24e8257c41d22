import Mathlib.Data.Prod.Lex
import MailTrace.Proofs.Service.Flow
import MailTrace.Proofs.Service.References

/-!
# Nothing is lost when the service stops

Stopping may begin at any moment, with records and findings in all queues.

1. As long as the service is not stopped some move brings it nearer to that (`exists_nears`), so it
   can always come to be stopped (`Sound.exists_stopped`).
2. When it is, nothing waits any more, and what was published is in the stores
   (`stopping_loses_nothing`).
-/

namespace MailTrace

open MailTrace.Tracker

namespace Flow

variable {c : Config} {given : List (List Record)} {f f' : Flow}

/-! ## Coming to an end -/

/-- How many turns of its stage the service has before it. -/
def stageWeight : Stage → Nat
  | .running => 5
  | .stopping t => 4 - t.rank
  | .stopped => 0

theorem stageWeight_after (t : Component) :
    stageWeight (.after t) < stageWeight (.stopping t) := by
  cases t <;> decide

/-- What is left to do before the findings. -/
def upstream (f : Flow) : Nat :=
  stageWeight f.stage + f.source.weight + f.inlets.countP (·.passing.isSome) +
    f.tracker.queue.length + f.tracker.phase.weight + (if f.tracker.closed then 0 else 1)

/-- What is left to do for the stores. -/
def downstream (f : Flow) : Nat :=
  2 * f.tracker.telling.length + f.ledger.weight + f.archive.weight

/-- What is left to do until the service is stopped. A record that the tracker turns to can lead to any
number of findings, so all that is left for the stores counts less than one thing before. -/
def weight (f : Flow) : Nat ×ₗ Nat := toLex (f.upstream, f.downstream)

theorem weight_lt_of_upstream (h : f'.upstream < f.upstream) : f'.weight < f.weight :=
  Prod.Lex.toLex_lt_toLex.2 (.inl h)

theorem weight_lt_of_downstream (hup : f'.upstream = f.upstream) (h : f'.downstream < f.downstream) :
    f'.weight < f.weight := Prod.Lex.toLex_lt_toLex.2 (.inr ⟨hup, h⟩)

/-- No store failed, and the source did not. -/
structure Whole (f : Flow) : Prop where
  source : f.source ≠ .failed
  ledger : f.ledger.phase ≠ .failed
  archive : f.archive.phase ≠ .failed

/-- A move that publishes nothing and brings the service nearer to being stopped, well unless a write
cannot be done. -/
structure Nears (c : Config) (f f' : Flow) : Prop where
  step : Step c f f'
  weight_lt : f'.weight < f.weight
  published : f'.toTracker = f.toTracker
  cleaned : f'.archive.cleaned = f.archive.cleaned
  whole : f.Whole → (∀ j ∈ f.ledger.queue, Keeper.IsPossible (Ledger.duties c) j) → f'.Whole

theorem Nears.of_phase (hstep : Step c f f') (hlt : f'.weight < f.weight)
    (hpublished : f'.toTracker = f.toTracker) (hcleaned : f'.archive.cleaned = f.archive.cleaned)
    (hsource : f.source ≠ .failed → f'.source ≠ .failed)
    (hledger : f'.ledger.phase = f.ledger.phase) (harchive : f'.archive.phase = f.archive.phase) :
    Nears c f f' where
  step := hstep
  weight_lt := hlt
  published := hpublished
  cleaned := hcleaned
  whole hwhole _ := ⟨hsource hwhole.source, hledger ▸ hwhole.ledger, harchive ▸ hwhole.archive⟩

theorem nears_ledger {k : Keeper Ledger Ledger.Job}
    (h : Keeper.Nears (Ledger.duties c) (f.stage.Asks .ledger ∨ f.LedgerDeserted) f.ledger k) :
    Nears c f { f with ledger := k } where
  step := .ledger h.step
  weight_lt := by
    have hlt := h.weight_lt
    refine weight_lt_of_downstream rfl ?_
    unfold downstream
    dsimp only
    omega
  published := rfl
  cleaned := rfl
  whole hwhole hpossible := ⟨hwhole.source, h.whole hpossible, hwhole.archive⟩

theorem nears_archive {k : Keeper Archive Record}
    (h : Keeper.Nears (Archive.duties c) (f.stage.Asks .archive) f.archive k) :
    Nears c f { f with archive := k } where
  step := .archive h.step
  weight_lt := by
    have hlt := h.weight_lt
    refine weight_lt_of_downstream rfl ?_
    unfold downstream
    dsimp only
    omega
  published := rfl
  cleaned := h.cleaned
  whole hwhole _ := ⟨hwhole.source, hwhole.ledger, h.whole fun _ _ _ => ⟨_, rfl⟩⟩

/-- A record that is passing can come to the archive, or the archive can make room for it. -/
theorem exists_nears_of_passing (hsource : f.source = .working) {i : Nat} {inlet : Inlet} {r : Record}
    (hinlet : f.inlets[i]? = some inlet) (hpassing : inlet.passing = some r) :
    ∃ f', Nears c f f' := by
  -- either way the reader goes on, and one record less is passing
  have hfewer : (f.inlets.set i { inlet with passing := none }).countP (·.passing.isSome) <
      f.inlets.countP (·.passing.isSome) := by
    obtain ⟨hi, hget⟩ := List.getElem?_eq_some_iff.1 hinlet
    have hpos : 0 < f.inlets.countP (·.passing.isSome) :=
      List.countP_pos_iff.2 ⟨inlet, List.mem_of_getElem? hinlet, by rw [hpassing]; rfl⟩
    have hset := List.countP_set (p := (·.passing.isSome)) (a := { inlet with passing := none }) hi
    rw [hget, hpassing] at hset
    simp at hset
    omega
  have hlt {k : Keeper Archive Record} {log : List (Nat × Record)} :
      weight { f with
        inlets := f.inlets.set i { inlet with passing := none }, archive := k,
        toArchive := log } < f.weight := by
    refine weight_lt_of_upstream ?_
    unfold upstream
    dsimp only
    omega
  by_cases hphase : f.archive.phase = .working
  · by_cases hroom : f.archive.HasRoom (Archive.duties c)
    · exact ⟨_, .of_phase (.pass hsource hinlet hpassing hroom) hlt rfl rfl id rfl rfl⟩
    · obtain ⟨k, hk⟩ := Keeper.exists_nears_of_full hphase hroom
      exact ⟨_, nears_archive hk⟩
  · exact ⟨_, .of_phase (.passRefused hsource hinlet hpassing hphase) hlt rfl rfl id rfl rfl⟩

/-- The source can come to its end when it is asked to. -/
theorem exists_nears_of_source (hsource : f.source = .working) (hasked : f.stage.Asks .source) :
    ∃ f', Nears c f f' := by
  by_cases hidle : ∀ inlet ∈ f.inlets, inlet.passing = none
  · refine ⟨_, .of_phase (.sourceEnds hsource hidle (.inl hasked)) ?_ rfl rfl (fun _ => nofun) rfl rfl⟩
    refine weight_lt_of_upstream ?_
    simp [upstream, hsource, Task.Phase.weight]
  · push Not at hidle
    obtain ⟨inlet, hmem, hpassing⟩ := hidle
    obtain ⟨i, hinlet⟩ := List.mem_iff_getElem?.1 hmem
    obtain ⟨r, hr⟩ := Option.ne_none_iff_exists'.1 hpassing
    exact exists_nears_of_passing hsource hinlet hr

/-- A finding can come to the ledger, or the ledger can make room for it. -/
theorem exists_nears_of_telling (hactive : f.tracker.phase.Active) {x : Finding} {more : List Finding}
    (htelling : f.tracker.telling = x :: more) : ∃ f', Nears c f f' := by
  by_cases hphase : f.ledger.phase = .working
  · by_cases hroom : f.ledger.HasRoom (Ledger.duties c)
    · refine ⟨_, .of_phase (.tell hactive htelling hroom) ?_ rfl rfl id rfl rfl⟩
      refine weight_lt_of_downstream rfl ?_
      simp [downstream, htelling, Keeper.push, Keeper.weight]
      omega
    · obtain ⟨k, hk⟩ := Keeper.exists_nears_of_full hphase hroom
      exact ⟨_, nears_ledger hk⟩
  · refine ⟨_, .of_phase (.tellRefused hactive htelling hphase) ?_ rfl rfl id rfl rfl⟩
    have hpos := hactive.weight_pos
    have hfailed : Task.Phase.weight .failed = 0 := rfl
    refine weight_lt_of_upstream ?_
    unfold upstream
    dsimp only
    omega

/-- The tracker can come to its end when it is asked to stop. -/
theorem exists_nears_of_tracker (hactive : f.tracker.phase.Active) (hasked : f.stage.Asks .tracker) :
    ∃ f', Nears c f f' := by
  cases htelling : f.tracker.telling with
  | cons x more => exact exists_nears_of_telling hactive htelling
  | nil =>
    cases hqueue : f.tracker.queue with
    | cons r rest =>
      refine ⟨_, .of_phase (.track hactive htelling hqueue (.refl _)) ?_ rfl rfl id rfl rfl⟩
      exact weight_lt_of_upstream (by simp [upstream, hqueue])
    | nil =>
      rcases hactive.working_or_draining with hphase | hphase
      · refine ⟨_, .of_phase (.trackerStops hphase htelling hasked) ?_ rfl rfl id rfl rfl⟩
        exact weight_lt_of_upstream (by simp [upstream, hphase, Task.Phase.weight])
      · cases hclosed : f.tracker.closed with
        | false =>
          refine ⟨_, .of_phase (.trackerCloses hphase hclosed htelling hqueue (.refl _)) ?_ rfl rfl id
            rfl rfl⟩
          exact weight_lt_of_upstream (by simp [upstream, hclosed])
        | true =>
          refine ⟨_, .of_phase (.trackerEnds hphase hclosed htelling) ?_ rfl rfl id rfl rfl⟩
          exact weight_lt_of_upstream (by simp [upstream, hphase, Task.Phase.weight])

/-- As long as the service is not stopped, some move brings it nearer to that. -/
theorem exists_nears (horder : f.InOrder) (hgoing : f.stage ≠ .stopped) : ∃ f', Nears c f f' := by
  cases hstage : f.stage with
  | running =>
    refine ⟨_, .of_phase (.shutdown hstage) ?_ rfl rfl id rfl rfl⟩
    exact weight_lt_of_upstream (by simp [upstream, hstage, stageWeight, Component.rank])
  | stopping t =>
    have hasked : f.stage.Asks t := hstage ▸ Nat.le_refl t.rank
    rcases (f.phase t).active_or_over with hactive | hover
    · cases t with
      | source => exact exists_nears_of_source (hactive.working_or_draining.resolve_right horder.source) hasked
      | tracker => exact exists_nears_of_tracker hactive hasked
      | ledger =>
        obtain ⟨k, hk⟩ := Keeper.exists_nears_of_asked (Or.inl hasked) hactive
        exact ⟨_, nears_ledger hk⟩
      | archive =>
        obtain ⟨k, hk⟩ := Keeper.exists_nears_of_asked hasked hactive
        exact ⟨_, nears_archive hk⟩
    · refine ⟨_, .of_phase (.next hstage hover) ?_ rfl rfl id rfl rfl⟩
      have hlt := stageWeight_after t
      refine weight_lt_of_upstream ?_
      unfold upstream
      rw [hstage]
      dsimp only
      omega
  | stopped => exact absurd hstage hgoing

/-- The writes that wait can be done if all that the tracker finds out can be written. -/
theorem Sound.isPossible (h : Sound c given f) (hwhole : f.Whole)
    (hpossible : ∀ x ∈ findings c.tracker (f.toTracker.map (·.2)), x.write.isPossible = true) :
    ∀ j ∈ f.ledger.queue, Keeper.IsPossible (Ledger.duties c) j := by
  intro j hj l
  obtain ⟨told, htold, hkept⟩ := h.told
  obtain ⟨before, hjobs, -⟩ := hkept.done hwhole.ledger h.uncleaned
  have hmem : j ∈ told.map Ledger.Job.ofFinding := hjobs ▸ List.mem_append_right before hj
  obtain ⟨x, hx, rfl⟩ := List.mem_map.1 hmem
  have hphase : f.tracker.phase ≠ .failed := mt h.order.failed hwhole.ledger
  have hfound := htold.subset_findings hphase (List.mem_append_left _ hx)
  exact ⟨_, Ledger.action_of_isPossible (hpossible x hfound) l⟩

/-- The service can always come to be stopped. It does so well if nothing failed yet and all that the
tracker finds out can be written. -/
theorem Sound.exists_stopped (h : Sound c given f) (hgiven : ∀ records ∈ given, NoRelayed records) :
    ∃ g, Reaches c f g ∧ g.stage = .stopped ∧ g.toTracker = f.toTracker ∧
      g.archive.cleaned = f.archive.cleaned ∧
      (f.Whole →
        (∀ x ∈ findings c.tracker (f.toTracker.map (·.2)), x.write.isPossible = true) →
        g.Whole) := by
  induction hweight : f.weight using WellFoundedLT.induction generalizing f with
  | ind w ih =>
    by_cases hstopped : f.stage = .stopped
    · exact ⟨f, .refl, hstopped, rfl, rfl, fun hwhole _ => hwhole⟩
    · obtain ⟨f', hnears⟩ := exists_nears (c := c) h.order hstopped
      obtain ⟨g, hreaches, hg, hpublished, hcleaned, hwell⟩ :=
        ih f'.weight (hweight ▸ hnears.weight_lt) (h.step hgiven hnears.step) rfl
      refine ⟨g, .head hnears.step hreaches, hg, hpublished.trans hnears.published,
        hcleaned.trans hnears.cleaned, fun hwhole hpossible => ?_⟩
      have hwhole' : f'.Whole := hnears.whole hwhole (h.isPossible hwhole hpossible)
      exact hwell hwhole' (hnears.published.symm ▸ hpossible)

/-! ## The service is stopped -/

theorem eq_ended_of_over {p : Task.Phase} (hover : p.Over) (hwhole : p ≠ .failed) : p = .ended := by
  cases p with
  | working | draining => exact hover.elim
  | ended => rfl
  | failed => exact absurd rfl hwhole

/-- A service that was stopped without a failure has no task that failed. -/
theorem InOrder.ended (h : f.InOrder) (hstopped : f.stage = .stopped) (hwhole : f.Whole)
    (t : Component) : f.phase t = .ended := by
  have hover : (f.phase t).Over := h.past t (hstopped ▸ trivial)
  refine eq_ended_of_over hover ?_
  cases t with
  | source => exact hwhole.source
  | tracker => exact mt h.failed hwhole.ledger
  | ledger => exact hwhole.ledger
  | archive => exact hwhole.archive

end Flow

theorem Ledger.eq_foldl_of_leads {l l' : Ledger} {ws : List Ledger.Write}
    (h : Writer.Leads l (ws.map (·.action)) l') : l' = ws.foldl Ledger.apply l := by
  induction ws generalizing l with
  | nil =>
    cases h
    rfl
  | cons w ws ih =>
    cases h with
    | cons hw hs => rw [List.foldl_cons, ← Ledger.action_done hw, ih hs]

theorem Stores.eq_archiveOf_of_leads {records : List Record} {a : Archive}
    (h : Writer.Leads .empty (records.map Archive.insertion) a) : a = archiveOf records := by
  rw [archiveOf, Writer.drain_eq_effect, Writer.current_start, h.effect_eq]
  rfl

namespace Flow

variable {c : Config} {given : List (List Record)} {f : Flow}

/-- What the archive has when it came to its end well. -/
theorem Sound.archive_eq (h : Sound c given f) (hended : f.archive.phase = .ended)
    (hcleaned : f.archive.cleaned = false) :
    f.archive.writer = .start (Stores.archiveOf (f.toArchive.map (·.2))) := by
  obtain ⟨a, hwriter, hleads⟩ := h.archived.leads hended hcleaned
  rw [hwriter]
  exact congrArg _ (Stores.eq_archiveOf_of_leads hleads)

/-- What the ledger has when it and the tracker came to their ends well. -/
theorem Sound.ledger_eq (h : Sound c given f) (htracker : f.tracker.phase = .ended)
    (hended : f.ledger.phase = .ended) :
    ∃ told, TellsAll c.tracker (f.toTracker.map (·.2)) told ∧
      f.ledger.writer = .start (Stores.ledgerAfter told) := by
  obtain ⟨told, htold, hkept⟩ := h.told
  obtain ⟨hclosed, hempty⟩ := htold.ended htracker
  obtain ⟨-, hall⟩ := htold.closed (htracker ▸ nofun) hclosed
  rw [hempty, List.append_nil] at hall
  obtain ⟨l, hwriter, hleads⟩ := hkept.leads hended h.uncleaned
  refine ⟨told, hall, hwriter.trans (congrArg _ ?_)⟩
  have hactions : (told.map Ledger.Job.ofFinding).map (Ledger.duties c).action =
      (told.map (·.write)).map (·.action) := by
    rw [List.map_map, List.map_map]
    rfl
  exact Ledger.eq_foldl_of_leads (hactions ▸ hleads)

/-- **Nothing is lost when the service stops.** Whatever moves were made and whenever stopping began,
the service can come to be stopped without reading on, and well if nothing failed yet and what the
tracker finds out can be written. Once it is stopped, and neither the source nor a store failed and no
cleaning took a line away, every task ended well. What each reader published are the first of its
records, and of each reader the archive was sent the same records in the same order as the tracker. The
archive has one line for each record in the order in which they were published, which for several
readers is the order in which they came to the archive. The ledger is what is written of the findings
about all published records, and then of those when everything is closed, in some order of the messages
that are closed together. -/
theorem stopping_loses_nothing (c : Config) (hgiven : ∀ records ∈ given, NoRelayed records)
    (hreaches : Reaches c (start given) f) :
    (∃ g, Reaches c f g ∧ g.stage = .stopped ∧ g.toTracker = f.toTracker ∧
        (f.Whole →
          (∀ x ∈ findings c.tracker (f.toTracker.map (·.2)), x.write.isPossible = true) → g.Whole)) ∧
      (f.stage = .stopped → f.Whole → f.archive.cleaned = false →
        (∀ t, f.phase t = .ended) ∧
        (∀ i records, given[i]? = some records → recordsOf i f.toTracker <+: records) ∧
        (∀ i, recordsOf i f.toArchive = recordsOf i f.toTracker) ∧
        f.toArchive.Perm f.toTracker ∧
        (given.length ≤ 1 → f.toArchive = f.toTracker) ∧
        f.archive.writer = .start (Stores.archiveOf (f.toArchive.map (·.2))) ∧
        f.archive.writer.committed.lines.rows.map (·.2) =
          f.toArchive.map (Archive.lineOf ·.2) ∧
        ∃ told, TellsAll c.tracker (f.toTracker.map (·.2)) told ∧
          f.ledger.writer = .start (Stores.ledgerAfter told)) := by
  have hsound : Sound c given f := (sound_start c given).reaches hgiven hreaches
  refine ⟨?_, fun hstopped hwhole hcleaned => ?_⟩
  · obtain ⟨g, hg, hstopped, hpublished, -, hwell⟩ := hsound.exists_stopped hgiven
    exact ⟨g, hg, hstopped, hpublished, hwell⟩
  have hended := hsound.order.ended hstopped hwhole
  have hsame := hsound.byReader.recordsOf_eq (hended .source)
  have harchive := hsound.archive_eq (hended .archive) hcleaned
  refine ⟨hended, fun i records hrecords => ?_, hsame, perm_of_recordsOf_eq hsame,
    hsound.byReader.eq_of_one (hended .source), harchive, ?_,
    hsound.ledger_eq (hended .tracker) (hended .ledger)⟩
  · exact hsound.byReader.front hrecords
  · rw [harchive]
    show (Stores.archiveOf _).lines.rows.map (·.2) = _
    rw [Stores.archiveOf_eq, Stores.lines_foldl_add, List.map_map]
    rfl

theorem noRelayed_twiceDeferredTwiceSent : NoRelayed twiceDeferredTwiceSent := by
  intro r hr b
  simp only [twiceDeferredTwiceSent, List.mem_cons, List.not_mem_nil, or_false] at hr
  rcases hr with rfl | rfl | rfl | rfl <;> exact Payload.noConfusion

/-- The archive is cleaned when nothing is in it yet, and stopping begins when the second record is on
its way to the archive and the tracker has not turned to the first one. Both come to the archive, and
what was put off to the ledger. -/
theorem stopping_loses_nothing_whenTwoArePublished :
    ∃ f, Reaches (.default "") (start [twiceDeferredTwiceSent]) f ∧ f.stage = .stopped ∧ f.Whole ∧
      f.archive.cleaned = false ∧
      f.toTracker = [(0, attemptIn 1 .deferred), (0, attemptIn 2 .deferred)] ∧
      f.toArchive = f.toTracker ∧
      f.archive.writer = .start (Stores.archiveOf [attemptIn 1 .deferred, attemptIn 2 .deferred]) ∧
      ∃ told, TellsAll .default [attemptIn 1 .deferred, attemptIn 2 .deferred] told ∧
        f.ledger.writer = .start (Stores.ledgerAfter told) := by
  have hgiven : ∀ records ∈ [twiceDeferredTwiceSent], NoRelayed records := by
    intro records hrecords
    rw [List.mem_singleton.1 hrecords]
    exact noRelayed_twiceDeferredTwiceSent
  obtain ⟨f, hf, hpublished, hwhole, hcleaned⟩ :
      ∃ f, Reaches (.default "") (start [twiceDeferredTwiceSent]) f ∧
        f.toTracker = [(0, attemptIn 1 .deferred), (0, attemptIn 2 .deferred)] ∧ f.Whole ∧
        f.archive.cleaned = false :=
    ⟨_, .head (.archive (.cleanNothing rfl rfl rfl rfl)) <|
      .head (.publish (i := 0) rfl rfl rfl rfl) <|
      .head (.pass (i := 0) rfl rfl rfl ⟨rfl, by decide⟩) <|
      .head (.publish (i := 0) rfl rfl rfl rfl) <| .single (.shutdown rfl),
      rfl, ⟨nofun, nofun, nofun⟩, rfl⟩
  have hpossible : ∀ x ∈ findings .default [attemptIn 1 .deferred, attemptIn 2 .deferred],
      x.write.isPossible = true := by decide
  have hsound : Sound (.default "") [twiceDeferredTwiceSent] f :=
    (sound_start _ _).reaches hgiven hf
  obtain ⟨g, hg, hstopped, hsame, hclean, hwell⟩ := hsound.exists_stopped hgiven
  have hlog : g.toTracker = [(0, attemptIn 1 .deferred), (0, attemptIn 2 .deferred)] :=
    hsame.trans hpublished
  have hwhole' : g.Whole := hwell hwhole (by rw [hpublished]; exact hpossible)
  have hcleaned' : g.archive.cleaned = false := hclean.trans hcleaned
  obtain ⟨-, -, -, -, hone, harchive, -, hledger⟩ :=
    (stopping_loses_nothing (.default "") hgiven (hf.trans hg)).2 hstopped hwhole' hcleaned'
  have horder := hone (Nat.le_refl 1)
  rw [horder, hlog] at harchive
  rw [hlog] at hledger
  exact ⟨g, hf.trans hg, hstopped, hwhole', hcleaned', hlog, horder, harchive, hledger⟩

end Flow

end MailTrace
