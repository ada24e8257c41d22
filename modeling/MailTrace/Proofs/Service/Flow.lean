import Mathlib.Logic.Relation
import MailTrace.Proofs.Service.Replacements
import MailTrace.Proofs.Store.Keeper
import MailTrace.Proofs.Tracker.Closing
import MailTrace.Service.Flow

/-!
# What is on its way

Every move of the flow keeps what was published: it is done, or it waits.

1. A task takes no more only when those that send to it are at their ends, or it failed (`InOrder`).
2. So each record of a reader comes to the tracker and to the archive, in order (`ByReader`), what the
   tracker was sent is what it told of and what waits (`TrackerTask.Faithful`), and what a keeper was
   sent is what it did and what waits (`Keeper.Kept`).
3. All this together is kept by every move and so by every run (`Sound.step`, `Sound.reaches`).
-/

namespace MailTrace

open MailTrace.Tracker

/-! ## The tracker's task -/

namespace TrackerTask

variable {settings : Settings} {records : List Record} {told : List Finding} {t : TrackerTask}

/-- What was sent to the tracker are the records that it told of, in some order of closing, and those
that wait. Of what it has to tell `told` is told already. -/
structure Faithful (settings : Settings) (records : List Record) (told : List Finding)
    (t : TrackerTask) : Prop where
  opened : t.phase = .working → t.closed = false
  running : t.phase ≠ .failed → t.closed = false → ∃ handled, records = handled ++ t.queue ∧
    Tells settings handled t.state (told ++ t.telling)
  closed : t.phase ≠ .failed → t.closed = true → t.queue = [] ∧
    TellsAll settings records (told ++ t.telling)
  ended : t.phase = .ended → t.closed = true ∧ t.telling = []

theorem faithful_start (settings : Settings) : Faithful settings [] [] .start where
  opened _ := rfl
  running _ _ := ⟨[], rfl, .start⟩
  closed _ := nofun
  ended := nofun

theorem faithful_of_failed (h : t.phase = .failed) : Faithful settings records told t where
  opened hphase := nomatch h.symm.trans hphase
  running hphase := absurd h hphase
  closed hphase := absurd h hphase
  ended hphase := nomatch h.symm.trans hphase

@[simp] theorem phase_receive (t : TrackerTask) (r : Record) : (t.receive r).phase = t.phase := by
  unfold receive
  split <;> rfl

theorem Faithful.receive (h : Faithful settings records told t)
    (hphase : t.phase = .working ∨ t.phase = .failed) (r : Record) :
    Faithful settings (records ++ [r]) told (t.receive r) := by
  rcases hphase with hphase | hphase
  · obtain ⟨handled, rfl, htells⟩ := h.running (hphase ▸ nofun) (h.opened hphase)
    rw [TrackerTask.receive, if_pos hphase]
    refine ⟨h.opened, fun _ _ => ⟨handled, List.append_assoc .., htells⟩, fun _ hclosed => ?_,
      fun hended => ?_⟩
    · exact nomatch (h.opened hphase).symm.trans hclosed
    · exact nomatch hphase.symm.trans hended
  · exact faithful_of_failed ((phase_receive t r).trans hphase)

/-- What is told so far is found out from the records that were sent. -/
theorem Faithful.subset_findings (h : Faithful settings records told t) (hphase : t.phase ≠ .failed) :
    told ++ t.telling ⊆ findings settings records := by
  cases hclosed : t.closed with
  | false =>
    obtain ⟨handled, rfl, htells⟩ := h.running hphase hclosed
    exact htells.subset_findings
  | true => exact (h.closed hphase hclosed).2.perm_findings.subset

/-- The next record is told of, and messages are closed after it. -/
theorem Faithful.track (h : Faithful settings records told t) (hactive : t.phase.Active)
    (htold : t.telling = []) {r : Record} {rest : List Record} (hqueue : t.queue = r :: rest)
    {order : List QueueKey} (horder : order.Perm (t.state.closedAfter settings r)) :
    Faithful settings records told { t with
      queue := rest, state := (t.state.handle settings r).1, telling := t.state.tellIn r order } where
  opened := h.opened
  running hphase hclosed := by
    obtain ⟨handled, hrecords, htells⟩ := h.running hphase hclosed
    rw [htold, List.append_nil] at htells
    exact ⟨handled ++ [r], by rw [hrecords, hqueue, List.append_assoc]; rfl, htells.record horder⟩
  closed hphase hclosed := by
    have hempty := (h.closed hphase hclosed).1
    exact nomatch hqueue.symm.trans hempty
  ended hended := absurd hended hactive.ne_ended

/-- A finding is told. -/
theorem Faithful.tell (h : Faithful settings records told t) (hactive : t.phase.Active) {x : Finding}
    {more : List Finding} (htelling : t.telling = x :: more) :
    Faithful settings records (told ++ [x]) { t with telling := more } := by
  have hsame : told ++ t.telling = told ++ [x] ++ more := by
    rw [htelling, List.append_assoc]
    rfl
  exact ⟨h.opened, fun hphase hclosed => hsame ▸ h.running hphase hclosed,
    fun hphase hclosed => hsame ▸ h.closed hphase hclosed,
    fun hended => absurd hended hactive.ne_ended⟩

theorem Faithful.stop (h : Faithful settings records told t) (hphase : t.phase = .working) :
    Faithful settings records told { t with phase := .draining } where
  opened := nofun
  running _ := h.running (hphase ▸ nofun)
  closed _ := h.closed (hphase ▸ nofun)
  ended := nofun

/-- Everything is closed. -/
theorem Faithful.close (h : Faithful settings records told t) (hphase : t.phase = .draining)
    (hopen : t.closed = false) (htold : t.telling = []) (hqueue : t.queue = [])
    {order : List QueueKey} (horder : order.Perm t.state.entries.keys) :
    Faithful settings records told { t with
      state := t.state.closeAll.1, telling := t.state.closeIn order, closed := true } where
  opened hworking := nomatch hphase.symm.trans hworking
  running _ := nofun
  closed _ _ := by
    obtain ⟨handled, hrecords, htells⟩ := h.running (hphase ▸ nofun) hopen
    rw [htold, List.append_nil] at htells
    rw [hqueue, List.append_nil] at hrecords
    exact ⟨hqueue, _, _, order, hrecords ▸ htells, horder, rfl⟩
  ended hended := nomatch hphase.symm.trans hended

theorem Faithful.finish (h : Faithful settings records told t) (hphase : t.phase = .draining)
    (hclosed : t.closed = true) (htold : t.telling = []) :
    Faithful settings records told { t with phase := .ended } where
  opened := nofun
  running _ := h.running (hphase ▸ nofun)
  closed _ := h.closed (hphase ▸ nofun)
  ended _ := ⟨hclosed, htold⟩

end TrackerTask

/-- Only a bounce from a later host is tried again. -/
theorem Ledger.Job.again?_ofFinding {x : Finding} (hx : x.IsTold) (l : Ledger) :
    Ledger.Job.again? l (.ofFinding x) = none := by
  obtain ⟨d, hd⟩ := hx.exists_delivery
  cases x with
  | delivery | replacement => rfl
  | relayedBounce b => cases hd

namespace Flow

variable {c : Config} {given : List (List Record)} {f f' : Flow}

/-! ## The order of stopping -/

theorem past_of_asks {stage : Stage} {t : Component} (h : stage.Asks t) {u : Component}
    (hlt : u.rank < t.rank) : stage.Past u := by
  cases stage with
  | running => exact h.elim
  | stopping d => exact Nat.lt_of_lt_of_le hlt h
  | stopped => trivial

theorem past_after {t u : Component} (h : (Stage.after t).Past u) :
    u = t ∨ (Stage.stopping t).Past u := by
  cases t <;> cases u <;> simp_all [Stage.after, Stage.Past, Component.rank]

/-- A task is waited for until it is at its end, and takes no more only if those that send to it are at
their ends, or it failed. The tracker fails only because the ledger did. -/
structure InOrder (f : Flow) : Prop where
  past : ∀ t, f.stage.Past t → (f.phase t).Over
  source : f.source ≠ .draining
  tracker : f.tracker.phase ≠ .working → f.tracker.phase = .failed ∨ f.source.Over
  failed : f.tracker.phase = .failed → f.ledger.phase = .failed
  ledger : f.ledger.phase ≠ .working → f.ledger.phase = .failed ∨ f.tracker.phase.Over
  archive : f.archive.phase ≠ .working → f.archive.phase = .failed ∨ f.source.Over

theorem inOrder_start (given : List (List Record)) : (start given).InOrder where
  past _ h := h.elim
  source := nofun
  tracker h := absurd rfl h
  failed := nofun
  ledger h := absurd rfl h
  archive h := absurd rfl h

/-- Only where the tasks stand matters. -/
theorem InOrder.of_phase (h : f.InOrder) (hstage : f'.stage = f.stage)
    (hphase : ∀ t, f'.phase t = f.phase t) : f'.InOrder := by
  have hsource : f'.source = f.source := hphase .source
  have htracker : f'.tracker.phase = f.tracker.phase := hphase .tracker
  have hledger : f'.ledger.phase = f.ledger.phase := hphase .ledger
  have harchive : f'.archive.phase = f.archive.phase := hphase .archive
  refine ⟨fun t => ?_, ?_, ?_, ?_, ?_, ?_⟩
  · rw [hstage, hphase]
    exact h.past t
  · rw [hsource]
    exact h.source
  · rw [htracker, hsource]
    exact h.tracker
  · rw [htracker, hledger]
    exact h.failed
  · rw [hledger, htracker]
    exact h.ledger
  · rw [harchive, hsource]
    exact h.archive

/-- What was waited for stays at its end when one task moves. -/
theorem InOrder.past_of_move (h : f.InOrder) (t : Component) (hstage : f'.stage = f.stage)
    (hsame : ∀ u, u ≠ t → f'.phase u = f.phase u) (hover : (f.phase t).Over → (f'.phase t).Over) :
    ∀ u, f'.stage.Past u → (f'.phase u).Over := by
  intro u hpast
  rw [hstage] at hpast
  by_cases hu : u = t
  · subst hu
    exact hover (h.past u hpast)
  · rw [hsame u hu]
    exact h.past u hpast

/-- The source comes to its end. -/
theorem InOrder.endSource (h : f.InOrder) {p : Task.Phase} (hp : p.Over) :
    InOrder { f with source := p } where
  past := by
    refine h.past_of_move .source rfl (fun u hu => ?_) fun _ => hp
    cases u <;> first | rfl | exact absurd rfl hu
  source := by
    rintro rfl
    exact hp
  tracker hphase := (h.tracker hphase).imp_right fun _ => hp
  failed := h.failed
  ledger := h.ledger
  archive hphase := (h.archive hphase).imp_right fun _ => hp

/-- The tracker goes on to its end. -/
theorem InOrder.moveTracker (h : f.InOrder) {t : TrackerTask} (hactive : f.tracker.phase.Active)
    (hsource : t.phase = .failed ∨ f.source.Over)
    (hfailed : t.phase = .failed → f.ledger.phase = .failed) : InOrder { f with tracker := t } where
  past := by
    refine h.past_of_move .tracker rfl (fun u hu => ?_) fun hover => absurd hover hactive.not_over
    cases u <;> first | rfl | exact absurd rfl hu
  source := h.source
  tracker _ := hsource
  failed := hfailed
  ledger hphase := (h.ledger hphase).imp_right fun hover => absurd hover hactive.not_over
  archive := h.archive

/-- The ledger stops taking more only when the tracker is at its end. -/
theorem InOrder.moveLedger (h : f.InOrder) {k : Keeper Ledger Ledger.Job}
    (hstep : f.ledger.Step (Ledger.duties c) (f.stage.Asks .ledger ∨ f.LedgerDeserted) k) :
    InOrder { f with ledger := k } where
  past := by
    refine h.past_of_move .ledger rfl (fun u hu => ?_) fun hover => hstep.over hover
    cases u <;> first | rfl | exact absurd rfl hu
  source := h.source
  tracker := h.tracker
  failed hphase := by
    have hfailed := h.failed hphase
    exact (hstep.phase_of_over (hfailed ▸ trivial)).trans hfailed
  ledger hdeaf := by
    rcases hstep.deaf hdeaf with hfailed | (hasked | hdeserted) | ⟨hbefore, hwhole⟩
    · exact .inl hfailed
    · exact .inr (h.past .tracker (past_of_asks hasked (by decide)))
    · exact .inr hdeserted.1
    · exact .inr ((h.ledger hbefore).resolve_left hwhole)
  archive := h.archive

/-- The archive stops taking more only when the source is at its end. -/
theorem InOrder.moveArchive (h : f.InOrder) {k : Keeper Archive Record}
    (hstep : f.archive.Step (Archive.duties c) (f.stage.Asks .archive) k) :
    InOrder { f with archive := k } where
  past := by
    refine h.past_of_move .archive rfl (fun u hu => ?_) fun hover => hstep.over hover
    cases u <;> first | rfl | exact absurd rfl hu
  source := h.source
  tracker := h.tracker
  failed := h.failed
  ledger := h.ledger
  archive hdeaf := by
    rcases hstep.deaf hdeaf with hfailed | hasked | ⟨hbefore, hwhole⟩
    · exact .inl hfailed
    · exact .inr (h.past .source (past_of_asks hasked (by decide)))
    · exact .inr ((h.archive hbefore).resolve_left hwhole)

/-- The next task is stopped. -/
theorem InOrder.withStage (h : f.InOrder) {stage : Stage}
    (hpast : ∀ t, stage.Past t → (f.phase t).Over) : InOrder { f with stage := stage } :=
  ⟨hpast, h.source, h.tracker, h.failed, h.ledger, h.archive⟩

theorem InOrder.step (h : f.InOrder) (hstep : Step c f f') : f'.InOrder := by
  cases hstep with
  | publish | pass | passRefused | track | tell | trackerCloses =>
    refine h.of_phase rfl fun t => ?_
    cases t <;> first | rfl | exact TrackerTask.phase_receive _ _
  | sourceEnds | sourceFails => exact h.endSource trivial
  | tellRefused hactive _ hdeaf =>
    have hfailed : f.ledger.phase = .failed :=
      (h.ledger hdeaf).resolve_right hactive.not_over
    exact h.moveTracker hactive (.inl rfl) fun _ => hfailed
  | trackerStops hphase _ hasked =>
    exact h.moveTracker (hphase ▸ trivial)
      (.inr (h.past .source (past_of_asks hasked (by decide)))) nofun
  | trackerEnds hphase =>
    have hover : f.source.Over := (h.tracker (hphase ▸ nofun)).resolve_left (hphase ▸ nofun)
    exact h.moveTracker (hphase ▸ trivial) (.inr hover) nofun
  | ledger hstep => exact h.moveLedger hstep
  | archive hstep => exact h.moveArchive hstep
  | shutdown => exact h.withStage fun t hpast => absurd hpast (Nat.not_lt_zero _)
  | next hstage hover =>
    refine h.withStage fun t hpast => ?_
    rcases past_after hpast with rfl | hpast
    · exact hover
    · exact h.past t (hstage ▸ hpast)

/-! ## Records by reader -/

/-- The records of one reader among published ones. -/
def recordsOf (i : Nat) (log : List (Nat × Record)) : List Record :=
  (log.filter (·.1 = i)).map (·.2)

theorem recordsOf_concat_self (i : Nat) (log : List (Nat × Record)) (r : Record) :
    recordsOf i (log ++ [(i, r)]) = recordsOf i log ++ [r] := by
  simp [recordsOf, List.filter_append]

theorem recordsOf_concat_of_ne {i j : Nat} (h : i ≠ j) (log : List (Nat × Record)) (r : Record) :
    recordsOf j (log ++ [(i, r)]) = recordsOf j log := by
  simp [recordsOf, List.filter_append, h]

theorem recordsOf_cons_self (p : Nat × Record) (log : List (Nat × Record)) :
    recordsOf p.1 (p :: log) = p.2 :: recordsOf p.1 log := by
  simp [recordsOf]

theorem recordsOf_cons_of_ne {p : Nat × Record} {i : Nat} (h : p.1 ≠ i) (log : List (Nat × Record)) :
    recordsOf i (p :: log) = recordsOf i log := by
  simp [recordsOf, h]

theorem count_recordsOf (p : Nat × Record) (log : List (Nat × Record)) :
    log.count p = (recordsOf p.1 log).count p.2 := by
  induction log with
  | nil => rfl
  | cons q log ih =>
    by_cases hi : q.1 = p.1
    · rw [← hi, recordsOf_cons_self, hi, List.count_cons, List.count_cons, ih]
      congr 1
      simp [Prod.ext_iff, hi]
    · have hne : (q == p) = false := beq_eq_false_iff_ne.2 fun h => hi (h ▸ rfl)
      rw [recordsOf_cons_of_ne hi, List.count_cons, ih, hne]
      rfl

/-- Logs with the same records of each reader are the same up to order. -/
theorem perm_of_recordsOf_eq {log log' : List (Nat × Record)}
    (h : ∀ i, recordsOf i log = recordsOf i log') : log.Perm log' := by
  refine List.perm_iff_count.2 fun p => ?_
  rw [count_recordsOf, count_recordsOf, h]

/-- The records of a log with one reader are those of that reader. -/
theorem eq_map_recordsOf {i : Nat} {log : List (Nat × Record)} (h : ∀ p ∈ log, p.1 = i) :
    log = (recordsOf i log).map (i, ·) := by
  induction log with
  | nil => rfl
  | cons p log ih =>
    obtain rfl : p.1 = i := h p List.mem_cons_self
    rw [recordsOf_cons_self, List.map_cons, ← ih fun q hq => h q (List.mem_cons_of_mem p hq)]

/-- What each reader published to the tracker are the first of the records that it was given. All of
them but one that is still passing are published to the archive too. -/
structure ByReader (given : List (List Record)) (f : Flow) : Prop where
  length : f.inlets.length = given.length
  tracker : ∀ {i inlet}, f.inlets[i]? = some inlet →
    given[i]? = some (recordsOf i f.toTracker ++ inlet.coming)
  archive : ∀ {i inlet}, f.inlets[i]? = some inlet →
    recordsOf i f.toTracker = recordsOf i f.toArchive ++ inlet.passing.toList
  readers : ∀ p ∈ f.toTracker ++ f.toArchive, p.1 < f.inlets.length
  idle : f.source = .ended → ∀ inlet ∈ f.inlets, inlet.passing = none

theorem byReader_start (given : List (List Record)) : (start given).ByReader given where
  length := List.length_map _
  tracker {i inlet} h := by
    rw [show (start given).inlets[i]? = _ from List.getElem?_map] at h
    obtain ⟨records, hrecords, rfl⟩ := Option.map_eq_some_iff.1 h
    exact hrecords
  archive {i inlet} h := by
    rw [show (start given).inlets[i]? = _ from List.getElem?_map] at h
    obtain ⟨records, -, rfl⟩ := Option.map_eq_some_iff.1 h
    rfl
  readers _ h := absurd h List.not_mem_nil
  idle := nofun

/-- What is at a place after one is set. -/
theorem getElem?_set_cases {α : Type} {l : List α} {i j : Nat} {a b : α}
    (h : (l.set i a)[j]? = some b) : (i = j ∧ b = a) ∨ (i ≠ j ∧ l[j]? = some b) := by
  rw [List.getElem?_set] at h
  by_cases hij : i = j
  · rw [if_pos hij] at h
    split at h
    · exact .inl ⟨hij, (Option.some.inj h).symm⟩
    · cases h
  · rw [if_neg hij] at h
    exact .inr ⟨hij, h⟩

theorem ByReader.publish (h : f.ByReader given) (hsource : f.source = .working) {i : Nat}
    {inlet : Inlet} {r : Record} {rest : List Record} (hinlet : f.inlets[i]? = some inlet)
    (hfree : inlet.passing = none) (hcoming : inlet.coming = r :: rest) (t : TrackerTask) :
    ByReader given { f with
      inlets := f.inlets.set i ⟨rest, some r⟩, tracker := t,
      toTracker := f.toTracker ++ [(i, r)] } where
  length := List.length_set.trans h.length
  tracker {j inlet'} hj := by
    rcases getElem?_set_cases hj with ⟨rfl, rfl⟩ | ⟨hij, hj⟩
    · rw [recordsOf_concat_self, h.tracker hinlet, hcoming, List.append_assoc]
      rfl
    · rw [recordsOf_concat_of_ne hij]
      exact h.tracker hj
  archive {j inlet'} hj := by
    rcases getElem?_set_cases hj with ⟨rfl, rfl⟩ | ⟨hij, hj⟩
    · rw [recordsOf_concat_self, h.archive hinlet, hfree]
      simp
    · rw [recordsOf_concat_of_ne hij]
      exact h.archive hj
  readers p hp := by
    rw [List.length_set]
    have hi : i < f.inlets.length := (List.getElem?_eq_some_iff.1 hinlet).1
    rcases List.mem_append.1 hp with hp | hp
    · rcases List.mem_append.1 hp with hp | hp
      · exact h.readers p (List.mem_append_left _ hp)
      · rw [List.mem_singleton.1 hp]
        exact hi
    · exact h.readers p (List.mem_append_right _ hp)
  idle hended := nomatch hsource.symm.trans hended

theorem ByReader.pass (h : f.ByReader given) (hsource : f.source = .working) {i : Nat}
    {inlet : Inlet} {r : Record} (hinlet : f.inlets[i]? = some inlet)
    (hpassing : inlet.passing = some r) (k : Keeper Archive Record) :
    ByReader given { f with
      inlets := f.inlets.set i { inlet with passing := none }, archive := k,
      toArchive := f.toArchive ++ [(i, r)] } where
  length := List.length_set.trans h.length
  tracker {j inlet'} hj := by
    rcases getElem?_set_cases hj with ⟨rfl, rfl⟩ | ⟨-, hj⟩
    · have hbefore := h.tracker hinlet
      exact hbefore
    · exact h.tracker hj
  archive {j inlet'} hj := by
    rcases getElem?_set_cases hj with ⟨rfl, rfl⟩ | ⟨hij, hj⟩
    · rw [recordsOf_concat_self, h.archive hinlet, hpassing]
      simp
    · rw [recordsOf_concat_of_ne hij]
      exact h.archive hj
  readers p hp := by
    rw [List.length_set]
    have hi : i < f.inlets.length := (List.getElem?_eq_some_iff.1 hinlet).1
    rcases List.mem_append.1 hp with hp | hp
    · exact h.readers p (List.mem_append_left _ hp)
    · rcases List.mem_append.1 hp with hp | hp
      · exact h.readers p (List.mem_append_right _ hp)
      · rw [List.mem_singleton.1 hp]
        exact hi
  idle hended := nomatch hsource.symm.trans hended

theorem ByReader.step (h : f.ByReader given) (hstep : Step c f f') : f'.ByReader given := by
  cases hstep with
  | publish hsource hinlet hfree hcoming => exact h.publish hsource hinlet hfree hcoming _
  | pass hsource hinlet hpassing => exact h.pass hsource hinlet hpassing _
  | passRefused hsource hinlet hpassing => exact h.pass hsource hinlet hpassing f.archive
  | sourceEnds _ hidle => exact ⟨h.length, h.tracker, h.archive, h.readers, fun _ => hidle⟩
  | sourceFails => exact ⟨h.length, h.tracker, h.archive, h.readers, nofun⟩
  | track | tell | tellRefused | trackerStops | trackerCloses | trackerEnds | ledger | archive
  | shutdown | next => exact ⟨h.length, h.tracker, h.archive, h.readers, h.idle⟩

/-- A published record is one that its reader was given. -/
theorem ByReader.exists_given (h : f.ByReader given) {p : Nat × Record} (hp : p ∈ f.toTracker) :
    ∃ records ∈ given, p.2 ∈ records := by
  have hi : p.1 < f.inlets.length := h.readers p (List.mem_append_left _ hp)
  have hrecords := h.tracker (List.getElem?_eq_getElem hi)
  refine ⟨_, List.mem_of_getElem? hrecords, List.mem_append_left _ ?_⟩
  exact List.mem_map_of_mem (List.mem_filter.2 ⟨hp, decide_eq_true rfl⟩)

theorem ByReader.noRelayed (h : f.ByReader given) (hgiven : ∀ records ∈ given, NoRelayed records) :
    NoRelayed (f.toTracker.map (·.2)) := by
  intro r hr
  obtain ⟨p, hp, rfl⟩ := List.mem_map.1 hr
  obtain ⟨records, hrecords, hmem⟩ := h.exists_given hp
  exact hgiven records hrecords p.2 hmem

/-- What a reader published are the first of its records. -/
theorem ByReader.front (h : f.ByReader given) {i : Nat} {records : List Record}
    (hrecords : given[i]? = some records) : recordsOf i f.toTracker <+: records := by
  have hi : i < f.inlets.length := h.length ▸ (List.getElem?_eq_some_iff.1 hrecords).1
  have hinlet := h.tracker (List.getElem?_eq_getElem hi)
  rw [hrecords] at hinlet
  exact ⟨_, (Option.some.inj hinlet).symm⟩

/-- Once the source ended, each reader published to the archive what it published to the tracker. -/
theorem ByReader.recordsOf_eq (h : f.ByReader given) (hended : f.source = .ended) (i : Nat) :
    recordsOf i f.toArchive = recordsOf i f.toTracker := by
  by_cases hi : i < f.inlets.length
  · have hinlet := List.getElem?_eq_getElem hi
    rw [h.archive hinlet, h.idle hended _ (List.getElem_mem hi)]
    exact (List.append_nil _).symm
  · have hnone {log : List (Nat × Record)} (hlog : log ⊆ f.toTracker ++ f.toArchive) :
        recordsOf i log = [] := by
      refine List.map_eq_nil_iff.2 (List.filter_eq_nil_iff.2 fun p hp hpi => hi ?_)
      exact of_decide_eq_true hpi ▸ h.readers p (hlog hp)
    rw [hnone (List.subset_append_right _ _), hnone (List.subset_append_left _ _)]

/-- With one reader the archive gets the records in the order in which the tracker gets them. -/
theorem ByReader.eq_of_one (h : f.ByReader given) (hended : f.source = .ended)
    (hone : given.length ≤ 1) : f.toArchive = f.toTracker := by
  have hfirst : ∀ p ∈ f.toTracker ++ f.toArchive, p.1 = 0 := fun p hp => by
    have hi := h.readers p hp
    have hlength := h.length
    omega
  rw [eq_map_recordsOf fun p hp => hfirst p (List.mem_append_left _ hp), ← h.recordsOf_eq hended 0]
  exact eq_map_recordsOf fun p hp => hfirst p (List.mem_append_right _ hp)

/-! ## What every move keeps -/

/-- In a sound state nothing that was published is lost. -/
structure Sound (c : Config) (given : List (List Record)) (f : Flow) : Prop where
  order : f.InOrder
  byReader : f.ByReader given
  uncleaned : f.ledger.cleaned = false
  told : ∃ told, f.tracker.Faithful c.tracker (f.toTracker.map (·.2)) told ∧
    f.ledger.Kept (Ledger.duties c) .empty (told.map .ofFinding)
  archived : f.archive.Kept (Archive.duties c) .empty (f.toArchive.map (·.2))

theorem sound_start (c : Config) (given : List (List Record)) : Sound c given (start given) where
  order := inOrder_start given
  byReader := byReader_start given
  uncleaned := rfl
  told := ⟨[], TrackerTask.faithful_start c.tracker, Keeper.kept_start _ _⟩
  archived := Keeper.kept_start _ _

/-- Every move keeps a state sound. -/
theorem Sound.step (h : Sound c given f) (hgiven : ∀ records ∈ given, NoRelayed records)
    (hstep : Step c f f') : Sound c given f' := by
  have horder := h.order.step hstep
  have hreader := h.byReader.step hstep
  obtain ⟨told, htold, hkept⟩ := h.told
  cases hstep with
  | publish hsource =>
    have hphase : f.tracker.phase = .working ∨ f.tracker.phase = .failed := by
      by_cases hworking : f.tracker.phase = .working
      · exact .inl hworking
      · refine .inr ((h.order.tracker hworking).resolve_right ?_)
        rw [hsource]
        exact id
    refine ⟨horder, hreader, h.uncleaned, ⟨told, ?_, hkept⟩, h.archived⟩
    rw [List.map_append]
    exact htold.receive hphase _
  | pass _ _ _ hroom =>
    refine ⟨horder, hreader, h.uncleaned, ⟨told, htold, hkept⟩, ?_⟩
    rw [List.map_append]
    exact h.archived.push hroom.1 fun _ => rfl
  | passRefused hsource _ _ hdeaf =>
    have hfailed : f.archive.phase = .failed := by
      refine (h.order.archive hdeaf).resolve_right ?_
      rw [hsource]
      exact id
    exact ⟨horder, hreader, h.uncleaned, ⟨told, htold, hkept⟩, h.archived.of_failed hfailed _⟩
  | track hactive hempty hqueue hclosing =>
    exact ⟨horder, hreader, h.uncleaned, ⟨told, htold.track hactive hempty hqueue hclosing, hkept⟩,
      h.archived⟩
  | tell hactive htelling hroom =>
    rename_i x more
    have hwhole : f.tracker.phase ≠ .failed := fun hfailed => by
      rw [hfailed] at hactive
      exact hactive
    have hx : x ∈ told ++ f.tracker.telling :=
      List.mem_append_right _ (htelling ▸ List.mem_cons_self)
    have htoldOf : x.IsTold :=
      isTold_of_mem_findings (h.byReader.noRelayed hgiven) (htold.subset_findings hwhole hx)
    refine ⟨horder, hreader, h.uncleaned, ⟨told ++ [x], htold.tell hactive htelling, ?_⟩, h.archived⟩
    rw [List.map_append]
    exact hkept.push hroom.1 (Ledger.Job.again?_ofFinding htoldOf)
  | tellRefused =>
    exact ⟨horder, hreader, h.uncleaned, ⟨told, TrackerTask.faithful_of_failed rfl, hkept⟩, h.archived⟩
  | trackerStops hphase =>
    exact ⟨horder, hreader, h.uncleaned, ⟨told, htold.stop hphase, hkept⟩, h.archived⟩
  | trackerCloses hphase hopen hempty hqueue hclosing =>
    exact ⟨horder, hreader, h.uncleaned,
      ⟨told, htold.close hphase hopen hempty hqueue hclosing, hkept⟩, h.archived⟩
  | trackerEnds hphase hclosed hempty =>
    exact ⟨horder, hreader, h.uncleaned, ⟨told, htold.finish hphase hclosed hempty, hkept⟩, h.archived⟩
  | ledger hstep =>
    exact ⟨horder, hreader, (hstep.cleaned_eq rfl).trans h.uncleaned, ⟨told, htold, hkept.step hstep⟩,
      h.archived⟩
  | archive hstep =>
    exact ⟨horder, hreader, h.uncleaned, ⟨told, htold, hkept⟩, h.archived.step hstep⟩
  | sourceEnds | sourceFails | shutdown | next =>
    exact ⟨horder, hreader, h.uncleaned, ⟨told, htold, hkept⟩, h.archived⟩

/-- What is reached from a state by moves. -/
abbrev Reaches (c : Config) : Flow → Flow → Prop := Relation.ReflTransGen (Step c)

theorem Sound.reaches (h : Sound c given f) (hgiven : ∀ records ∈ given, NoRelayed records)
    (hreaches : Reaches c f f') : Sound c given f' := by
  induction hreaches with
  | refl => exact h
  | tail _ hstep ih => exact ih.step hgiven hstep

end Flow

end MailTrace
