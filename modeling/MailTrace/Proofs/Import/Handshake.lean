import Mathlib.Logic.Relation
import MailTrace.Import.Handshake

/-!
# What two tasks publish

However the moves of the two tasks are chosen, they publish what one loop over the lines would.

1. The reference is a transformer run over all texts, of whose results the records are kept
   (`reference`), each where its source found it unless it names a file itself (`located`). A line that
   is taken adds to the published records what it takes from the reference of the lines still to come
   (`published_take?`).
2. The two tasks take turns (`Turn`), so no line is lost while the taker listens, and what was
   published goes on as the reference of what is coming (`Ordered`). Every move keeps it so.
3. A move is possible until the taker is at its end, and each takes from a measure of what is left to
   do (`weight_step`), so no run is stuck and none goes on forever.
-/

namespace MailTrace.Import

open MailTrace.Time

/-! ## One loop over the lines -/

/-- A line does not break the reading off. -/
def continues : Except FormatFault Record → Bool
  | .ok _ => true
  | .error fault => !fault.breaksOff

/-- A record of a line that its source found at a place: the record keeps its own place if it names a
file, and takes the place of the source if there is one. -/
def located (r : Record) (found : Option Location) : Record :=
  { r with location := if r.location.file = "unknown" then found.getD r.location else r.location }

theorem place_eq_located (r : Record) (found : Option Location) :
    Reader.place r found = located r found := by
  unfold located
  cases found with
  | none => rw [Option.getD_none, ite_self, Reader.place]
  | some l =>
    rw [Reader.place, Option.getD_some]
    by_cases hfile : r.location.file = "unknown"
    · rw [if_pos hfile]
      exact if_pos hfile
    · rw [if_neg hfile]
      exact if_neg hfile

/-- The record of a line that is not refused. -/
def recordAt? (result : Except FormatFault Record) (line : SourceLine) : Option Record :=
  result.toOption.map (located · line.location)

/-- The records of lines that a transformer reads one after the other. -/
def reference (t : Transformer) (lines : List SourceLine) : List Record :=
  (((t.transformAll (lines.map (·.text))).zip lines).takeWhile (continues ·.1)).filterMap
    fun (result, line) => recordAt? result line

/-- The records among some events. -/
def published (events : List Event) : List Record :=
  events.filterMap fun e => match e with
    | .published r => some r
    | .announced _ => none

@[simp] theorem published_append (events more : List Event) :
    published (events ++ more) = published events ++ published more := List.filterMap_append

@[simp] theorem published_announced (as : List Announcement) : published (as.map .announced) = [] := by
  unfold published
  rw [List.filterMap_map]
  exact List.filterMap_eq_nil_iff.2 fun _ _ => rfl

theorem published_events (t : Trace) : published t.events = t.records := by
  unfold published Trace.events Trace.records
  rw [List.filterMap_map]
  rfl

@[simp] theorem events_announce (now : Duration) (as : List Announcement) :
    (announce now as).events = as.map .announced := by
  unfold announce Trace.events
  rw [List.map_map]
  rfl

theorem reference_of_ok {t t' : Transformer} {line : SourceLine} {record : Record}
    (h : t.transform line.text.toList = (.ok record, t')) (lines : List SourceLine) :
    reference t (line :: lines) = located record line.location :: reference t' lines := by
  unfold reference
  rw [List.map_cons, Transformer.transformAll, h]
  rfl

theorem reference_of_error {t t' : Transformer} {line : SourceLine} {fault : FormatFault}
    (h : t.transform line.text.toList = (.error fault, t')) (lines : List SourceLine) :
    reference t (line :: lines) = if fault.breaksOff then [] else reference t' lines := by
  unfold reference
  rw [List.map_cons, Transformer.transformAll, h]
  dsimp only
  rw [List.zip_cons_cons, List.takeWhile_cons]
  show List.filterMap _ (if (!fault.breaksOff) = true then _ else _) = _
  cases fault.breaksOff <;> rfl

section Take

variable {r r' : Reader} {line : SourceLine} {taken : Trace}

theorem take?_of_ok {t : Transformer} {record : Record}
    (h : r.transformer.transform line.text.toList = (.ok record, t)) :
    r.take? line = some
      (⟨t, (r.progress.record (located record line.location).time).1, r.now, some r.now⟩,
        (r.now, .published (located record line.location)) ::
          announce r.now (r.progress.record (located record line.location).time).2) := by
  unfold Reader.take?
  rw [h, ← place_eq_located]

theorem take?_of_error {t : Transformer} {fault : FormatFault}
    (h : r.transformer.transform line.text.toList = (.error fault, t)) :
    r.take? line = if fault.breaksOff then none else some ({ r with transformer := t }, []) := by
  unfold Reader.take?
  rw [h]

/-- A line that does not break the reading off is refused, or a record of it is published. -/
theorem take?_cases (h : r.take? line = some (r', taken)) :
    (∃ t, r' = { r with transformer := t } ∧ taken = []) ∨
      ∃ t record, r' = ⟨t, (r.progress.record record.time).1, r.now, some r.now⟩ ∧
        taken = (r.now, .published record) ::
          announce r.now (r.progress.record record.time).2 := by
  cases htransform : r.transformer.transform line.text.toList with
  | mk result t =>
    cases result with
    | ok record =>
      rw [take?_of_ok htransform] at h
      cases h
      exact .inr ⟨t, _, rfl, rfl⟩
    | error fault =>
      rw [take?_of_error htransform] at h
      split at h
      · cases h
      · cases h
        exact .inl ⟨t, rfl, rfl⟩

/-- A line that is taken publishes what it takes from the reference of the lines still to come. -/
theorem published_take? (h : r.take? line = some (r', taken)) (lines : List SourceLine) :
    published taken.events ++ reference r'.transformer lines =
      reference r.transformer (line :: lines) := by
  cases htransform : r.transformer.transform line.text.toList with
  | mk result t =>
    cases result with
    | ok record =>
      rw [take?_of_ok htransform] at h
      cases h
      rw [reference_of_ok htransform]
      show located record line.location :: (published (Trace.events (announce ..)) ++ _) = _
      rw [events_announce, published_announced]
      rfl
    | error fault =>
      rw [take?_of_error htransform] at h
      rw [reference_of_error htransform]
      split at h
      · cases h
      · rename_i hgoesOn
        cases h
        rw [if_neg hgoesOn]
        rfl

theorem reference_of_take?_eq_none (h : r.take? line = none) (lines : List SourceLine) :
    reference r.transformer (line :: lines) = [] := by
  cases htransform : r.transformer.transform line.text.toList with
  | mk result t =>
    cases result with
    | ok record =>
      rw [take?_of_ok htransform] at h
      cases h
    | error fault =>
      rw [take?_of_error htransform] at h
      rw [reference_of_error htransform]
      split at h
      · rename_i hbreaks
        rw [if_pos hbreaks]
      · cases h

theorem ended_record {p : Progress} (hended : p.ended = true) (time : Instant) :
    (p.record time).1.ended = true := by
  unfold Progress.record Progress.advance
  cases p.first with
  | some first => simp [hended]
  | none => simp [hended]

/-- The end of an import is not taken back. -/
theorem ended_take? (h : r.take? line = some (r', taken)) (hended : r.progress.ended = true) :
    r'.progress.ended = true := by
  obtain ⟨_, rfl, rfl⟩ | ⟨_, _, rfl, rfl⟩ := take?_cases h
  · exact hended
  · exact ended_record hended _

end Take

theorem published_close (r : Reader) (ending : Ending) : published (r.close ending).1.events = [] := by
  unfold Reader.close
  cases ending with
  | exhausted => rw [events_announce, published_announced]
  | failed cause =>
    dsimp only
    split
    · rw [events_announce, published_announced]
    · rfl

/-! ## Turns -/

namespace Handshake

/-- Whose turn it is while the taker listens, and what is on its way. -/
inductive Turn : Scanner → Option SourceLine → Bool → Taker → Prop where
  | asking : Turn .asking none false .selecting
  | sending (line : SourceLine) : Turn (.sending line) none false .selecting
  | sent (line : SourceLine) : Turn .waiting (some line) false .selecting
  | replying : Turn .waiting none false .replying
  | replied : Turn .waiting none true .selecting
  | ended (ending : Ending) : Turn (.ended ending) none false .selecting

theorem Turn.listens {scanner : Scanner} {sent : Option SourceLine} {replied : Bool} {taker : Taker}
    (h : Turn scanner sent replied taker) : taker.Listens := by
  cases h <;> trivial

/-- The line that a scanner has in hand. -/
def inHand : Scanner → List SourceLine
  | .sending line => [line]
  | .asking | .waiting | .ended _ => []

/-- The lines that are still to be taken, if the taker goes on. -/
def coming (h : Handshake) : List SourceLine := h.sent.toList ++ inHand h.scanner ++ h.source

/-- What was published, against the reference. -/
inductive Ordered (t : Transformer) (lines : List SourceLine) (h : Handshake) : Prop where
  /-- While the taker listens it goes on as the reference of the lines that are coming. -/
  | listening (hturn : Turn h.scanner h.sent h.replied h.taker)
      (hdrained : ∀ ending, h.scanner = .ended ending → h.cancelled = false → h.source = [])
      (hahead : published h.events ++ reference h.transformer h.coming = reference t lines)
  | deaf (hdeaf : ¬ h.taker.Listens) (hfront : published h.events <+: reference t lines)
      (hwhole : h.cancelled = false → published h.events = reference t lines)

variable {t : Transformer} {lines : List SourceLine} {h h' : Handshake}

theorem ordered_start (t : Transformer) (clock : Instant) (lines : List SourceLine) (ending : Ending) :
    Ordered t lines (start t clock lines ending) := .listening .asking nofun rfl

/-- A taker that does not listen publishes no more and listens no more. -/
theorem deaf_step (hdeaf : ¬ h.taker.Listens) (hstep : Step h h') :
    ¬ h'.taker.Listens ∧ published h'.events = published h.events ∧
      (h'.cancelled = false → h.cancelled = false) := by
  cases hstep with
  | cancel => exact ⟨hdeaf, rfl, nofun⟩
  | scanLine | scanEnd | scanStopped | sendRefused | takeReply | replyRefused =>
    exact ⟨hdeaf, rfl, id⟩
  | send _ _ hlistens => exact absurd hlistens hdeaf
  | stop htaker | stopAtEnd htaker | take _ _ htaker | breakOff _ _ htaker | silence htaker
  | reply htaker | stopAtReply htaker =>
    rw [htaker] at hdeaf
    exact absurd trivial hdeaf
  | close now lastRecord =>
    refine ⟨id, ?_, id⟩
    rw [published_append, published_close, List.append_nil]
  | closeCancelled => exact ⟨id, rfl, id⟩

theorem ordered_step_of_turn (hturn : Turn h.scanner h.sent h.replied h.taker)
    (hdrained : ∀ ending, h.scanner = .ended ending → h.cancelled = false → h.source = [])
    (hahead : published h.events ++ reference h.transformer h.coming = reference t lines)
    (hstep : Step h h') : Ordered t lines h' := by
  obtain ⟨source, ending, scanner, sent, replied, taker, cancelled, transformer, progress, events⟩ :=
    h
  cases hstep with
  | cancel => exact .listening hturn (fun _ _ hcancelled => (by cases hcancelled)) hahead
  | scanLine hscanner hsource =>
    cases hscanner
    cases hsource
    cases hturn
    exact .listening (.sending _) nofun hahead
  | scanEnd hscanner hsource =>
    cases hscanner
    cases hsource
    cases hturn
    exact .listening (.ended ending) (fun _ _ _ => rfl) hahead
  | scanStopped hscanner hstop =>
    cases hscanner
    cases hturn
    refine .listening (.ended .exhausted) (fun _ _ hgoing => ?_) hahead
    rcases hstop with hcancelled | hstopping
    · exact absurd (hcancelled.symm.trans hgoing) nofun
    · cases hstopping
  | send hscanner hroom hlistens =>
    cases hscanner
    cases hturn
    exact .listening (.sent _) nofun hahead
  | sendRefused _ hdeaf => exact absurd hturn.listens hdeaf
  | takeReply hscanner hreplied =>
    cases hscanner
    cases hreplied
    cases hturn
    exact .listening .asking nofun hahead
  | replyRefused _ _ hdeaf => exact absurd hturn.listens hdeaf
  | stop htaker hcancelled =>
    exact .deaf id ⟨_, hahead⟩ fun hgoing => absurd (hcancelled.symm.trans hgoing) nofun
  | stopAtEnd htaker hsent hscanner =>
    cases hscanner
    cases hsent
    refine .deaf id ⟨_, hahead⟩ fun hgoing => ?_
    -- the source is drained, so nothing of the reference is left
    obtain rfl : source = [] := hdrained _ rfl hgoing
    exact (List.append_nil _).symm.trans hahead
  | take now lastRecord htaker hsent htake =>
    cases hsent
    cases hturn
    refine .listening .replying nofun ?_
    rw [published_append, List.append_assoc]
    exact (congrArg (published events ++ ·) (published_take? htake source)).trans hahead
  | breakOff now lastRecord htaker hsent htake =>
    cases hsent
    cases hturn
    have hnone := reference_of_take?_eq_none htake source
    have hall : published events = reference t lines :=
      (List.append_nil _).symm.trans ((congrArg (published events ++ ·) hnone.symm).trans hahead)
    exact .deaf id ⟨[], (List.append_nil _).trans hall⟩ fun _ => hall
  | silence htaker hfirst hended =>
    refine .listening hturn hdrained ?_
    rw [published_append, published_announced, List.append_nil]
    exact hahead
  | reply htaker hroom hscanner =>
    cases htaker
    cases hturn
    exact .listening .replied nofun hahead
  | stopAtReply htaker hscanner =>
    cases htaker
    cases hscanner
    cases hturn
  | close now lastRecord htaker =>
    cases htaker
    cases hturn
  | closeCancelled htaker =>
    cases htaker
    cases hturn

/-- Every move keeps the order. -/
theorem Ordered.step (hord : Ordered t lines h) (hstep : Step h h') : Ordered t lines h' := by
  cases hord with
  | listening hturn hdrained hahead => exact ordered_step_of_turn hturn hdrained hahead hstep
  | deaf hdeaf hfront hwhole =>
    obtain ⟨hdeaf', hsame, hgoing⟩ := deaf_step hdeaf hstep
    exact .deaf hdeaf' (hsame ▸ hfront) fun hc => hsame.trans (hwhole (hgoing hc))

/-- What is reached from a state by moves. -/
abbrev Reaches : Handshake → Handshake → Prop := Relation.ReflTransGen Step

theorem Ordered.reaches (hord : Ordered t lines h) (hreaches : Reaches h h') :
    Ordered t lines h' := by
  induction hreaches with
  | refl => exact hord
  | tail _ hstep ih => exact ih.step hstep

theorem Ordered.front (hord : Ordered t lines h) : published h.events <+: reference t lines := by
  cases hord with
  | listening _ _ hahead => exact ⟨_, hahead⟩
  | deaf _ hfront _ => exact hfront

/-! ## No run is stuck, and none goes on forever -/

/-- The taker is at its end. -/
def Over (h : Handshake) : Prop := h.taker.result?.isSome = true

theorem exists_step_of_turn (hturn : Turn h.scanner h.sent h.replied h.taker) :
    ∃ h', Step h h' ∧ h'.cancelled = h.cancelled := by
  obtain ⟨source, ending, scanner, sent, replied, taker, cancelled, transformer, progress, events⟩ :=
    h
  cases hturn with
  | asking =>
    cases source with
    | nil => exact ⟨_, .scanEnd rfl rfl, rfl⟩
    | cons line rest => exact ⟨_, .scanLine rfl rfl, rfl⟩
  | sending line => exact ⟨_, .send rfl rfl trivial, rfl⟩
  | sent line =>
    cases htake : Reader.take? ⟨transformer, progress, 0, none⟩ line with
    | none => exact ⟨_, .breakOff 0 none rfl rfl htake, rfl⟩
    | some taken => exact ⟨_, .take 0 none rfl rfl htake, rfl⟩
  | replying => exact ⟨_, .reply rfl rfl nofun, rfl⟩
  | replied => exact ⟨_, .takeReply rfl rfl, rfl⟩
  | ended ending => exact ⟨_, .stopAtEnd rfl rfl rfl, rfl⟩

theorem exists_step_of_stopping (htaker : h.taker = .stopping) :
    ∃ h', Step h h' ∧ h'.cancelled = h.cancelled := by
  have hdeaf : ¬ h.taker.Listens := by
    rw [htaker]
    exact id
  cases hscanner : h.scanner with
  | asking => exact ⟨_, .scanStopped hscanner (.inr htaker), rfl⟩
  | sending line => exact ⟨_, .sendRefused hscanner hdeaf, rfl⟩
  | waiting =>
    cases hreplied : h.replied with
    | true => exact ⟨_, .takeReply hscanner hreplied, rfl⟩
    | false => exact ⟨_, .replyRefused hscanner hreplied hdeaf, rfl⟩
  | ended ending =>
    cases hcancelled : h.cancelled with
    | true => exact ⟨_, .closeCancelled htaker hscanner hcancelled, hcancelled⟩
    | false => exact ⟨_, .close 0 none htaker hscanner hcancelled, hcancelled⟩

/-- A move is possible until the taker is at its end, and it need not be the cancelling. -/
theorem Ordered.exists_step (hord : Ordered t lines h) (hgoing : ¬ h.Over) :
    ∃ h', Step h h' ∧ h'.cancelled = h.cancelled := by
  cases hord with
  | listening hturn => exact exists_step_of_turn hturn
  | deaf hdeaf =>
    cases htaker : h.taker with
    | selecting | replying =>
      rw [htaker] at hdeaf
      exact absurd trivial hdeaf
    | stopping => exact exists_step_of_stopping htaker
    | brokenOff | returned result =>
      unfold Over at hgoing
      rw [htaker] at hgoing
      exact absurd rfl hgoing

def scannerWeight : Scanner → Nat
  | .asking => 2
  | .sending _ => 7
  | .waiting => 2
  | .ended _ => 0

def takerWeight : Taker → Nat
  | .selecting => 2
  | .replying => 4
  | .stopping => 1
  | .brokenOff | .returned _ => 0

/-- An import that goes on can still end. -/
def openWeight (p : Progress) : Nat := if p.ended then 0 else 1

theorem openWeight_le {p q : Progress} (h : p.ended = true → q.ended = true) :
    openWeight q ≤ openWeight p := by
  unfold openWeight
  cases hended : p.ended with
  | true => simp [h hended]
  | false =>
    split
    · exact Nat.zero_le _
    · exact Nat.le_refl 1

/-- What is left to do. A line weighs six, of which five stay when it is sent, four when it is taken
and three when it is replied to. -/
def weight (h : Handshake) : Nat :=
  6 * h.source.length + scannerWeight h.scanner + (if h.sent.isSome then 3 else 0) +
    (if h.replied then 1 else 0) + takerWeight h.taker + (if h.cancelled then 0 else 1) +
    openWeight h.progress

theorem weight_step (hstep : Step h h') : h'.weight < h.weight := by
  unfold weight
  cases hstep with
  | cancel hcancelled => simp [hcancelled]
  | scanLine hscanner hsource =>
    simp only [hscanner, hsource, List.length_cons, scannerWeight]
    omega
  | scanEnd hscanner | scanStopped hscanner | sendRefused hscanner | replyRefused hscanner =>
    simp only [hscanner, scannerWeight]
    omega
  | send hscanner hroom =>
    simp only [hscanner, hroom, scannerWeight, Option.isSome_some, Option.isSome_none, if_true]
    simp
  | takeReply hscanner hreplied =>
    simp only [hscanner, hreplied, scannerWeight]
    simp
  | stop htaker | stopAtEnd htaker | stopAtReply htaker | close _ _ htaker | closeCancelled htaker =>
    simp only [htaker, takerWeight]
    omega
  | take now lastRecord htaker hsent htake =>
    have hended := ended_take? htake
    have hle := openWeight_le hended
    simp only [htaker, hsent, takerWeight, Option.isSome_some, Option.isSome_none, if_true,
      Bool.false_eq_true, if_false]
    have hreader : openWeight (h.reader now lastRecord).progress = openWeight h.progress := rfl
    omega
  | breakOff _ _ htaker hsent =>
    simp only [htaker, hsent, takerWeight, Option.isSome_some, Option.isSome_none, if_true,
      Bool.false_eq_true, if_false]
    omega
  | silence htaker hfirst hended =>
    have hopen : openWeight h.progress = 1 := if_neg (by simp [hended])
    have hclosed : openWeight (h.progress.finishAt h.progress.endTime).1 = 0 := rfl
    simp only [hopen, hclosed]
    omega
  | reply htaker hroom =>
    simp only [htaker, hroom, takerWeight]
    simp

/-- No run goes on forever. -/
theorem wellFounded_step : WellFounded fun h' h : Handshake => Step h h' :=
  Subrelation.wf weight_step (measure weight).wf

end Handshake

end MailTrace.Import
