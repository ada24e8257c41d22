import MailTrace.Proofs.Import.Timing
import MailTrace.Proofs.Source.Streams
import MailTrace.Source.Serving

/-!
# A connection is read as if all its octets were there

1. A move of two tasks does not look at their source unless the scanner asks it (`step_source`,
   `asks_of_step`), only adds events (`step_appends`) and keeps what was announced in order
   (`announced_of_reaches`).
2. The lines that a connection has yet to give are those of what arrived and what is arriving
   (`unread`), wherever the pieces are cut. With them for a source the two tasks of the connection are
   two tasks that read it alone (`alone`).
3. A move of a connection is no move of those, or one (`Sound.reaches_alone`), and once everything
   arrived each of their moves can be made (`Sound.realizes`).
-/

namespace MailTrace

open MailTrace.Text

namespace Import

/-! ## What is announced -/

@[simp] theorem announced_append (events more : List Event) :
    announced (events ++ more) = announced events ++ announced more := List.filterMap_append

@[simp] theorem announced_announced (as : List Announcement) : announced (as.map .announced) = as := by
  unfold announced
  rw [List.filterMap_map]
  exact List.filterMap_some

theorem announced_events (t : Trace) : announced t.events = t.announcements := by
  unfold announced Trace.events Trace.announcements
  rw [List.filterMap_map]
  rfl

/-- An import starts. -/
def Announcement.starts : Announcement → Bool
  | .start _ => true
  | .step _ => false

/-- An import ends. -/
def Announcement.finishes : Announcement → Bool
  | .start _ => false
  | .step s => s.finished

theorem Going.counts {percents : List Int} {as : List Announcement} (h : Going percents as) :
    as.countP (·.starts) = 1 ∧ as.countP (·.finishes) = 0 := by
  obtain ⟨time, steps, hgoing, -, rfl⟩ := h.shape
  constructor
  · have hsteps : (steps.map Announcement.step).countP (·.starts) = 0 := by
      rw [List.countP_map]
      exact List.countP_eq_zero.2 fun _ _ => Bool.false_ne_true
    rw [List.countP_cons, hsteps]
    rfl
  · have hsteps : (steps.map Announcement.step).countP (·.finishes) = 0 := by
      rw [List.countP_map]
      exact List.countP_eq_zero.2 fun s hs => ne_true_of_eq_false (hgoing s hs)
    rw [List.countP_cons, hsteps]
    rfl

/-- There is one start and one finished step at most. -/
theorem Announced.counts {as : List Announcement} (h : Announced as) :
    as.countP (·.starts) ≤ 1 ∧ as.countP (·.finishes) ≤ 1 := by
  rcases h with rfl | ⟨percents, hgoing⟩ | ⟨percents, before, time, hgoing, rfl⟩
  · exact ⟨Nat.zero_le _, Nat.zero_le _⟩
  · obtain ⟨hstarts, hfinishes⟩ := hgoing.counts
    omega
  · obtain ⟨hstarts, hfinishes⟩ := hgoing.counts
    rw [List.countP_append, List.countP_append, hstarts, hfinishes]
    exact ⟨Nat.le_refl _, Nat.le_refl _⟩

namespace Handshake

variable {t : Transformer} {lines : List SourceLine} {ending : Ending} {h h' : Handshake}

/-- What was announced fits the progress until the reading is over. -/
structure Announces (h : Handshake) : Prop where
  allowed : Announced (announced h.events)
  fits : (∀ result, h.taker ≠ .returned result) → Fits h.progress (announced h.events)

theorem announces_of_fits (h : Fits h'.progress (announced h'.events)) : h'.Announces :=
  ⟨h.announced, fun _ => h⟩

theorem Announces.step (hannounces : h.Announces) (hstep : Step h h') : h'.Announces := by
  cases hstep with
  | cancel | scanLine | scanEnd | scanStopped | send | sendRefused | takeReply | replyRefused =>
    exact ⟨hannounces.allowed, hannounces.fits⟩
  | stop htaker | stopAtEnd htaker | breakOff _ _ htaker | reply htaker | stopAtReply htaker =>
    exact announces_of_fits (hannounces.fits fun result => htaker ▸ nofun)
  | take now lastRecord htaker hsent htake =>
    have hfits : Fits (h.reader now lastRecord).progress (announced h.events) :=
      hannounces.fits fun result => htaker ▸ nofun
    refine announces_of_fits ?_
    rw [announced_append, announced_events]
    exact (hfits.take htake).1
  | silence htaker hfirst hended =>
    have hfits := hannounces.fits fun result => htaker ▸ nofun
    refine announces_of_fits ?_
    rw [announced_append, announced_announced]
    exact hfits.finishAt hfirst hended _
  | close now lastRecord htaker =>
    have hfits : Fits (h.reader now lastRecord).progress (announced h.events) :=
      hannounces.fits fun result => htaker ▸ nofun
    refine ⟨?_, fun hreturned => absurd rfl (hreturned _)⟩
    rw [announced_append, announced_events]
    exact (hfits.close _ True).announced
  | closeCancelled => exact ⟨hannounces.allowed, fun hreturned => absurd rfl (hreturned _)⟩

/-- However the moves are chosen, at most one import is announced. -/
theorem announced_of_reaches {clock : Time.Instant} (h' : Reaches (start t clock lines ending) h) :
    Announced (announced h.events) := by
  have hannounces : h.Announces := by
    induction h' with
    | refl => exact announces_of_fits (fits_start clock)
    | tail _ hstep ih => exact ih.step hstep
  exact hannounces.allowed

/-! ## Moves that do not ask the source -/

theorem step_appends (hstep : Step h h') : ∃ more, h'.events = h.events ++ more := by
  cases hstep with
  | take | silence | close => exact ⟨_, rfl⟩
  | cancel | scanLine | scanEnd | scanStopped | send | sendRefused | takeReply | replyRefused | stop
  | stopAtEnd | breakOff | reply | stopAtReply | closeCancelled =>
    exact ⟨[], (List.append_nil _).symm⟩

/-- A move by which the scanner stops asking is a look at the source, or the scanner was stopped. -/
theorem asks_of_step (hstep : Step h h') (hasking : h.scanner = .asking)
    (hleaves : h'.scanner ≠ .asking) :
    (∃ line rest, h.source = line :: rest ∧ h' = { h with scanner := .sending line, source := rest }) ∨
      (h.source = [] ∧ h' = { h with scanner := .ended h.ending }) ∨
      ((h.cancelled = true ∨ h.taker = .stopping) ∧
        h' = { h with scanner := .ended .exhausted }) := by
  cases hstep with
  | scanLine _ hsource => exact .inl ⟨_, _, hsource, rfl⟩
  | scanEnd _ hsource => exact .inr (.inl ⟨hsource, rfl⟩)
  | scanStopped _ hstop => exact .inr (.inr ⟨hstop, rfl⟩)
  | send hscanner | sendRefused hscanner | takeReply hscanner | replyRefused hscanner =>
    exact absurd (hscanner.symm.trans hasking) nofun
  | cancel | stop | stopAtEnd | take | breakOff | silence | reply | stopAtReply | close
  | closeCancelled => exact absurd hasking hleaves

/-- Any other move is possible with any other source too. -/
theorem step_source (hstep : Step h h') (hwaits : h.scanner = .asking → h'.scanner = .asking)
    (source : List SourceLine) : Step { h with source } { h' with source } := by
  cases hstep with
  | scanLine hscanner | scanEnd hscanner | scanStopped hscanner => cases hwaits hscanner
  | cancel hcancelled => exact .cancel hcancelled
  | send hscanner hroom hlistens => exact .send hscanner hroom hlistens
  | sendRefused hscanner hdeaf => exact .sendRefused hscanner hdeaf
  | takeReply hscanner hreplied => exact .takeReply hscanner hreplied
  | replyRefused hscanner hreplied hdeaf => exact .replyRefused hscanner hreplied hdeaf
  | stop htaker hcancelled => exact .stop htaker hcancelled
  | stopAtEnd htaker hsent hscanner => exact .stopAtEnd htaker hsent hscanner
  | take now lastRecord htaker hsent htake => exact .take now lastRecord htaker hsent htake
  | breakOff now lastRecord htaker hsent htake => exact .breakOff now lastRecord htaker hsent htake
  | silence htaker hfirst hended => exact .silence htaker hfirst hended
  | reply htaker hroom hscanner => exact .reply htaker hroom hscanner
  | stopAtReply htaker hscanner => exact .stopAtReply htaker hscanner
  | close now lastRecord htaker hscanner hcancelled =>
    exact .close now lastRecord htaker hscanner hcancelled
  | closeCancelled htaker hscanner hcancelled => exact .closeCancelled htaker hscanner hcancelled

theorem source_step (hstep : Step h h') (hwaits : h.scanner = .asking → h'.scanner = .asking) :
    h'.source = h.source := by
  cases hstep with
  | scanLine hscanner => cases hwaits hscanner
  | cancel | scanEnd | scanStopped | send | sendRefused | takeReply | replyRefused | stop | stopAtEnd
  | take | breakOff | silence | reply | stopAtReply | close | closeCancelled => rfl

theorem ending_step (hstep : Step h h') : h'.ending = h.ending := by
  cases hstep <;> rfl

/-- Cancelling is not taken back. -/
theorem cancelled_step (hstep : Step h h') (hgoing : h'.cancelled = false) : h.cancelled = false := by
  cases hstep with
  | cancel => cases hgoing
  | scanLine | scanEnd | scanStopped | send | sendRefused | takeReply | replyRefused | stop | stopAtEnd
  | take | breakOff | silence | reply | stopAtReply | close | closeCancelled => exact hgoing

end Handshake

end Import

/-! ## One connection -/

namespace Connection

open Import Import.Handshake

variable {c c' : Connection}

/-- The lines of what the other side sends. -/
def lines (c : Connection) : List SourceLine :=
  (LineStream.start none c.pieces (c.ending ≠ .exhausted)).lines.lines

/-- What arrived and was not asked for, with what is still arriving. -/
def unread (c : Connection) : LineStream := { c.stream with coming := c.stream.coming ++ c.arriving }

/-- The two tasks with all the lines for a source that they have yet to be given. -/
def alone (c : Connection) : Handshake := { c.reading with source := c.unread.lines.lines }

/-- The tasks of a connection read it alone. -/
structure Sound (c : Connection) : Prop where
  unnamed : c.stream.file = none
  breaks : c.stream.breaks = decide (c.ending ≠ .exhausted)
  ending : c.reading.ending = c.ending
  closed : c.closed = true → c.arriving = []
  reaches : Reaches (.start c.transformer c.clock c.lines c.ending) c.alone

theorem octets_unread (c : Connection) :
    c.unread.octets = c.stream.octets ++ Chunk.octets c.arriving := by
  unfold unread LineStream.octets Chunk.octets
  rw [List.flatMap_append, List.append_assoc]

theorem Sound.unread_of_closed (h : c.Sound) (hclosed : c.closed = true) (stream : LineStream) :
    ({ c with stream } : Connection).unread = stream := by
  unfold unread
  rw [h.closed hclosed, List.append_nil]

theorem alone_eq {lines : List SourceLine} (h : c.unread.lines.lines = lines) :
    c.alone = { c.reading with source := lines } := by
  rw [alone, h]

theorem alone_scanner {stream : LineStream} {lines : List SourceLine} (scanner : Scanner)
    (h : ({ c with stream } : Connection).unread.lines.lines = lines) :
    ({ c with stream, reading := { c.reading with scanner } } : Connection).alone =
      { c.reading with scanner, source := lines } := alone_eq h

theorem alone_arrive {piece : Chunk} {rest : List Chunk} (h : c.arriving = piece :: rest) :
    ({ c with
      arriving := rest
      stream := { c.stream with coming := c.stream.coming ++ [piece] } } : Connection).alone =
        c.alone := by
  have hunread : ({ c with
      arriving := rest
      stream := { c.stream with coming := c.stream.coming ++ [piece] } } : Connection).unread =
        c.unread := by
    unfold unread
    rw [h, List.append_assoc]
    rfl
  exact alone_eq (congrArg (·.lines.lines) hunread)

theorem sound_start (t : Transformer) (clock : Time.Instant) (pieces : List Chunk) (ending : Ending)
    (announces cancelled : Bool) : (start t clock pieces ending announces cancelled).Sound where
  unnamed := rfl
  breaks := rfl
  ending := rfl
  closed := nofun
  reaches := by
    cases cancelled with
    | false => exact .refl
    | true => exact .single (.cancel rfl)

/-! ## What the stream gives -/

/-- A line that the stream gives is the next one of all that are coming. -/
theorem Sound.unread_of_line (h : c.Sound) (hready : c.Ready) {stream : LineStream} {line : SourceLine}
    (hnext : c.stream.next = (stream, .line line)) :
    c.unread.lines.lines = line :: ({ c with stream } : Connection).unread.lines.lines := by
  by_cases hmem : Lines.lineFeed ∈ c.stream.octets
  · obtain ⟨octets, rest, hoctets, hline⟩ := List.eq_append_cons_of_mem hmem
    obtain ⟨hgive, hrest⟩ := LineStream.next_of_append_cons hline hoctets
    obtain ⟨hstream, hpull⟩ := Prod.mk.inj (hgive.symm.trans hnext)
    subst hstream
    have hunnamed : c.stream.left.file = none := h.unnamed
    have hgiven := Pull.line.inj hpull
    rw [hunnamed, Option.map_none] at hgiven
    subst hgiven
    -- the octets that are still arriving come after the line
    have hunread : c.unread.octets =
        octets ++ Lines.lineFeed :: (rest ++ Chunk.octets c.arriving) := by
      rw [octets_unread, hoctets, List.append_assoc, List.cons_append]
    have hlater : ({ c with stream := (c.stream.left.give octets).1 } : Connection).unread.octets =
        rest ++ Chunk.octets c.arriving :=
      (octets_unread _).trans (congrArg (· ++ Chunk.octets c.arriving) hrest)
    exact LineStream.lines_of_append_cons h.unnamed hunnamed rfl hline hunread hlater
  · have hclosed := hready.resolve_left hmem
    have hnow : c.unread = c.stream := h.unread_of_closed hclosed c.stream
    rw [hnow, h.unread_of_closed hclosed, LineStream.lines_next, hnext]
    rfl

/-- Where the stream ends nothing is coming any more. -/
theorem Sound.unread_of_end (h : c.Sound) (hready : c.Ready) {stream : LineStream} {pull : Pull}
    (hnext : c.stream.next = (stream, pull)) (hend : pull = .ended ∨ pull = .failed) :
    c.unread.lines.lines = [] ∧ ({ c with stream } : Connection).unread.lines.lines = [] := by
  obtain ⟨hmem, hgiven, hrest⟩ := LineStream.given_of_end hnext hend
  have hclosed := hready.resolve_left hmem
  have hunnamed : stream.file = none := by
    have hsame := (LineStream.next_same c.stream).1
    rw [hnext] at hsame
    exact hsame.trans h.unnamed
  have hnow : c.unread = c.stream := h.unread_of_closed hclosed c.stream
  rw [hnow, h.unread_of_closed hclosed, LineStream.lines_of_unnamed h.unnamed,
    LineStream.lines_of_unnamed hunnamed, hgiven, LineStream.given_of_octets_eq_nil hrest]
  exact ⟨rfl, rfl⟩

/-! ## A move of a connection -/

/-- What a connection was accepted with stays, and only the service cancels it. -/
theorem same_of_step (hstep : Step c c') :
    c'.transformer = c.transformer ∧ c'.clock = c.clock ∧ c'.lines = c.lines ∧
      c'.ending = c.ending ∧ c'.announces = c.announces ∧
      c'.reading.cancelled = c.reading.cancelled := by
  cases hstep with
  | arrive | close | scanLine | scanEnd | scanStopped => exact ⟨rfl, rfl, rfl, rfl, rfl, rfl⟩
  | work _ _ hcancelled => exact ⟨rfl, rfl, rfl, rfl, rfl, hcancelled⟩

theorem appends_of_step (hstep : Step c c') :
    c'.reading.events = c.reading.events ++ c.news c' := by
  obtain ⟨more, hmore⟩ : ∃ more, c'.reading.events = c.reading.events ++ more := by
    cases hstep with
    | arrive | close | scanLine | scanEnd | scanStopped => exact ⟨[], (List.append_nil _).symm⟩
    | work hstep => exact step_appends hstep
  rw [news, hmore, List.drop_left]

/-- **A move of a connection is no move of the tasks that read it alone, or one.** -/
theorem Sound.reaches_alone (h : c.Sound) (hstep : Step c c') : Reaches c.alone c'.alone := by
  cases hstep with
  | arrive harriving => exact alone_arrive harriving ▸ .refl
  | close => exact .refl
  | scanLine hscanner hready hnext => exact .single (.scanLine hscanner (h.unread_of_line hready hnext))
  | scanEnd hscanner hready hnext hend =>
    obtain ⟨hnow, hlater⟩ := h.unread_of_end hready hnext hend
    have hmove : Handshake.Step { c.reading with source := [] }
        { c.reading with scanner := .ended c.reading.ending, source := [] } := .scanEnd hscanner rfl
    rw [h.ending] at hmove
    rw [alone_eq hnow, alone_scanner _ hlater]
    exact .single hmove
  | scanStopped hscanner hstop => exact .single (.scanStopped hscanner hstop)
  | work hstep hwaits => exact .single (step_source hstep hwaits _)

theorem Sound.step (h : c.Sound) (hstep : Step c c') : c'.Sound := by
  obtain ⟨htransformer, hclock, hlines, hending, -, -⟩ := same_of_step hstep
  have hreaches : Reaches (.start c'.transformer c'.clock c'.lines c'.ending) c'.alone := by
    rw [htransformer, hclock, hlines, hending]
    exact h.reaches.trans (h.reaches_alone hstep)
  cases hstep with
  | arrive harriving =>
    refine ⟨h.unnamed, h.breaks, h.ending, fun hclosed => ?_, hreaches⟩
    exact absurd (harriving.symm.trans (h.closed hclosed)) (List.cons_ne_nil _ _)
  | close harriving => exact ⟨h.unnamed, h.breaks, h.ending, fun _ => harriving, hreaches⟩
  | scanLine _ _ hnext | scanEnd _ _ hnext =>
    obtain ⟨hfile, hbreaks⟩ := LineStream.next_same c.stream
    rw [hnext] at hfile hbreaks
    exact ⟨hfile.trans h.unnamed, hbreaks.trans h.breaks, h.ending, h.closed, hreaches⟩
  | scanStopped => exact ⟨h.unnamed, h.breaks, h.ending, h.closed, hreaches⟩
  | work hstep =>
    exact ⟨h.unnamed, h.breaks, (ending_step hstep).trans h.ending, h.closed, hreaches⟩

theorem Sound.cancel (h : c.Sound) (hgoing : c.reading.cancelled = false) : c.cancel.Sound where
  unnamed := h.unnamed
  breaks := h.breaks
  ending := h.ending
  closed := h.closed
  reaches := h.reaches.tail (.cancel hgoing)

/-! ## Moves that can be made once everything arrived -/

theorem Sound.next_of_closed (h : c.Sound) (hclosed : c.closed = true) {line : SourceLine}
    {rest : List SourceLine} (hlines : c.unread.lines.lines = line :: rest) :
    ∃ stream, c.stream.next = (stream, .line line) ∧ stream.lines.lines = rest := by
  have hnow : c.unread = c.stream := h.unread_of_closed hclosed c.stream
  rw [hnow, LineStream.lines_next] at hlines
  cases hnext : c.stream.next with
  | mk stream pull =>
    rw [hnext] at hlines
    cases pull with
    | line l =>
      obtain ⟨rfl, rfl⟩ := List.cons.inj hlines
      exact ⟨stream, rfl, rfl⟩
    | waiting | ended | failed => cases hlines

theorem Sound.end_of_closed (h : c.Sound) (hclosed : c.closed = true)
    (hlines : c.unread.lines.lines = []) :
    ∃ stream pull, c.stream.next = (stream, pull) ∧ (pull = .ended ∨ pull = .failed) := by
  have hnow : c.unread = c.stream := h.unread_of_closed hclosed c.stream
  rw [hnow, LineStream.lines_next] at hlines
  cases hnext : c.stream.next with
  | mk stream pull =>
    rw [hnext] at hlines
    cases pull with
    | line l => cases hlines
    | waiting => exact absurd (congrArg Prod.snd hnext) (LineStream.next_ne_waiting c.stream)
    | ended => exact ⟨stream, .ended, rfl, .inl rfl⟩
    | failed => exact ⟨stream, .failed, rfl, .inr rfl⟩

/-- **Once everything arrived, each move of the tasks that read a connection alone can be made**, except
that a connection is not cancelled by itself. -/
theorem Sound.realizes (h : c.Sound) (hclosed : c.closed = true) {reading : Handshake}
    (hstep : Handshake.Step c.alone reading) (hcancelled : reading.cancelled = c.reading.cancelled) :
    ∃ c', Step c c' ∧ c'.alone = reading ∧ c'.closed = true := by
  by_cases hwaits : c.reading.scanner = .asking → reading.scanner = .asking
  · have hwork := step_source hstep hwaits c.reading.source
    have hsource : reading.source = c.unread.lines.lines := source_step hstep hwaits
    refine ⟨{ c with reading := { reading with source := c.reading.source } },
      .work hwork hwaits hcancelled, ?_, hclosed⟩
    show ({ reading with source := c.unread.lines.lines } : Handshake) = reading
    rw [← hsource]
  · obtain ⟨hasking, hleaves⟩ := Classical.not_imp.1 hwaits
    rcases asks_of_step hstep hasking hleaves with
      ⟨line, rest, hsource, rfl⟩ | ⟨hsource, rfl⟩ | ⟨hstop, rfl⟩
    · obtain ⟨stream, hnext, hrest⟩ := h.next_of_closed hclosed hsource
      have hlater : ({ c with stream } : Connection).unread.lines.lines = rest := by
        rw [h.unread_of_closed hclosed, hrest]
      exact ⟨_, .scanLine hasking (.inr hclosed) hnext, alone_scanner _ hlater, hclosed⟩
    · obtain ⟨stream, pull, hnext, hend⟩ := h.end_of_closed hclosed hsource
      obtain ⟨-, hlater⟩ := h.unread_of_end (.inr hclosed) hnext hend
      refine ⟨_, .scanEnd hasking (.inr hclosed) hnext hend, ?_, hclosed⟩
      rw [alone_scanner _ hlater, alone_eq hsource, ← h.ending]
    · exact ⟨_, .scanStopped hasking hstop, rfl, hclosed⟩

/-- A connection at whose end everything arrived can move on until its taker is at its end. -/
theorem Sound.exists_step (h : c.Sound) (hclosed : c.closed = true) (hgoing : ¬ c.Over) :
    ∃ c', Step c c' := by
  have hord := (ordered_start c.transformer c.clock c.lines c.ending).reaches h.reaches
  obtain ⟨reading, hstep, hcancelled⟩ := hord.exists_step hgoing
  obtain ⟨c', hmove, -⟩ := h.realizes hclosed hstep hcancelled
  exact ⟨c', hmove⟩

/-- What is reached by the moves of a connection. -/
abbrev Moves : Connection → Connection → Prop := Relation.ReflTransGen Step

theorem announces_of_moves (hmoves : Moves c c') : c'.announces = c.announces := by
  induction hmoves with
  | refl => rfl
  | tail _ hstep ih =>
    obtain ⟨-, -, -, -, hannounces, -⟩ := same_of_step hstep
    exact hannounces.trans ih

theorem appends_of_moves (hmoves : Moves c c') :
    c'.reading.events = c.reading.events ++ c.news c' := by
  obtain ⟨more, hmore⟩ : ∃ more, c'.reading.events = c.reading.events ++ more := by
    induction hmoves with
    | refl => exact ⟨[], (List.append_nil _).symm⟩
    | tail _ hstep ih =>
      obtain ⟨more, hmore⟩ := ih
      exact ⟨_, (appends_of_step hstep).trans (by rw [hmore, List.append_assoc])⟩
  rw [news, hmore, List.drop_left]

theorem Sound.moves (h : c.Sound) (hmoves : Moves c c') : c'.Sound := by
  induction hmoves with
  | refl => exact h
  | tail _ hstep ih => exact ih.step hstep

/-- Everything can arrive before anything else happens. -/
theorem exists_closed (c : Connection) : ∃ c', Moves c c' ∧ c'.closed = true ∧ c'.alone = c.alone := by
  induction harriving : c.arriving generalizing c with
  | nil => exact ⟨{ c with closed := true }, .single (.close harriving), rfl, rfl⟩
  | cons piece rest ih =>
    obtain ⟨c', hmoves, hclosed, halone⟩ := ih { c with
      arriving := rest, stream := { c.stream with coming := c.stream.coming ++ [piece] } } rfl
    exact ⟨c', hmoves.head (.arrive harriving), hclosed, halone.trans (alone_arrive harriving)⟩

/-- Whatever the tasks that read a connection alone come to, if they are not cancelled, it comes to. -/
theorem Sound.exists_moves (h : c.Sound) (hclosed : c.closed = true) {reading : Handshake}
    (hreaches : Reaches c.alone reading) (hgoing : reading.cancelled = false) :
    ∃ c', Moves c c' ∧ c'.alone = reading ∧ c'.closed = true := by
  induction hreaches with
  | refl => exact ⟨c, .refl, rfl, hclosed⟩
  | tail _ hstep ih =>
    have hbefore := cancelled_step hstep hgoing
    obtain ⟨c', hmoves, rfl, hclosed'⟩ := ih hbefore
    obtain ⟨c'', hmove, halone, hclosed''⟩ :=
      (h.moves hmoves).realizes hclosed' hstep (hgoing.trans hbefore.symm)
    exact ⟨c'', hmoves.tail hmove, halone, hclosed''⟩

/-! ## Reading alone -/

/-- A connection is read with nothing else to be read. -/
def readAlone (timeout : Time.Duration) (c : Connection) : Trace :=
  (Import.read ⟨timeout, none⟩ c.transformer c.clock ⟨c.lines.map (⟨0, ·⟩), 0, c.ending⟩).1

theorem lines_eq_read (h : c.ending = .exhausted) :
    c.lines = Lines.read none (Chunk.octets c.pieces) := by
  unfold lines
  rw [h]
  exact congrArg FileLines.lines (LineStream.lines_start none c.pieces)

theorem lines_feed (lines : List SourceLine) (ending : Ending) :
    Feed.lines ⟨lines.map (⟨0, ·⟩), 0, ending⟩ = lines := by
  rw [Feed.lines, List.map_map]
  exact List.map_id _

/-- Octets that come to their end are read as such. -/
theorem readAlone_eq (timeout : Time.Duration) (h : c.ending = .exhausted) :
    c.readAlone timeout =
      readConnection timeout c.transformer c.clock (Chunk.octets c.pieces) := by
  rw [readAlone, lines_eq_read h, h]
  rfl

theorem records_readAlone (timeout : Time.Duration) (c : Connection) :
    (c.readAlone timeout).records = reference c.transformer c.lines := by
  have hread := (readsSequentially ⟨timeout, none⟩ c.transformer c.clock
    ⟨c.lines.map (⟨0, ·⟩), 0, c.ending⟩).whole (by rintro ⟨_, hcancel, -⟩; cases hcancel)
  rw [lines_feed] at hread
  exact hread

/-- The tasks that read a connection alone can come to its reading. -/
theorem exists_reaches_readAlone (timeout : Time.Duration) (c : Connection) :
    ∃ reading : Handshake, Reaches (.start c.transformer c.clock c.lines c.ending) reading ∧
      reading.cancelled = false ∧ reading.events = (c.readAlone timeout).events := by
  obtain ⟨reading, hreaches, -, hevents, hcancelled⟩ := (readsSequentially ⟨timeout, none⟩
    c.transformer c.clock ⟨c.lines.map (⟨0, ·⟩), 0, c.ending⟩).moves
  rw [lines_feed] at hreaches
  refine ⟨reading, hreaches, Bool.eq_false_iff.2 fun h => ?_, hevents⟩
  obtain ⟨_, hcancel, -⟩ := hcancelled h
  cases hcancel

end Connection

end MailTrace
