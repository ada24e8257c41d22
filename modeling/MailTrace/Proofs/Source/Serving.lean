import MailTrace.Proofs.Service.Flow
import MailTrace.Proofs.Source.Connections

/-!
# Connections do not touch each other

1. What is published with the number of a connection are its records (`recordsOf_numbered`).
2. So for each connection the tasks that read it alone have come to what was published for it, and those
   of the first one to what was announced (`Keeps`, `Sound`). Every move keeps it so (`Sound.step`).
3. In whatever order the moves come, each connection is read as it is alone (`served_alone`). Reading the
   connections one after the other is one such order (`exists_reaches_ofConnections`).
-/

namespace MailTrace

open MailTrace.Time

namespace Serving

open MailTrace.Import MailTrace.Import.Handshake MailTrace.Flow

variable {s s' : Serving} {i j : Nat} {c c' : Connection}

/-! ## What is published and announced -/

theorem recordsOf_append (i : Nat) (log more : List (Nat × Record)) :
    recordsOf i (log ++ more) = recordsOf i log ++ recordsOf i more := by
  unfold recordsOf
  rw [List.filter_append, List.map_append]

theorem recordsOf_eq_nil {log : List (Nat × Record)} (h : ∀ p ∈ log, p.1 ≠ i) :
    recordsOf i log = [] := by
  unfold recordsOf
  rw [List.map_eq_nil_iff, List.filter_eq_nil_iff]
  exact fun p hp => by simpa using h p hp

/-- The records of events are those of their connection. -/
theorem recordsOf_numbered (i j : Nat) (events : List Event) :
    recordsOf j (numbered i events) = if i = j then Import.published events else [] := by
  induction events with
  | nil => exact (ite_self []).symm
  | cons e events ih =>
    cases e with
    | announced a => exact ih
    | published r =>
      show recordsOf j ((i, r) :: numbered i events) = _
      by_cases hij : i = j
      · subst hij
        rw [if_pos rfl] at ih ⊢
        exact (recordsOf_cons_self (i, r) _).trans (congrArg (r :: ·) ih)
      · rw [if_neg hij] at ih ⊢
        rw [recordsOf_cons_of_ne hij, ih]

theorem numbered_append (i : Nat) (events more : List Event) :
    numbered i (events ++ more) = numbered i events ++ numbered i more := List.filterMap_append

theorem number_of_mem_numbered {events : List Event} {p : Nat × Record}
    (h : p ∈ numbered i events) : p.1 = i := by
  obtain ⟨e, -, he⟩ := List.mem_filterMap.1 h
  cases e with
  | published r =>
    cases he
    rfl
  | announced a => cases he

/-! ## What every move keeps -/

/-- A connection has the number `i`, was given a new transformer, and what was published for it are the
records of its tasks. Only the first connection announces. -/
structure Keeps (s : Serving) (i : Nat) (c : Connection) : Prop where
  sound : c.Sound
  fresh : ∃ now, c.transformer = .start s.format s.year now
  announces : c.announces = decide (i = 0)
  cancelled : c.reading.cancelled = s.cancelled
  records : recordsOf i s.published = Import.published c.reading.events

/-- Every connection is kept, and what was announced are the announcements of the first one. -/
structure Sound (s : Serving) : Prop where
  keeps : ∀ i c, s.connections[i]? = some c → s.Keeps i c
  numbered : ∀ p ∈ s.published, p.1 < s.connections.length
  first : s.first = s.connections.isEmpty
  announced : s.announced =
    (s.connections.head?.map fun c => Import.announced c.reading.events).getD []

theorem sound_start (format : Format) (year : Option Int) : (start format year).Sound where
  keeps _ _ h := nomatch h
  numbered _ h := nomatch h
  first := rfl
  announced := rfl

theorem Sound.accept (h : s.Sound) (now clock : Instant) (pieces : List Chunk) (ending : Ending) :
    (s.accept now clock pieces ending).Sound := by
  have hlength : (s.accept now clock pieces ending).connections.length = s.connections.length + 1 :=
    List.length_append
  refine ⟨fun i c hc => ?_, fun p hp => hlength ▸ Nat.lt_succ_of_lt (h.numbered p hp), ?_, ?_⟩
  · rcases Nat.lt_trichotomy i s.connections.length with hi | rfl | hi
    · have hold := h.keeps i c ((List.getElem?_append_left hi).symm.trans hc)
      exact ⟨hold.sound, hold.fresh, hold.announces, hold.cancelled, hold.records⟩
    · obtain rfl : _ = c := Option.some_inj.1 (List.getElem?_concat_length.symm.trans hc)
      refine ⟨Connection.sound_start .., ⟨now, rfl⟩, ?_, rfl, ?_⟩
      · exact h.first.trans (by cases s.connections <;> rfl)
      · exact recordsOf_eq_nil fun p hp => Nat.ne_of_lt (h.numbered p hp)
    · rw [List.getElem?_eq_none (by omega)] at hc
      cases hc
  · exact (List.isEmpty_eq_false_iff.2 (List.concat_ne_nil _ _)).symm
  · refine h.announced.trans ?_
    show _ = (((s.connections ++ [_]).head?).map _).getD []
    cases s.connections <;> rfl

/-- The first connection is moved with the rest of the list. -/
theorem head?_set (l : List Connection) (i : Nat) (c : Connection) :
    (l.set i c).head? = if i = 0 then l.head?.map fun _ => c else l.head? := by
  cases l with
  | nil => exact (ite_self _).symm
  | cons first rest => cases i <;> rfl

/-- A move publishes records of its connection only. -/
theorem recordsOf_move (s : Serving) (i j : Nat) (c c' : Connection) :
    recordsOf j (s.move i c c').published =
      recordsOf j s.published ++ if i = j then Import.published (c.news c') else [] := by
  rw [← recordsOf_numbered]
  exact recordsOf_append j _ _

/-- Only a move of the first connection announces anything. -/
theorem Sound.announced_move (h : s.Sound) (hconnection : s.connections[i]? = some c)
    (hstep : c.Step c') : (s.move i c c').announced =
      ((s.move i c c').connections.head?.map fun c => Import.announced c.reading.events).getD [] := by
  have hkept := h.keeps i c hconnection
  show s.announced ++ _ = (((s.connections.set i c').head?).map _).getD []
  rw [h.announced, head?_set, hkept.announces]
  by_cases hzero : i = 0
  · subst hzero
    have hhead : s.connections.head? = some c := List.head?_eq_getElem?.trans hconnection
    rw [hhead, if_pos rfl]
    exact ((congrArg Import.announced (Connection.appends_of_step hstep)).trans
      (announced_append _ _)).symm
  · rw [if_neg hzero, decide_eq_false hzero]
    exact List.append_nil _

theorem Sound.move (h : s.Sound) (hconnection : s.connections[i]? = some c) (hstep : c.Step c') :
    (s.move i c c').Sound := by
  have hkept := h.keeps i c hconnection
  obtain ⟨htransformer, -, -, -, hannounces, hcancelled⟩ := Connection.same_of_step hstep
  have hi : i < s.connections.length := (List.getElem?_eq_some_iff.1 hconnection).1
  have hlength : (s.move i c c').connections.length = s.connections.length := List.length_set
  refine ⟨fun j d hd => ?_, fun p hp => ?_, ?_, h.announced_move hconnection hstep⟩
  · have hd' : (s.connections.set i c')[j]? = some d := hd
    rw [List.getElem?_set] at hd'
    by_cases hij : i = j
    · subst hij
      rw [if_pos rfl, if_pos hi] at hd'
      obtain rfl := Option.some_inj.1 hd'
      refine ⟨hkept.sound.step hstep, htransformer ▸ hkept.fresh, hannounces ▸ hkept.announces,
        hcancelled.trans hkept.cancelled, ?_⟩
      rw [recordsOf_move, if_pos rfl, hkept.records, Connection.appends_of_step hstep,
        published_append]
    · rw [if_neg hij] at hd'
      have hold := h.keeps j d hd'
      refine ⟨hold.sound, hold.fresh, hold.announces, hold.cancelled, ?_⟩
      rw [recordsOf_move, if_neg hij, List.append_nil, hold.records]
  · rw [hlength]
    rcases List.mem_append.1 hp with hp | hp
    · exact h.numbered p hp
    · exact number_of_mem_numbered hp ▸ hi
  · have hempty : (s.connections.set i c').isEmpty = s.connections.isEmpty := by
      cases s.connections <;> cases i <;> rfl
    exact h.first.trans hempty.symm

theorem Sound.cancel (h : s.Sound) (hgoing : s.cancelled = false) :
    ({ s with cancelled := true, connections := s.connections.map (·.cancel) } : Serving).Sound := by
  refine ⟨fun i c hc => ?_, fun p hp => ?_, ?_, ?_⟩
  · obtain ⟨d, hd, rfl⟩ := Option.map_eq_some_iff.1 (List.getElem?_map.symm.trans hc)
    have hold := h.keeps i d hd
    exact ⟨hold.sound.cancel (hold.cancelled.trans hgoing), hold.fresh, hold.announces, rfl,
      hold.records⟩
  · exact (List.length_map _).symm ▸ h.numbered p hp
  · exact h.first.trans (by cases s.connections <;> rfl)
  · exact h.announced.trans (by cases s.connections <;> rfl)

/-- **Every move keeps all connections apart.** -/
theorem Sound.step (h : s.Sound) (hstep : Step s s') : s'.Sound := by
  cases hstep with
  | accept now clock pieces ending => exact h.accept now clock pieces ending
  | move _ hconnection hstep => exact h.move hconnection hstep
  | cancel hgoing => exact h.cancel hgoing
  | stop | finish | fail =>
    refine ⟨fun i c hc => ?_, h.numbered, h.first, h.announced⟩
    have hold := h.keeps i c hc
    exact ⟨hold.sound, hold.fresh, hold.announces, hold.cancelled, hold.records⟩

/-- What is reached by moves. -/
abbrev Reaches : Serving → Serving → Prop := Relation.ReflTransGen Step

theorem Sound.reaches (h : s.Sound) (hreaches : Reaches s s') : s'.Sound := by
  induction hreaches with
  | refl => exact h
  | tail _ hstep ih => exact ih.step hstep

theorem settings_of_reaches (hreaches : Reaches s s') : s'.format = s.format ∧ s'.year = s.year := by
  induction hreaches with
  | refl => exact ⟨rfl, rfl⟩
  | tail _ hstep ih =>
    cases hstep with
    | accept | move | cancel | stop | finish | fail => exact ih

/-! ## Every order of moves -/

/-- A connection is read as it is alone, with a new transformer. What was published for it, and what was
announced if it is the first, is that of tasks that read only it. -/
structure ReadAlone (s : Serving) (i : Nat) (c : Connection) : Prop where
  fresh : ∃ now, c.transformer = .start s.format s.year now
  moves : ∃ reading : Handshake,
    Handshake.Reaches (.start c.transformer c.clock c.lines c.ending) reading ∧
      (reading.Over ↔ c.Over) ∧ reading.cancelled = s.cancelled ∧
      Import.published reading.events = recordsOf i s.published ∧
      (i = 0 → Import.announced reading.events = s.announced)
  front : ∀ timeout, recordsOf i s.published <+: (c.readAlone timeout).records
  whole : c.Over → s.cancelled = false →
    ∀ timeout, recordsOf i s.published = (c.readAlone timeout).records
  octets : c.ending = .exhausted → ∀ timeout,
    c.readAlone timeout = readConnection timeout c.transformer c.clock (Chunk.octets c.pieces)
  goesOn : c.closed = true → ¬ c.Over → ∃ c', c.Step c'

theorem Sound.readAlone (h : s.Sound) (hc : s.connections[i]? = some c) : s.ReadAlone i c := by
  have hkept := h.keeps i c hc
  have hseq : Sequential c.transformer c.lines c.alone := sequential_of_reaches hkept.sound.reaches
  refine ⟨hkept.fresh, ⟨c.alone, hkept.sound.reaches, Iff.rfl, hkept.cancelled, hkept.records.symm,
    fun hi => ?_⟩, fun timeout => ?_, fun hover hgoing timeout => ?_,
    fun hending timeout => Connection.readAlone_eq timeout hending, hkept.sound.exists_step⟩
  · have hhead : s.connections.head? = some c := by
      rw [List.head?_eq_getElem?, ← hi]
      exact hc
    rw [h.announced, hhead]
    rfl
  · rw [Connection.records_readAlone, hkept.records]
    exact hseq.front
  · rw [Connection.records_readAlone, hkept.records]
    exact hseq.whole hover (hkept.cancelled.trans hgoing)

/-- What comes of connections, however their octets and the moves of their tasks are interleaved. -/
structure ServedAlone (s : Serving) : Prop where
  numbered : ∀ p ∈ s.published, p.1 < s.connections.length
  connections : ∀ i c, s.connections[i]? = some c → s.ReadAlone i c
  silent : s.connections = [] → s.announced = []
  once : s.announced.countP (·.starts) ≤ 1 ∧ s.announced.countP (·.finishes) ≤ 1

/-- **Connections are independent, and only the first one reports.** -/
theorem served_alone {format : Format} {year : Option Int} (h : Reaches (start format year) s) :
    s.format = format ∧ s.year = year ∧ s.ServedAlone := by
  have hsound := (sound_start format year).reaches h
  obtain ⟨hformat, hyear⟩ := settings_of_reaches h
  refine ⟨hformat, hyear, hsound.numbered, fun i c => hsound.readAlone, fun hnil => ?_, ?_⟩
  · rw [hsound.announced, hnil]
    rfl
  · refine Announced.counts ?_
    rw [hsound.announced]
    cases hhead : s.connections.head? with
    | none => exact .inl rfl
    | some c =>
      have hc : s.connections[0]? = some c := List.head?_eq_getElem?.symm.trans hhead
      have hannounced : Announced (Import.announced c.alone.events) :=
        announced_of_reaches (hsound.keeps 0 c hc).sound.reaches
      exact hannounced

/-! ## One connection after the other -/

theorem move_self (hc : s.connections[i]? = some c) : s.move i c c = s := by
  have hset : s.connections.set i c = s.connections := by
    refine List.ext_getElem? fun j => ?_
    rw [List.getElem?_set]
    split
    · rename_i hij
      rw [← hij, hc, if_pos (List.getElem?_eq_some_iff.1 hc).1]
    · rfl
  have hnews : c.news c = [] := List.drop_length
  have hpublished : s.published ++ numbered i [] = s.published := List.append_nil _
  have hannounced : s.announced ++ (if c.announces then Import.announced [] else []) = s.announced := by
    rw [show Import.announced [] = [] from rfl, ite_self, List.append_nil]
  rw [move, hset, hnews, hpublished, hannounced]

theorem move_move {d : Connection} (hfirst : Connection.Moves c d) (hstep : d.Step c') :
    (s.move i c d).move i d c' = s.move i c c' := by
  have hnews : c.news c' = c.news d ++ d.news c' := by
    have hall := Connection.appends_of_moves (hfirst.tail hstep)
    rw [Connection.appends_of_step hstep, Connection.appends_of_moves hfirst,
      List.append_assoc] at hall
    exact (List.append_cancel_left hall).symm
  have hannounces := Connection.announces_of_moves hfirst
  have hset : (s.connections.set i d).set i c' = s.connections.set i c' := List.set_set ..
  have hpublished : (s.published ++ numbered i (c.news d)) ++ numbered i (d.news c') =
      s.published ++ numbered i (c.news c') := by
    rw [hnews, numbered_append, List.append_assoc]
  have hannounced : (s.announced ++ if c.announces then Import.announced (c.news d) else []) ++
      (if d.announces then Import.announced (d.news c') else []) =
        s.announced ++ if c.announces then Import.announced (c.news c') else [] := by
    rw [hnews, hannounces, announced_append, List.append_assoc]
    split <;> rfl
  unfold move
  dsimp only
  rw [hset, hpublished, hannounced]

/-- The moves of a connection are moves of all. -/
theorem reaches_moves (hphase : s.phase.Active) (hc : s.connections[i]? = some c)
    (hmoves : Connection.Moves c c') : Reaches s (s.move i c c') := by
  induction hmoves with
  | refl =>
    rw [move_self hc]
  | @tail d c' hfirst hstep ih =>
    have hi : i < s.connections.length := (List.getElem?_eq_some_iff.1 hc).1
    have hd : (s.move i c d).connections[i]? = some d := List.getElem?_set_self hi
    exact ih.tail (move_move hfirst hstep ▸ .move hphase hd hstep)

/-- All octets at once. -/
def whole (octets : List UInt8) : List Chunk := if h : octets = [] then [] else [⟨octets, h⟩]

theorem octets_whole (octets : List UInt8) : Chunk.octets (whole octets) = octets := by
  unfold whole
  split
  · rename_i h
    rw [h]
    rfl
  · exact List.append_nil _

/-- A connection that is accepted can be read to its end before anything else happens. -/
theorem reaches_next (hphase : s.phase = .working) (hgoing : s.cancelled = false)
    (timeout : Duration) (now clock : Instant) (octets : List UInt8) :
    ∃ c' : Connection,
      let trace := readConnection timeout (.start s.format s.year now) clock octets
      Reaches s { s with
        first := false
        connections := s.connections ++ [c']
        published := s.published ++ numbered s.connections.length trace.events
        announced := s.announced ++ if s.first then trace.announcements else [] } := by
  have haccept := Step.accept now clock (whole octets) .exhausted hphase
  unfold accept at haccept
  generalize hc : Connection.start (.start s.format s.year now) clock (whole octets) .exhausted s.first
    s.cancelled = c at haccept
  have hsound : c.Sound := hc ▸ Connection.sound_start ..
  have halone : c.alone = .start c.transformer c.clock c.lines c.ending := by
    rw [← hc, hgoing]
    rfl
  obtain ⟨d, harrived, hclosed, hsame⟩ := c.exists_closed
  obtain ⟨reading, hreaches, hcancelled, hevents⟩ := c.exists_reaches_readAlone timeout
  rw [← halone, ← hsame] at hreaches
  obtain ⟨c', hmoves, hread, -⟩ := (hsound.moves harrived).exists_moves hclosed hreaches hcancelled
  have hnews : c.news c' =
      (readConnection timeout (.start s.format s.year now) clock octets).events := by
    have htrace : c.readAlone timeout =
        readConnection timeout (.start s.format s.year now) clock octets := by
      rw [← hc, Connection.readAlone_eq timeout rfl]
      exact congrArg _ (octets_whole octets)
    have hbefore : c.reading.events = [] := by
      rw [← hc]
      rfl
    rw [Connection.news, hbefore, ← htrace, ← hevents, ← hread]
    rfl
  have hset : (s.connections ++ [c]).set s.connections.length c' = s.connections ++ [c'] := by
    rw [List.set_append_right _ _ (Nat.le_refl _), Nat.sub_self]
    rfl
  have hannounces : c.announces = s.first := by
    rw [← hc]
    rfl
  have hmove := reaches_moves (s := { s with first := false, connections := s.connections ++ [c] })
    (hphase ▸ trivial) List.getElem?_concat_length (harrived.trans hmoves)
  unfold move at hmove
  dsimp only at hmove
  rw [hset, hnews, hannounces, announced_events] at hmove
  exact ⟨c', .head haccept hmove⟩

theorem records_ofConnections (timeout : Duration) (t : Transformer) (clock : Instant)
    (connections : List (List UInt8)) :
    (Served.ofConnections timeout t clock connections).records =
      connections.map fun octets => (readConnection timeout t clock octets).records := List.map_map

theorem announcements_ofConnections_concat (timeout : Duration) (t : Transformer) (clock : Instant)
    (connections : List (List UInt8)) (octets : List UInt8) :
    (Served.ofConnections timeout t clock (connections ++ [octets])).announcements =
      (Served.ofConnections timeout t clock connections).announcements ++
        if connections.isEmpty then (readConnection timeout t clock octets).announcements else [] := by
  cases connections with
  | nil => rfl
  | cons first rest => exact (List.append_nil _).symm

/-- The records of a connection that was accepted last come after those of all others. -/
theorem recordsOf_concat {log : List (Nat × Record)} {records : List (List Record)}
    (hnumbered : ∀ p ∈ log, p.1 < records.length)
    (hrecords : ∀ i, recordsOf i log = (records[i]?).getD []) (events : List Event) (i : Nat) :
    recordsOf i (log ++ numbered records.length events) =
      ((records ++ [Import.published events])[i]?).getD [] := by
  rw [recordsOf_append, recordsOf_numbered]
  rcases Nat.lt_trichotomy i records.length with hi | rfl | hi
  · rw [if_neg (Nat.ne_of_gt hi), List.append_nil, hrecords, List.getElem?_append_left hi]
  · rw [if_pos rfl, recordsOf_eq_nil fun p hp => Nat.ne_of_lt (hnumbered p hp), List.nil_append,
      List.getElem?_concat_length]
    rfl
  · rw [if_neg (Nat.ne_of_lt hi), List.append_nil, hrecords, List.getElem?_eq_none (Nat.le_of_lt hi),
      List.getElem?_eq_none]
    rwa [List.length_append]

/-- **Reading connections one after the other is one order of moves.** -/
theorem exists_reaches_ofConnections (timeout : Duration) (format : Format) (year : Option Int)
    (now clock : Instant) (connections : List (List UInt8)) :
    ∃ s, Reaches (start format year) s ∧
      let served := Served.ofConnections timeout (.start format year now) clock connections
      s.announced = served.announcements ∧ s.connections.length = connections.length ∧
        ∀ i, recordsOf i s.published = (served.records[i]?).getD [] := by
  suffices h : ∃ s, Reaches (start format year) s ∧ s.phase = .working ∧ s.cancelled = false ∧
      s.announced =
        (Served.ofConnections timeout (.start format year now) clock connections).announcements ∧
      s.connections.length = connections.length ∧ ∀ i, recordsOf i s.published =
        ((Served.ofConnections timeout (.start format year now) clock
          connections).records[i]?).getD [] by
    obtain ⟨s, hreaches, -, -, hserved⟩ := h
    exact ⟨s, hreaches, hserved⟩
  induction connections using List.reverseRecOn with
  | nil => exact ⟨_, .refl, rfl, rfl, rfl, rfl, fun _ => rfl⟩
  | append_singleton connections octets ih =>
    obtain ⟨s, hreaches, hphase, hgoing, hannounced, hlength, hrecords⟩ := ih
    have hsound := (sound_start format year).reaches hreaches
    obtain ⟨rfl, rfl⟩ := settings_of_reaches hreaches
    obtain ⟨c', hnext⟩ := reaches_next hphase hgoing timeout now clock octets
    have hfirst : s.first = connections.isEmpty := by
      rw [hsound.first, Bool.eq_iff_iff, List.isEmpty_iff_length_eq_zero, hlength,
        List.isEmpty_iff_length_eq_zero]
    have hlength' : s.connections.length = (Served.ofConnections timeout (.start s.format s.year now)
        clock connections).records.length := by
      rw [hlength, records_ofConnections, List.length_map]
    refine ⟨_, hreaches.trans hnext, hphase, hgoing, ?_, ?_, fun i => ?_⟩
    · dsimp only
      rw [announcements_ofConnections_concat, hannounced, hfirst]
    · dsimp only
      rw [List.length_append, List.length_append, hlength]
      rfl
    · dsimp only
      rw [records_ofConnections, List.map_append, ← records_ofConnections, hlength']
      refine (recordsOf_concat (hlength' ▸ hsound.numbered) hrecords _ i).trans ?_
      rw [published_events]
      rfl

/-- What two connections send. Only the lines of the second one pass a new year. -/
def twoLogs : List (List UInt8) :=
  [Lines.writeText [("Jan 10 16:15:30 mail postfix/qmgr[3]: 4AA091855DA0: removed", .lineFeed)] none,
    Lines.writeText [("Dec 31 23:59:59 mail postfix/qmgr[3]: 4AA091855DB0: removed", .lineFeed),
      ("Jan  1 00:00:00 mail postfix/qmgr[3]: 4AA091855DC0: removed", .lineFeed)] none]

theorem twoLogs_served_alone :
    ∃ s, Reaches (start .classic (some 2020)) s ∧ s.ServedAlone ∧ s.connections.length = 2 ∧
      (recordsOf 0 s.published).map (fun r => (r.location.line, r.time.year)) = [(1, 2020)] ∧
      (recordsOf 1 s.published).map (fun r => (r.location.line, r.time.year)) =
        [(1, 2020), (2, 2021)] ∧
      s.announced.countP (·.finishes) = 1 := by
  obtain ⟨s, hreaches, hannounced, hlength, hrecords⟩ :=
    exists_reaches_ofConnections 0 .classic (some 2020) teatime teatime twoLogs
  obtain ⟨-, -, hserved⟩ := served_alone hreaches
  refine ⟨s, hreaches, hserved, hlength, ?_, ?_, ?_⟩
  · rw [hrecords]
    decide +kernel
  · rw [hrecords]
    decide +kernel
  · rw [hannounced]
    decide +kernel

end Serving

end MailTrace
