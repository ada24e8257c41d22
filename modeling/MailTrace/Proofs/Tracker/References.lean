import MailTrace.Proofs.Tracker.Changes
import MailTrace.Service.Stores

/-!
# Where the lines of findings come from

The tracker makes up no line. What it keeps of a message refers to lines of records that came
(`Kept`), whichever messages they were handed through, and so does whatever it finds out.

1. A record keeps the invariant if its own line is among the known ones (`AllKept.take`).
2. A delivery is told with lines of open messages and of its attempts (`mem_lines_delivery`).
3. Hence what records lead to refers to their lines only (`known_findings`).
-/

namespace MailTrace.Tracker

open MailTrace.Time

/-! ## What is kept of a message -/

/-- What is kept of a message refers to known lines, and the attempts kept for a recipient are those
at that recipient. -/
structure Kept (known : LineRef → Prop) (e : Entry) : Prop where
  lines : ∀ l ∈ e.lines, known l
  waiting : ∀ x d, e.standing? x = some (.pending d) →
    d.attempt.recipient = x ∧ ∀ l ∈ d.lines, known l

section Kept

variable {known : LineRef → Prop} {e e' : Entry} {x : Address}

theorem kept_new (time : Instant) : Kept known (.new time) where
  lines _ h := absurd h List.not_mem_nil
  waiting _ _ h := nomatch h

/-- Only the lines and the recipients of a message matter. -/
theorem Kept.of_eq (h : Kept known e) (hl : e'.lines = e.lines)
    (hr : e'.recipients = e.recipients) : Kept known e' where
  lines := hl ▸ h.lines
  waiting x d hd := h.waiting x d (by rwa [Entry.standing?, hr] at hd)

theorem Kept.seen (h : Kept known e) {time : Instant} : Kept known (e.seen time) := h.of_eq rfl rfl

theorem Kept.append (h : Kept known e) {lines : List LineRef} (hlines : ∀ l ∈ lines, known l) :
    Kept known { e with lines := e.lines ++ lines } where
  lines l hl := (List.mem_append.1 hl).elim (h.lines l) (hlines l)
  waiting := h.waiting

theorem Kept.addLine (h : Kept known e) {line : LineRef} (hline : known line) :
    Kept known (e.addLine line) :=
  h.append fun _ hl => List.mem_singleton.1 hl ▸ hline

theorem Kept.adopt (h : Kept known e) {parent : QueueKey} {lines : List LineRef}
    (hlines : ∀ l ∈ lines, known l) : Kept known (adopt parent lines e) :=
  (h.append hlines).of_eq rfl rfl

@[simp] theorem standing?_setStanding (e : Entry) (a x : Address) (s : Standing) :
    (e.setStanding a s).standing? x = if x = a then some s else e.standing? x :=
  Table.get?_upsert ..

theorem Kept.setStanding (h : Kept known e) {s : Standing}
    (hs : ∀ d, s = .pending d → d.attempt.recipient = x ∧ ∀ l ∈ d.lines, known l) :
    Kept known (e.setStanding x s) where
  lines := h.lines
  waiting y d hd := by
    rw [standing?_setStanding] at hd
    split at hd
    · rename_i hy
      rw [hy]
      exact hs d (Option.some.inj hd)
    · exact h.waiting y d hd

@[simp] theorem standing?_settle (e : Entry) (x : Address) :
    e.settle.standing? x = (e.standing? x).map (·.settle) := Table.get?_map ..

theorem settle_ne_pending (s : Standing) (d : Deferral) : s.settle ≠ .pending d := by
  cases s <;> exact Standing.noConfusion

theorem Kept.settle (h : Kept known e) : Kept known e.settle where
  lines := h.lines
  waiting x d hd := by
    rw [standing?_settle] at hd
    obtain ⟨s, -, hs⟩ := Option.map_eq_some_iff.1 hd
    exact absurd hs (settle_ne_pending s d)

end Kept

/-- What is kept of every open message refers to known lines. -/
abbrev AllKept (known : LineRef → Prop) (entries : Entries) : Prop :=
  Every (fun _ => Kept known) entries

/-! ## Records -/

section Records

variable {known : LineRef → Prop} {entries : Entries} {key : QueueKey} {line : LineRef}

theorem lines_extend {waiting : Option Deferral} {a : Attempt} {daemon : String}
    (hw : ∀ d ∈ waiting, ∀ l ∈ d.lines, known l) (hline : known line) :
    ∀ l ∈ (Deferral.extend waiting a daemon line).lines, known l := by
  intro l hl
  rcases List.mem_append.1 hl with hl | hl
  · cases waiting with
    | none => exact absurd hl List.not_mem_nil
    | some d => exact hw d rfl l hl
  · exact List.mem_singleton.1 hl ▸ hline

theorem AllKept.stand (h : AllKept known entries) {x : Address} {s : Standing}
    (hs : ∀ d, s = .pending d → d.attempt.recipient = x ∧ ∀ l ∈ d.lines, known l) :
    AllKept known (stand entries key x s) :=
  h.modify fun _ he => he.setStanding hs

theorem AllKept.touch_id (h : AllKept known entries) {time : Instant} :
    AllKept known (touch entries key time id) :=
  h.touch (kept_new _) fun _ he => he.seen

theorem AllKept.attemptOpen (h : AllKept known entries) {waiting : Option Deferral} {a : Attempt}
    {daemon : String} (hw : ∀ d ∈ waiting, ∀ l ∈ d.lines, known l) (hline : known line) :
    AllKept known (attemptOpen entries key waiting a daemon line).1 := by
  have hlines : ∀ l ∈ (Deferral.extend waiting a daemon line).lines, known l :=
    lines_extend hw hline
  have hstep := attemptOpen_step entries key waiting a daemon line
  generalize Tracker.attemptOpen entries key waiting a daemon line = out at hstep ⊢
  cases hstep with
  | putOff =>
    refine h.stand fun d hd => ?_
    rw [← Standing.pending.inj hd]
    exact ⟨rfl, hlines⟩
  | handedOff =>
    exact (h.stand (s := .handedOff) fun _ hd => nomatch hd).handOff (kept_new _)
      (fun e he => he.seen.adopt hlines) fun e he => he.of_eq rfl rfl
  | settled => exact h.stand (s := .done) fun _ hd => nomatch hd

/-- The attempts kept for a recipient are those at that recipient, in known lines. -/
theorem AllKept.of_standingAt (h : AllKept known entries) {x : Address} {waiting : Option Deferral}
    (hw : standingAt entries key x = waiting.map .pending) :
    ∀ d ∈ waiting, d.attempt.recipient = x ∧ ∀ l ∈ d.lines, known l := by
  rintro d rfl
  obtain ⟨e, he, hx⟩ := Option.bind_eq_some_iff.1 hw
  exact (h _ e he).waiting _ d hx

theorem AllKept.attempt (h : AllKept known entries) {host daemon : String} {a : Attempt}
    (hline : known line) : AllKept known (attempt entries host daemon a line).1 := by
  have ht : AllKept known (touch entries ⟨host, a.queue⟩ line.time id) := h.touch_id
  have hstep := attempt_step entries host daemon a line
  generalize Tracker.attempt entries host daemon a line = out at hstep ⊢
  cases hstep with
  | fresh hw => exact ht.attemptOpen (fun d hd => (ht.of_standingAt hw d hd).2) hline
  | handedOff => exact ht
  | replaced => exact ht
  | ignored => exact ht

theorem AllKept.note (h : AllKept known entries) {r : Record} {queue : String} {f : Entry → Entry}
    (hf : Plain f) (hr : known r.ref) : AllKept known (note entries r queue f) :=
  h.touch (kept_new _) fun e he =>
    have hseen : Kept known (f (e.seen r.time)) := he.seen.of_eq (hf.lines _) (hf.recipients _)
    hseen.addLine hr

theorem AllKept.take (h : AllKept known entries) {r : Record} (hr : known r.ref) :
    AllKept known (take entries r).1 := by
  have hstep := take_step entries r
  generalize Tracker.take entries r = out at hstep ⊢
  cases hstep with
  | note hf => exact h.note hf hr
  | noteBoth hf hg => exact (h.note hf hr).note hg hr
  | attempt => exact h.attempt hr
  | expired => exact h.modify fun e he => he.settle.of_eq rfl rfl
  | @removed queue =>
    have hleft : AllKept known (entries.modify ⟨r.header.host, queue⟩ fun e =>
        { e.settle.active r.time with removed := true }) :=
      h.modify fun e he => he.settle.of_eq rfl rfl
    exact hleft.shrunk (shrunk_release _ _ _) fun _ e n he => he.of_eq rfl rfl
  | rejected => exact h.shrunk (shrunk_erase _ _) fun _ e n he => he.of_eq rfl rfl
  | relayed => exact h
  | nothing => exact h

theorem AllKept.handle {settings : Settings} {s : State} {r : Record}
    (h : AllKept known s.entries) (hr : known r.ref) :
    AllKept known (s.handle settings r).1.entries := by
  rcases s.handle_cases settings r with ⟨he, -⟩ | ⟨he, -⟩
  · rw [he]
    exact h.take hr
  · rw [he]
    exact (h.take hr).shrunk (shrunk_prune _ _ _) fun _ e n he => he.of_eq rfl rfl

theorem AllKept.run {settings : Settings} {s : State} {rs : List Record}
    (h : AllKept known s.entries) (hrs : ∀ r ∈ rs, known r.ref) :
    AllKept known (s.run settings rs).1.entries :=
  State.run_induction (I := fun s => AllKept known s.entries) h
    fun _ r hr hs => hs.handle (hrs r hr)

end Records

/-! ## Findings -/

/-- The lines that a finding refers to. -/
def Finding.lines : Finding → List LineRef
  | .delivery d | .replacement d => d.lines
  | .relayedBounce b => [b.line]

/-- A finding refers to known lines. -/
def Finding.Known (known : LineRef → Prop) (f : Finding) : Prop := ∀ l ∈ f.lines, known l

/-- A delivery is told with the lines of open messages and those of its attempts. -/
theorem mem_lines_delivery {entries : Entries} {key : QueueKey} {a : Attempt} {status : Status}
    {daemon : String} {first last : Instant} {lines : List LineRef} {l : LineRef}
    (hl : l ∈ (delivery entries key a status daemon first last lines).lines) :
    (∃ k e, entries.get? k = some e ∧ l ∈ e.lines) ∨ l ∈ lines := by
  simp only [delivery, sortLines, List.mem_mergeSort, List.mem_append, List.mem_flatMap,
    List.mem_filterMap] at hl
  rcases hl with ⟨e, ⟨k, -, he⟩, hl⟩ | hl
  · exact .inl ⟨k, e, he, hl⟩
  · exact .inr hl

/-- The attempts at the recipients of a message who wait, none if it is not open. -/
def pendingAt (entries : Entries) (key : QueueKey) : List Deferral :=
  ((entries.get? key).map (·.pending)).getD []

theorem mem_pendingAt {entries : Entries} {key : QueueKey} {d : Deferral}
    (h : d ∈ pendingAt entries key) :
    ∃ e x, entries.get? key = some e ∧ e.standing? x = some (.pending d) := by
  unfold pendingAt at h
  cases he : entries.get? key with
  | none => simp [he] at h
  | some e =>
    rw [he, Option.map_some, Option.getD_some] at h
    obtain ⟨⟨x, s⟩, hr, hs⟩ := List.mem_filterMap.1 h
    refine ⟨e, x, rfl, ?_⟩
    cases s with
    | pending d' => rw [← Option.some.inj hs]; exact Table.mem_rows_iff.1 hr
    | handedOff => cases hs
    | done => cases hs

section Findings

variable {known : LineRef → Prop} {entries : Entries} {key : QueueKey}

theorem AllKept.known_delivery (h : AllKept known entries) {a : Attempt} {status : Status}
    {daemon : String} {first last : Instant} {lines : List LineRef} (hl : ∀ l ∈ lines, known l) :
    (Finding.delivery (delivery entries key a status daemon first last lines)).Known known := by
  intro l hm
  rcases mem_lines_delivery hm with ⟨k, e, he, hm⟩ | hm
  · exact (h k e he).lines l hm
  · exact hl l hm

theorem AllKept.known_pendingAt (h : AllKept known entries) {d : Deferral}
    (hd : d ∈ pendingAt entries key) : ∀ l ∈ d.lines, known l := by
  obtain ⟨e, x, he, hx⟩ := mem_pendingAt hd
  exact ((h key e he).waiting x d hx).2

theorem AllKept.known_flush (h : AllKept known entries) :
    ∀ f ∈ flush entries key, f.Known known := by
  intro f hf
  obtain ⟨d, hd, rfl⟩ := List.mem_map.1 hf
  exact h.known_delivery (h.known_pendingAt hd)

theorem AllKept.known_final (h : AllKept known entries) {a : Attempt} {daemon : String}
    {line : LineRef} (hline : known line) :
    (Finding.delivery (final entries key a daemon line)).Known known :=
  h.known_delivery fun _ hl => List.mem_singleton.1 hl ▸ hline

theorem AllKept.known_attemptOpen (h : AllKept known entries) {waiting : Option Deferral}
    {a : Attempt} {daemon : String} {line : LineRef} (hw : ∀ d ∈ waiting, ∀ l ∈ d.lines, known l)
    (hline : known line) :
    ∀ f ∈ (Tracker.attemptOpen entries key waiting a daemon line).2, f.Known known := by
  have hdone : AllKept known (Tracker.stand entries key a.recipient .done) :=
    h.stand fun _ hd => nomatch hd
  have hstep := attemptOpen_step entries key waiting a daemon line
  generalize Tracker.attemptOpen entries key waiting a daemon line = out at hstep ⊢
  intro f hf
  cases hstep with
  | putOff => exact absurd hf List.not_mem_nil
  | handedOff => exact absurd hf List.not_mem_nil
  | settled =>
    rcases List.mem_append.1 hf with hf | hf
    · obtain ⟨d, hd, rfl⟩ := Option.map_eq_some_iff.1 (Option.mem_toList.1 hf)
      exact hdone.known_delivery (hw d hd)
    · rw [List.mem_singleton.1 hf]
      exact hdone.known_final hline

theorem AllKept.known_attempt (h : AllKept known entries) {host daemon : String} {a : Attempt}
    {line : LineRef} (hline : known line) :
    ∀ f ∈ (Tracker.attempt entries host daemon a line).2, f.Known known := by
  have ht : AllKept known (touch entries ⟨host, a.queue⟩ line.time id) := h.touch_id
  have hstep := attempt_step entries host daemon a line
  generalize Tracker.attempt entries host daemon a line = out at hstep ⊢
  intro f hf
  cases hstep with
  | fresh hw => exact ht.known_attemptOpen (fun d hd => (ht.of_standingAt hw d hd).2) hline f hf
  | handedOff => exact absurd hf List.not_mem_nil
  | replaced =>
    rw [List.mem_singleton.1 hf]
    exact ht.known_final hline
  | ignored => exact absurd hf List.not_mem_nil

theorem AllKept.known_take (h : AllKept known entries) {r : Record} (hr : known r.ref) :
    ∀ f ∈ (Tracker.take entries r).2, f.Known known := by
  have hstep := take_step entries r
  generalize Tracker.take entries r = out at hstep ⊢
  intro f hf
  cases hstep with
  | note => exact absurd hf List.not_mem_nil
  | noteBoth => exact absurd hf List.not_mem_nil
  | attempt => exact h.known_attempt hr f hf
  | expired =>
    obtain ⟨d, hd, hf⟩ := List.mem_flatMap.1 hf
    rcases List.mem_cons.1 hf with rfl | hf
    · exact h.known_delivery (h.known_pendingAt hd)
    · rw [List.mem_singleton.1 hf]
      exact h.known_delivery fun _ hl => List.mem_singleton.1 hl ▸ hr
  | removed => exact h.known_flush f hf
  | rejected => exact absurd hf List.not_mem_nil
  | relayed =>
    intro l hl
    rw [List.mem_singleton.1 hf] at hl
    exact List.mem_singleton.1 hl ▸ hr
  | nothing => exact absurd hf List.not_mem_nil

theorem AllKept.known_handle {settings : Settings} {s : State} {r : Record}
    (h : AllKept known s.entries) (hr : known r.ref) :
    ∀ f ∈ (s.handle settings r).2, f.Known known := by
  intro f hf
  rcases s.handle_cases settings r with ⟨-, he⟩ | ⟨-, he⟩
  · exact h.known_take hr f (he ▸ hf)
  · rw [he] at hf
    rcases List.mem_append.1 hf with hf | hf
    · exact h.known_take hr f hf
    · obtain ⟨row, -, hf⟩ := List.mem_flatMap.1 hf
      exact (h.take hr).known_flush f hf

/-- What records lead to refers to their lines only. -/
theorem known_findings {settings : Settings} {records : List Record}
    (hrs : ∀ r ∈ records, known r.ref) : ∀ f ∈ findings settings records, f.Known known := by
  have hempty : AllKept known State.empty.entries := every_empty
  intro f hf
  rcases List.mem_append.1 hf with hf | hf
  · obtain ⟨before, r, rest, he, hf⟩ := State.mem_run.1 hf
    have hbefore : AllKept known (State.empty.run settings before).1.entries :=
      hempty.run fun r hr => hrs r (he ▸ List.mem_append_left _ hr)
    exact hbefore.known_handle (hrs r (he ▸ List.mem_append_right _ List.mem_cons_self)) f hf
  · obtain ⟨key, -, hf⟩ := List.mem_flatMap.1 hf
    exact (hempty.run hrs).known_flush f hf

end Findings

end MailTrace.Tracker
