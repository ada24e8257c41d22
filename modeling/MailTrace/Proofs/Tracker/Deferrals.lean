import Mathlib.Data.List.Perm.Subperm
import MailTrace.Proofs.Tracker.Emission
import MailTrace.Proofs.Tracker.Lineage

/-!
# What becomes of attempts that are put off

While a recipient of a message waits, the attempts that are put off are gathered. They are told in one
delivery when the waiting ends (`Summarises`), or their lines go with the message to the queue in which
it goes on (`Carries`). They are lost if the message is closed for another one that left its queue
while the recipient waits (`Forgets`).

1. What one record does to the attempts that are gathered (`account_take`).
2. What was gathered, told and handed on so far fits how the recipient stands (`Accounted`), from the
   record that opens a message to the one that closes it (`accounted_run`).
-/

namespace MailTrace.Tracker

open MailTrace.Time

/-! ## Attempts that are put off -/

instance decidableFresh : DecidablePred Fresh
  | none => .isTrue trivial
  | some (.pending _) => .isTrue trivial
  | some .handedOff => .isFalse id
  | some .done => .isFalse id

/-- A record tells that a recipient of a message is put off who waits or is new. -/
def defers (entries : Entries) (key : QueueKey) (x : Address) (r : Record) : Bool :=
  match r.payload with
  | .attempt a =>
    (⟨r.header.host, a.queue⟩ : QueueKey) = key && a.recipient = x && a.status = .deferred &&
      decide (Fresh (standingAt entries key x))
  | _ => false

/-- The records that tell that a recipient is put off, while there is no result and the message does
not go on. -/
def deferrals (settings : Settings) (key : QueueKey) (x : Address) :
    State → List Record → List Record
  | _, [] => []
  | s, r :: rs =>
    [r].filter (defers s.entries key x) ++ deferrals settings key x (s.handle settings r).1 rs

theorem deferrals_append (settings : Settings) (key : QueueKey) (x : Address) (s : State)
    (rs more : List Record) : deferrals settings key x s (rs ++ more) =
      deferrals settings key x s rs ++ deferrals settings key x (s.run settings rs).1 more := by
  induction rs generalizing s with
  | nil => rfl
  | cons r rs ih => rw [List.cons_append, deferrals, ih, deferrals, List.append_assoc, State.run]

/-- A finding tells that a recipient was put off. -/
def Finding.isPutOff (f : Finding) : Bool := f.delivery?.any fun d => d.status = .deferred

/-- The findings that tell so. -/
def putOffs (found : List Finding) : List Finding := found.filter (·.isPutOff)

/-! ## Attempts that are gathered -/

/-- What is kept of the attempts of some records, which were all put off. -/
structure Deferral.Sums (d : Deferral) (rs : List Record) : Prop where
  first : rs.head?.map (·.time) = some d.first
  last : ∃ before r, rs = before ++ [r] ∧ r.payload = .attempt d.attempt ∧ d.last = r.time ∧
    d.daemon = r.header.daemonName
  lines : d.lines = rs.map (·.ref)

/-- A delivery tells of all these attempts: of each line as often as there are attempts with it, of the
moments of the first and of the last one, and otherwise of the last one. -/
structure Summarises (rs : List Record) (d : Delivery) : Prop where
  lines : (rs.map (·.ref)).Subperm d.lines
  first : rs.head?.map (·.time) = some d.firstAttemptTime
  last : ∃ before r a, rs = before ++ [r] ∧ r.payload = .attempt a ∧ d.deliveryTime = r.time ∧
    d.dsn = a.dsn ∧ d.relay = a.relay ∧ d.delay = a.delay ∧ d.extraMessage = a.extraMessage ∧
      d.direction = .ofDaemon r.header.daemonName

/-- What is kept of some attempts, if there are any. -/
def Tally (rs : List Record) : Option Deferral → Prop
  | none => rs = []
  | some d => d.Sums rs

section Gathered

variable {entries : Entries} {key : QueueKey} {d : Deferral} {rs : List Record} {r : Record}
  {a : Attempt} {waiting : Option Deferral}

theorem summarises_summary (h : d.Sums rs) (entries : Entries) (key : QueueKey) :
    ∃ delivery, summary entries key d = .delivery delivery ∧ Summarises rs delivery := by
  obtain ⟨before, r, hrs, ha, htime, hdaemon⟩ := h.last
  refine ⟨_, rfl, ⟨?_, h.first, before, r, d.attempt, hrs, ha, htime, rfl, rfl, rfl, rfl, ?_⟩⟩
  · rw [← h.lines]
    exact (List.sublist_append_right _ _).subperm.trans (List.mergeSort_perm _ _).symm.subperm
  · exact congrArg Direction.ofDaemon hdaemon

/-- One more attempt is put off. -/
theorem Tally.extend (h : Tally rs waiting) (ha : r.payload = .attempt a) :
    (Deferral.extend waiting a r.header.daemonName r.ref).Sums (rs ++ [r]) where
  first := by
    cases waiting with
    | none =>
      rw [show rs = [] from h]
      rfl
    | some d =>
      rw [List.head?_append_of_ne_nil _ ?_]
      · exact h.first
      · rintro rfl
        cases h.first
  last := ⟨rs, r, rfl, ha, rfl, rfl⟩
  lines := by
    cases waiting with
    | none =>
      rw [show rs = [] from h]
      rfl
    | some d =>
      rw [List.map_append, ← h.lines]
      rfl

theorem Tally.lines (h : Tally rs waiting) : (waiting.map (·.lines)).getD [] = rs.map (·.ref) := by
  cases waiting with
  | none =>
    rw [show rs = [] from h]
    rfl
  | some d => exact h.lines

theorem putOffs_append (found more : List Finding) :
    putOffs (found ++ more) = putOffs found ++ putOffs more := List.filter_append ..

theorem putOffs_summaries (entries : Entries) (key : QueueKey) (waiting : Option Deferral) :
    putOffs (waiting.map (summary entries key)).toList = (waiting.map (summary entries key)).toList := by
  cases waiting <;> rfl

theorem putOffs_of_status_ne {f : Finding} {delivery : Delivery} (hf : f.delivery? = some delivery)
    (h : delivery.status ≠ .deferred) : putOffs [f] = [] := by
  refine List.filter_cons_of_neg ?_
  rw [Finding.isPutOff, hf, Option.any_some, decide_eq_true_eq]
  exact h

end Gathered

/-! ## One record -/

/-- The message goes on in another queue, and the message there gets the lines of the attempts that
were put off and the one of the record. -/
def Carries (entries : Entries) (key : QueueKey) (x : Address) (r : Record)
    (lines : List LineRef) : Prop :=
  HandsOff entries key x r ∧ ∃ a queue e, r.payload = .attempt a ∧ a.handOff? = some queue ∧
    (⟨key.host, queue⟩ : QueueKey) ≠ key ∧ (take entries r).1.get? ⟨key.host, queue⟩ = some e ∧
      e.lines = ((entries.get? ⟨key.host, queue⟩).map (·.lines)).getD [] ++ (lines ++ [r.ref])

/-- Another message leaves its queue and this one is closed for it, although a recipient waits. -/
def Forgets (entries : Entries) (key : QueueKey) (x : Address) (r : Record) : Prop :=
  (∃ queue, r.payload = .removed queue ∧ (⟨r.header.host, queue⟩ : QueueKey) ≠ key) ∧
    (take entries r).1.contains key = false ∧ (deferralAt entries key x).isSome = true

/-- What a record does to the attempts at a recipient that are put off: the ones it adds, what is told
of them, and how the recipient stands then. -/
inductive Account (entries : Entries) (key : QueueKey) (x : Address) (r : Record) :
    List Record → List Finding → Option (Option Standing) → Prop where
  | same : Account entries key x r [] [] (some (standingAt entries key x))
  | closed (h : deferralAt entries key x = none) : Account entries key x r [] [] none
  | forgotten (h : Forgets entries key x r) : Account entries key x r [] [] none
  | putOff {a : Attempt} (hfresh : Fresh (standingAt entries key x)) (ha : r.payload = .attempt a) :
      Account entries key x r [r] []
        (some (some (.pending (.extend (deferralAt entries key x) a r.header.daemonName r.ref))))
  | carried (h : Carries entries key x r (((deferralAt entries key x).map (·.lines)).getD [])) :
      Account entries key x r [] [] (some (some .handedOff))
  | settled (hfresh : Fresh (standingAt entries key x)) (entries' : Entries) :
      Account entries key x r [] ((deferralAt entries key x).map (summary entries' key)).toList
        (some (some .done))
  | settledAndClosed (hfresh : Fresh (standingAt entries key x)) (entries' : Entries) :
      Account entries key x r [] ((deferralAt entries key x).map (summary entries' key)).toList none

section Account

variable {entries entries' : Entries} {key k : QueueKey} {x : Address} {r : Record}
  {known : LineRef → Prop}

theorem Quiet.account (h : Quiet entries entries' key x) :
    Account entries key x r [] [] (stateAt entries' key x) := by
  rcases h with h | h
  · cases hs : stateAt entries key x with
    | none =>
      rw [h, hs]
      exact .closed (by rw [deferralAt, Tracker.standingAt_eq, hs]; rfl)
    | some s =>
      rw [h, hs]
      have hstand : standingAt entries key x = s := by rw [Tracker.standingAt_eq, hs]; rfl
      exact hstand ▸ .same
  · rw [h]
    exact .same

theorem Quiet.deferralAt_eq (h : Quiet entries entries' key x) :
    deferralAt entries' key x = deferralAt entries key x := by
  unfold deferralAt
  rw [h.standingAt_eq]

theorem deferralAt_of_standingAt {waiting : Option Deferral}
    (h : standingAt entries key x = waiting.map .pending) : deferralAt entries key x = waiting := by
  rw [deferralAt, h]
  cases waiting <;> rfl

/-! ### Attempts -/

variable {a : Attempt} {host daemon : String} {line : LineRef}

/-- An attempt at one recipient is nothing to another one. -/
theorem quiet_attempt (h : ¬(key = ⟨host, a.queue⟩ ∧ x = a.recipient)) :
    Quiet entries (attempt entries host daemon a line).1 key x := by
  have htouch : Quiet entries (touch entries ⟨host, a.queue⟩ line.time id) key x :=
    quiet_touch fun _ => rfl
  have hstep := attempt_step entries host daemon a line
  generalize attempt entries host daemon a line = out at hstep ⊢
  cases hstep with
  | fresh => exact htouch.trans (quiet_attemptOpen h)
  | handedOff => exact htouch
  | replaced => exact htouch
  | ignored => exact htouch

/-- What is told of an attempt is told of its recipient. -/
theorem about_attempt (hk : AllKept known entries) :
    about key x (attempt entries host daemon a line).2 =
      if key = ⟨host, a.queue⟩ ∧ x = a.recipient then (attempt entries host daemon a line).2
      else [] := by
  have htouched : AllKept known (touch entries ⟨host, a.queue⟩ line.time id) := hk.touch_id
  refine about_eq_ite ?_
  have hstep := attempt_step entries host daemon a line
  generalize attempt entries host daemon a line = out at hstep ⊢
  cases hstep with
  | fresh hw => exact isAbout_of_mem_attemptOpen fun d hd => (htouched.of_standingAt hw d hd).1
  | handedOff => exact fun f hf => absurd hf List.not_mem_nil
  | replaced =>
    intro f hf
    rw [List.mem_singleton.1 hf]
    exact isAbout_delivery ..
  | ignored => exact fun f hf => absurd hf List.not_mem_nil

theorem defers_iff (ha : r.payload = .attempt a) :
    defers entries key x r = true ↔
      (key = ⟨r.header.host, a.queue⟩ ∧ x = a.recipient) ∧ a.status = .deferred ∧
        Fresh (standingAt entries key x) := by
  unfold defers
  rw [ha]
  simp only [Bool.and_eq_true, decide_eq_true_eq]
  constructor
  · rintro ⟨⟨⟨rfl, rfl⟩, hstatus⟩, hfresh⟩
    exact ⟨⟨rfl, rfl⟩, hstatus, hfresh⟩
  · rintro ⟨⟨rfl, rfl⟩, hstatus, hfresh⟩
    exact ⟨⟨⟨rfl, rfl⟩, hstatus⟩, hfresh⟩

theorem filter_defers_of_not (h : ¬ defers entries key x r = true) :
    [r].filter (defers entries key x) = [] := List.filter_cons_of_neg h

/-- The message that another one goes on in gets the lines. -/
theorem exists_child_handOff {p : QueueKey} {queue : String}
    (hself : (⟨p.host, queue⟩ : QueueKey) ≠ p) (entries : Entries) (time : Instant)
    (lines : List LineRef) :
    ∃ e, (handOff entries p queue time lines).get? ⟨p.host, queue⟩ = some e ∧
      e.lines = ((entries.get? ⟨p.host, queue⟩).map (·.lines)).getD [] ++ lines := by
  refine ⟨adopt p lines (((entries.get? ⟨p.host, queue⟩).getD (.new time)).seen time), ?_, ?_⟩
  · have hadopted := get?_touch_self entries ⟨p.host, queue⟩ time (adopt p lines)
    rw [handOff_eq hself]
    dsimp only
    split
    · exact hadopted
    · rwa [Table.get?_modify, if_neg hself]
  · cases entries.get? ⟨p.host, queue⟩ <;> rfl

/-- An attempt at a recipient who waits or is new. -/
theorem account_attemptOpen (ha : r.payload = .attempt a) (hself : a.handOff? ≠ some a.queue)
    {touched : Entries} {waiting : Option Deferral}
    (htouched : touched = touch entries ⟨r.header.host, a.queue⟩ r.ref.time id)
    (hw : standingAt touched ⟨r.header.host, a.queue⟩ a.recipient = waiting.map .pending)
    (htake : take entries r =
      attemptOpen touched ⟨r.header.host, a.queue⟩ waiting a r.header.daemonName r.ref) :
    Account entries ⟨r.header.host, a.queue⟩ a.recipient r
      ([r].filter (defers entries ⟨r.header.host, a.queue⟩ a.recipient))
      (putOffs (take entries r).2)
      (stateAt (take entries r).1 ⟨r.header.host, a.queue⟩ a.recipient) := by
  have hquiet : Quiet entries touched ⟨r.header.host, a.queue⟩ a.recipient :=
    htouched ▸ quiet_touch fun _ => rfl
  have hopen : ∃ e, touched.get? ⟨r.header.host, a.queue⟩ = some e :=
    ⟨_, htouched ▸ get?_touch_self ..⟩
  obtain ⟨e, he⟩ := hopen
  have hfresh : Fresh (standingAt entries ⟨r.header.host, a.queue⟩ a.recipient) := by
    rw [← hquiet.standingAt_eq, hw]
    exact fresh_map_pending waiting
  have hdeferral : deferralAt entries ⟨r.header.host, a.queue⟩ a.recipient = waiting :=
    hquiet.deferralAt_eq.symm.trans (deferralAt_of_standingAt hw)
  have hstep := attemptOpen_step touched ⟨r.header.host, a.queue⟩ waiting a r.header.daemonName r.ref
  rw [← htake] at hstep
  generalize hout : take entries r = out at hstep ⊢
  cases hstep with
  | putOff hs =>
    have hdefers : [r].filter (defers entries ⟨r.header.host, a.queue⟩ a.recipient) = [r] :=
      List.filter_cons_of_pos ((defers_iff ha).2 ⟨⟨rfl, rfl⟩, hs, hfresh⟩)
    rw [hdefers, stateAt_stand_self he, ← hdeferral]
    exact .putOff hfresh ha
  | @handedOff queue hs hc =>
    have hne : (⟨r.header.host, queue⟩ : QueueKey) ≠ ⟨r.header.host, a.queue⟩ := by
      intro heq
      rw [(QueueKey.mk.inj heq).2] at hc
      exact hself hc
    have hsame : ∀ st, (stand touched ⟨r.header.host, a.queue⟩ a.recipient st).get?
        ⟨r.header.host, queue⟩ = entries.get? ⟨r.header.host, queue⟩ := fun st => by
      rw [Table.get?_modify, if_neg hne, htouched, get?_touch_of_ne hne]
    obtain ⟨child, hchild, hlines⟩ := exists_child_handOff (p := ⟨r.header.host, a.queue⟩) hne
      (stand touched ⟨r.header.host, a.queue⟩ a.recipient .handedOff) r.ref.time
      ((waiting.map (·.lines)).getD [] ++ [r.ref])
    rw [hsame] at hlines
    rw [filter_defers_of_not fun h => hs ((defers_iff ha).1 h).2.1,
      quiet_handOff.stateAt_eq_some (stateAt_stand_self he _ _)]
    refine .carried ⟨⟨hfresh, a, ha, rfl, rfl, hs, by rw [hc]; rfl⟩, a, queue, child, ha, hc, hne, ?_, ?_⟩
    · rw [hout]
      exact hchild
    · rw [hdeferral]
      exact hlines
  | settled hs =>
    rw [filter_defers_of_not fun h => hs ((defers_iff ha).1 h).2.1, stateAt_stand_self he,
      putOffs_append, putOffs_summaries, putOffs_of_status_ne rfl hs, List.append_nil, ← hdeferral]
    exact .settled hfresh _

/-- A recipient who has a result or whose message went on, is not put off. -/
theorem account_attempt_of_not_fresh {touched : Entries} (ha : r.payload = .attempt a)
    (hquiet : Quiet entries touched key x) {st : Standing}
    (hst : standingAt touched key x = some st) (hfresh : ¬Fresh (some st)) :
    Account entries key x r ([r].filter (defers entries key x)) [] (stateAt touched key x) := by
  rw [hquiet.standingAt_eq] at hst
  rw [filter_defers_of_not fun h => hfresh (hst ▸ ((defers_iff ha).1 h).2.2)]
  exact hquiet.account

theorem account_attempt (hk : AllKept known entries) (ha : r.payload = .attempt a)
    (hself : a.handOff? ≠ some a.queue) :
    Account entries key x r ([r].filter (defers entries key x))
      (putOffs (about key x (take entries r).2)) (stateAt (take entries r).1 key x) := by
  have htake : take entries r = attempt entries r.header.host r.header.daemonName a r.ref := by
    rw [take, ha]
  by_cases hat : key = ⟨r.header.host, a.queue⟩ ∧ x = a.recipient
  · rw [htake, about_attempt hk, if_pos hat]
    obtain ⟨rfl, rfl⟩ := hat
    have hquiet : Quiet entries (touch entries ⟨r.header.host, a.queue⟩ r.ref.time id)
        ⟨r.header.host, a.queue⟩ a.recipient := quiet_touch fun _ => rfl
    have hstep := attempt_step entries r.header.host r.header.daemonName a r.ref
    generalize hout : attempt entries r.header.host r.header.daemonName a r.ref = out
      at hstep htake ⊢
    cases hstep with
    | fresh hw =>
      have hopen := account_attemptOpen ha hself rfl hw htake
      rwa [htake] at hopen
    | handedOff hst => exact account_attempt_of_not_fresh ha hquiet hst id
    | replaced hst hs =>
      rw [putOffs_of_status_ne rfl hs]
      exact account_attempt_of_not_fresh ha hquiet hst id
    | ignored hst => exact account_attempt_of_not_fresh ha hquiet hst id
  · rw [filter_defers_of_not fun h => hat ((defers_iff ha).1 h).1, htake, about_attempt hk,
      if_neg hat]
    exact (quiet_attempt hat).account

/-! ### Other records -/

theorem not_defers_of_payload (h : ∀ a, r.payload ≠ .attempt a) : ¬ defers entries key x r = true := by
  unfold defers
  split
  · rename_i a ha
    exact absurd ha (h a)
  · exact Bool.false_ne_true

/-- What is told when no recipient of a message waits any longer. -/
theorem account_settle {f : Entry → Entry} {tell : Deferral → List Finding}
    (hf : ∀ e, (f e).recipients = e.settle.recipients)
    (htell : ∀ d, putOffs (tell d) = [summary entries key d])
    (hs : Shrunk (entries.modify key f) entries') :
    Account entries key x r [] (putOffs (((deferralAt entries key x).map tell).getD []))
      (stateAt entries' key x) := by
  have hstate : stateAt entries' key x = none ∨
      stateAt entries' key x = stateAt (entries.modify key f) key x := hs.stateAt
  cases hd : deferralAt entries key x with
  | none =>
    rw [stateAt_settle_eq_self hf hd] at hstate
    rw [Option.map_none, Option.getD_none]
    rcases hstate with h | h
    · rw [h]
      exact .closed hd
    · exact Quiet.account (.inl h)
  | some d =>
    have hfresh := fresh_of_deferralAt hd
    rw [Option.map_some, Option.getD_some, htell]
    rw [stateAt_settle hf, if_pos rfl, stateAt_eq_some (deferralAt_eq_some_iff.1 hd)] at hstate
    have htold : [summary entries key d] =
        ((deferralAt entries key x).map (summary entries key)).toList := by rw [hd]; rfl
    rw [htold]
    rcases hstate with h | h
    · rw [h]
      exact .settledAndClosed hfresh entries
    · rw [h]
      exact .settled hfresh entries

theorem account_remove (hk : AllKept known entries) {queue : String} (hr : r.payload = .removed queue) :
    Account entries key x r [] (putOffs (about key x (take entries r).2))
      (stateAt (take entries r).1 key x) := by
  have htake : take entries r = remove entries ⟨r.header.host, queue⟩ r.time := by rw [take, hr]
  have hshrunk : Shrunk (entries.modify ⟨r.header.host, queue⟩ (leave r.time)) (take entries r).1 := by
    rw [htake, remove_eq]
    exact shrunk_release _ _ _
  have habout : about key x (take entries r).2 = if key = ⟨r.header.host, queue⟩ then
      ((deferralAt entries key x).map fun d =>
        [summary entries ⟨r.header.host, queue⟩ d]).getD [] else [] := by
    rw [htake]
    exact about_flush hk key _ x
  rw [habout]
  by_cases hkey : key = ⟨r.header.host, queue⟩
  · subst hkey
    rw [if_pos rfl]
    exact account_settle (f := leave r.time) (fun _ => rfl) (fun _ => rfl) hshrunk
  · rw [if_neg hkey]
    have hstate : stateAt (take entries r).1 key x = none ∨ stateAt (take entries r).1 key x =
        stateAt (entries.modify ⟨r.header.host, queue⟩ (leave r.time)) key x := hshrunk.stateAt
    have hsame : stateAt (entries.modify ⟨r.header.host, queue⟩ (leave r.time)) key x =
        stateAt entries key x := by
      unfold stateAt
      rw [Table.get?_modify, if_neg hkey]
    rw [hsame] at hstate
    rcases hstate with h | h
    · rw [h]
      by_cases hwaits : (deferralAt entries key x).isSome = true
      · exact .forgotten ⟨⟨queue, hr, Ne.symm hkey⟩, stateAt_eq_none_iff.1 h, hwaits⟩
      · exact .closed (Option.not_isSome_iff_eq_none.1 hwaits)
    · exact Quiet.account (.inl h)

/-- **One record.** Unless it rejects a message or hands one on to its own queue, a record adds to what
is gathered for a recipient, tells of all of it, or hands it on, if the message is not closed for
another one. -/
theorem account_take (hk : AllKept known entries)
    (hreject : ∀ queue text, r.payload ≠ .milterRejected queue text)
    (hself : ∀ a, r.payload = .attempt a → a.handOff? ≠ some a.queue) :
    Account entries key x r ([r].filter (defers entries key x))
      (putOffs (about key x (take entries r).2)) (stateAt (take entries r).1 key x) := by
  by_cases hattempt : ∃ a, r.payload = .attempt a
  · obtain ⟨a, ha⟩ := hattempt
    exact account_attempt hk ha (hself a ha)
  · rw [filter_defers_of_not (not_defers_of_payload fun a ha => hattempt ⟨a, ha⟩)]
    have hremove : ∀ queue, r.payload = .removed queue → Account entries key x r []
        (putOffs (about key x (take entries r).2)) (stateAt (take entries r).1 key x) :=
      fun _ => account_remove hk
    have hstep := take_step entries r
    generalize hout : take entries r = out at hstep hremove ⊢
    cases hstep with
    | note hf => exact (quiet_note hf).account
    | noteBoth hf hg => exact ((quiet_note hf).trans (quiet_note hg)).account
    | attempt ha => exact absurd ⟨_, ha⟩ hattempt
    | @expired e =>
      rw [about_expire hk]
      by_cases hkey : key = ⟨r.header.host, e.queue⟩
      · subst hkey
        rw [if_pos rfl]
        exact account_settle (f := fun e => e.settle.active r.time) (fun _ => rfl) (fun _ => rfl) (.refl _)
      · rw [if_neg hkey]
        refine Quiet.account (.inl ?_)
        show stateAt (entries.modify _ _) key x = _
        unfold stateAt
        rw [Table.get?_modify, if_neg hkey]
    | removed hr => exact hremove _ hr
    | rejected hr => exact absurd hr (hreject _ _)
    | relayed => exact (Quiet.refl ..).account
    | nothing => exact (Quiet.refl ..).account

end Account

/-! ## What is gathered, told and handed on -/

/-- A recipient was never put off, or all attempts that were put off are told at once. -/
def Told (rs : List Record) (told : List Finding) : Prop :=
  (rs = [] ∧ told = []) ∨ ∃ d, told = [.delivery d] ∧ Summarises rs d

/-- What was told of the attempts that were put off fits how the recipient stands. -/
def Accounted (carried : List Record → Prop) (forgotten : Prop) (rs : List Record)
    (told : List Finding) : Option (Option Standing) → Prop
  | some none => rs = [] ∧ told = []
  | some (some (.pending d)) => d.Sums rs ∧ told = []
  | some (some .handedOff) => told = [] ∧ carried rs
  | some (some .done) => Told rs told
  | none => Told rs told ∨ told = [] ∧ (carried rs ∨ forgotten)

section Accounted

variable {entries : Entries} {key : QueueKey} {x : Address} {r : Record} {rs more : List Record}
  {told : List Finding} {carried carried' : List Record → Prop} {forgotten forgotten' : Prop}

/-- While a recipient waits or is new, nothing was told, and everything is kept. -/
theorem Accounted.tally (h : Accounted carried forgotten rs told (some (standingAt entries key x)))
    (hfresh : Fresh (standingAt entries key x)) :
    Tally rs (deferralAt entries key x) ∧ told = [] := by
  unfold deferralAt
  generalize standingAt entries key x = s at h hfresh
  rcases s with _ | s
  · exact h
  · cases s with
    | pending d => exact h
    | handedOff => exact hfresh.elim
    | done => exact hfresh.elim

theorem Tally.told_summary {waiting : Option Deferral} (h : Tally rs waiting) (entries : Entries)
    (key : QueueKey) : Told rs (waiting.map (summary entries key)).toList := by
  cases waiting with
  | none => exact .inl ⟨h, rfl⟩
  | some d =>
    obtain ⟨delivery, hsummary, hd⟩ := summarises_summary h entries key
    exact .inr ⟨delivery, congrArg ([·]) hsummary, hd⟩

/-- If the recipient does not wait, closing the message loses nothing. -/
theorem Accounted.closed
    (h : Accounted carried forgotten rs told (some (standingAt entries key x)))
    (hd : deferralAt entries key x = none) : Accounted carried forgotten rs told none := by
  unfold deferralAt at hd
  generalize standingAt entries key x = s at h hd
  rcases s with _ | s
  · exact .inl (.inl h)
  · cases s with
    | pending d => cases hd
    | handedOff => exact .inr ⟨h.1, .inl h.2⟩
    | done => exact .inl h

theorem Accounted.mono {s : Option (Option Standing)} (h : Accounted carried forgotten rs told s)
    (hcarried : carried rs → carried' rs) (hforgotten : forgotten → forgotten') :
    Accounted carried' forgotten' rs told s := by
  rcases s with _ | _ | s
  · exact h.imp_right fun hlost => ⟨hlost.1, hlost.2.imp hcarried hforgotten⟩
  · exact h
  · cases s with
    | pending d => exact h
    | handedOff => exact ⟨h.1, hcarried h.2⟩
    | done => exact h

/-- As long as the message is open nothing is forgotten. -/
theorem Accounted.of_open {st : Option Standing} (h : Accounted carried forgotten rs told (some st)) :
    Accounted carried False rs told (some st) := by
  rcases st with _ | st
  · exact h
  · cases st <;> exact h

/-- A record keeps the account. -/
theorem Accounted.step {rs' : List Record} {told' : List Finding} {s' : Option (Option Standing)}
    (h : Accounted carried False rs told (some (standingAt entries key x)))
    (ha : Account entries key x r rs' told' s') (hcarried : carried rs → carried' rs)
    (hcarries : Carries entries key x r (rs.map (·.ref)) → carried' rs)
    (hforgets : Forgets entries key x r → forgotten) :
    Accounted carried' forgotten (rs ++ rs') (told ++ told') s' := by
  cases ha with
  | same =>
    rw [List.append_nil, List.append_nil]
    exact h.mono hcarried False.elim
  | closed hd =>
    rw [List.append_nil, List.append_nil]
    exact (h.closed hd).mono hcarried False.elim
  | forgotten hforget =>
    obtain ⟨d, hd⟩ := Option.isSome_iff_exists.1 hforget.2.2
    rw [List.append_nil, (h.tally (fresh_of_deferralAt hd)).2]
    exact .inr ⟨rfl, .inr (hforgets hforget)⟩
  | putOff hfresh hattempt =>
    obtain ⟨htally, rfl⟩ := h.tally hfresh
    exact ⟨htally.extend hattempt, rfl⟩
  | carried hcarry =>
    obtain ⟨htally, rfl⟩ := h.tally hcarry.1.1
    rw [htally.lines] at hcarry
    rw [List.append_nil]
    exact ⟨rfl, hcarries hcarry⟩
  | settled hfresh entries' =>
    obtain ⟨htally, rfl⟩ := h.tally hfresh
    rw [List.append_nil]
    exact htally.told_summary entries' key
  | settledAndClosed hfresh entries' =>
    obtain ⟨htally, rfl⟩ := h.tally hfresh
    rw [List.append_nil]
    exact .inl (htally.told_summary entries' key)

/-- Closing a message with what its recipients wait since keeps the account. -/
theorem Accounted.flush
    (h : Accounted carried forgotten rs told (some (standingAt entries key x))) :
    Accounted carried forgotten rs
      (told ++ ((deferralAt entries key x).map (summary entries key)).toList) none := by
  cases hd : deferralAt entries key x with
  | none =>
    rw [Option.map_none, Option.toList_none, List.append_nil]
    exact h.closed hd
  | some d =>
    obtain ⟨htally, rfl⟩ := h.tally (fresh_of_deferralAt hd)
    rw [hd] at htally
    exact .inl (htally.told_summary entries key)

theorem putOffs_about_flush (entries : Entries) (key : QueueKey) (waiting : Option Deferral) :
    putOffs ((waiting.map fun d => [summary entries key d]).getD []) =
      (waiting.map (summary entries key)).toList := by
  cases waiting <;> rfl

theorem Accounted.prune (hk : AllKept (fun _ => True) entries)
    (h : Accounted carried forgotten rs told (stateAt entries key x)) (timeout : Duration)
    (now : Instant) :
    Accounted carried forgotten rs (told ++ putOffs (about key x (prune timeout now entries).2))
      (stateAt (prune timeout now entries).1 key x) := by
  cases hs : stateAt entries key x with
  | none =>
    obtain ⟨htold, hclosed⟩ := prune_of_closed hk hs timeout now
    rw [hs] at h
    rw [htold, hclosed]
    exact (List.append_nil told).symm ▸ h
  | some st =>
    have hstand : standingAt entries key x = st := by rw [standingAt_eq, hs]; rfl
    rw [about_prune hk, stateAt_prune]
    split
    · rw [putOffs_about_flush]
      rw [hs, ← hstand] at h
      exact h.flush
    · exact (List.append_nil told).symm ▸ h

end Accounted

/-! ## Openings -/

/-- One of the records hands the message on with the lines of all attempts that were put off. -/
def Carried (settings : Settings) (key : QueueKey) (x : Address) (s : State) (during rs : List Record) :
    Prop :=
  ∃ pre r post, during = pre ++ r :: post ∧
    Carries (s.run settings pre).1.entries key x r (rs.map (·.ref))

/-- The last of the records closes the message for another one that leaves its queue, although the
recipient waits. -/
def Forgotten (settings : Settings) (key : QueueKey) (x : Address) (s : State)
    (during : List Record) : Prop :=
  ∃ pre r, during = pre ++ [r] ∧ Forgets (s.run settings pre).1.entries key x r

/-- No record rejects a message or hands one on to its own queue. -/
structure Regular (rs : List Record) : Prop where
  accepted : ∀ r ∈ rs, ∀ queue text, r.payload ≠ .milterRejected queue text
  handedOn : ∀ r ∈ rs, ∀ a, r.payload = .attempt a → a.handOff? ≠ some a.queue

section Opening

variable {settings : Settings} {s : State} {key : QueueKey} {x : Address} {r : Record}
  {during : List Record}

theorem Carried.append {rs : List Record} (h : Carried settings key x s during rs)
    (more : List Record) : Carried settings key x s (during ++ more) rs := by
  obtain ⟨pre, r, post, rfl, hcarries⟩ := h
  exact ⟨pre, r, post ++ more, by simp, hcarries⟩

/-- One more record of an opening keeps the account. -/
theorem accounted_handle (settings : Settings) {carried carried' : List Record → Prop}
    {forgotten : Prop} {rs : List Record} {told : List Finding} (hs : Sorted s)
    (h : Accounted carried False rs told (some (standingAt s.entries key x)))
    (hreject : ∀ queue text, r.payload ≠ .milterRejected queue text)
    (hself : ∀ a, r.payload = .attempt a → a.handOff? ≠ some a.queue)
    (hcarried : carried rs → carried' rs)
    (hcarries : Carries s.entries key x r (rs.map (·.ref)) → carried' rs)
    (hforgets : Forgets s.entries key x r → forgotten) :
    Accounted carried' forgotten (rs ++ [r].filter (defers s.entries key x))
      (told ++ putOffs (about key x (s.handle settings r).2))
      (stateAt (s.handle settings r).1.entries key x) := by
  have htake := h.step (account_take hs hreject hself) hcarried hcarries hforgets
  rcases s.handle_cases settings r with ⟨he, hf⟩ | ⟨he, hf⟩
  · rwa [he, hf]
  · have hkept : AllKept (fun _ => True) (take s.entries r).1 := AllKept.take hs trivial
    rw [he, hf, about_append, putOffs_append, ← List.append_assoc]
    exact htake.prune hkept settings.idleTimeout r.time

/-- **An opening.** What was gathered, told and handed on fits how the recipient stands. -/
theorem accounted_run (hs : Sorted s) (h : s.Opening settings key during) (hregular : Regular during)
    (x : Address) :
    Accounted (Carried settings key x s during) (Forgotten settings key x s during)
      (deferrals settings key x s during) (putOffs (about key x (s.run settings during).2))
      (stateAt (s.run settings during).1.entries key x) := by
  induction during using List.reverseRecOn with
  | nil => exact h.elim
  | append_singleton during r ih =>
    have hbefore : Accounted (Carried settings key x s during) False
        (deferrals settings key x s during) (putOffs (about key x (s.run settings during).2))
        (some (standingAt (s.run settings during).1.entries key x)) := by
      by_cases hne : during = []
      · subst hne
        have hnew : standingAt s.entries key x = none := standingAt_of_opening h x
        rw [State.run, hnew]
        exact ⟨rfl, rfl⟩
      · obtain ⟨hearlier, hopen⟩ := opening_append h hne
        have hrest : Regular during :=
          ⟨fun r hr => hregular.accepted r (List.mem_append_left _ hr),
            fun r hr => hregular.handedOn r (List.mem_append_left _ hr)⟩
        have hih := ih hearlier hrest
        rw [stateAt_of_contains hopen.1] at hih
        exact hih.of_open
    have hlast : r ∈ during ++ [r] := List.mem_append_right _ (List.mem_singleton_self r)
    have hstep : Accounted (Carried settings key x s (during ++ [r]))
        (Forgotten settings key x s (during ++ [r])) _ _ _ :=
      accounted_handle settings (hs.run settings during) hbefore (hregular.accepted r hlast)
        (hregular.handedOn r hlast) (fun hcarried => hcarried.append [r])
        (fun hcarries => ⟨during, r, [], rfl, hcarries⟩) fun hforgets => ⟨during, r, rfl, hforgets⟩
    rw [State.run_concat, deferrals_append, about_append, putOffs_append]
    simpa [deferrals] using hstep

/-- What is told of the attempts that were put off during an opening, and when everything is closed
after it. -/
def toldOf (settings : Settings) (key : QueueKey) (x : Address) (s : State) (during : List Record) :
    List Finding :=
  putOffs (about key x ((s.run settings during).2 ++ (s.run settings during).1.closeAll.2))

/-- All attempts that were put off are told in one delivery, or none is told and the lines of all of
them went with the message. -/
def Preserved (settings : Settings) (key : QueueKey) (x : Address) (s : State)
    (during : List Record) : Prop :=
  (∃ d, toldOf settings key x s during = [.delivery d] ∧
    Summarises (deferrals settings key x s during) d) ∨
  (toldOf settings key x s during = [] ∧
    Carried settings key x s during (deferrals settings key x s during))

/-- When everything is closed the account is settled. -/
theorem accounted_closeAll (hs : Sorted s) (h : s.Opening settings key during)
    (hregular : Regular during) (x : Address) :
    Accounted (Carried settings key x s during) (Forgotten settings key x s during)
      (deferrals settings key x s during) (toldOf settings key x s during) none := by
  have hrun := accounted_run hs h hregular x
  have hlate := about_closeAll (hs.run settings during) key x
  rw [toldOf, about_append, putOffs_append]
  cases hopen : (s.run settings during).1.entries.contains key with
  | false =>
    rw [stateAt_eq_none_iff.2 hopen] at hrun
    rw [hopen, if_neg Bool.false_ne_true] at hlate
    rw [hlate]
    exact (List.append_nil _).symm ▸ hrun
  | true =>
    rw [stateAt_of_contains hopen] at hrun
    rw [hopen, if_pos rfl] at hlate
    rw [hlate, putOffs_about_flush]
    exact hrun.flush

/-- What is forgotten is not told. -/
theorem toldOf_of_forgotten (hs : Sorted s) (h : s.Opening settings key during)
    (hforgotten : Forgotten settings key x s during) : toldOf settings key x s during = [] := by
  obtain ⟨pre, r, rfl, ⟨queue, hr, hne⟩, hclosed, hwaits⟩ := hforgotten
  obtain ⟨d, hd⟩ := Option.isSome_iff_exists.1 hwaits
  have hstate := stateAt_eq_some (deferralAt_eq_some_iff.1 hd)
  have hearlier : about key x (s.run settings pre).2 = [] := by
    cases hpre : pre with
    | nil => rfl
    | cons first rest =>
      rw [hpre] at h hstate
      have hfits := fits_run hs (opening_append h (List.cons_ne_nil _ _)).1 x
      rw [hstate] at hfits
      exact hfits
  have hstate : stateAt (take (s.run settings pre).1.entries r).1 key x = none :=
    stateAt_eq_none_iff.2 hclosed
  have htake : about key x (take (s.run settings pre).1.entries r).2 = [] := by
    have hflush := about_flush (hs.run settings pre) key ⟨r.header.host, queue⟩ x
    rw [if_neg (Ne.symm hne)] at hflush
    rw [take, hr]
    exact hflush
  have hhandle : about key x ((s.run settings pre).1.handle settings r).2 = [] ∧
      stateAt ((s.run settings pre).1.handle settings r).1.entries key x = none := by
    rcases (s.run settings pre).1.handle_cases settings r with ⟨he, hf⟩ | ⟨he, hf⟩
    · rw [he, hf]
      exact ⟨htake, hstate⟩
    · have hkept : AllKept (fun _ => True) (take (s.run settings pre).1.entries r).1 :=
        AllKept.take (hs.run settings pre) trivial
      obtain ⟨htold, hthen⟩ := prune_of_closed hkept hstate settings.idleTimeout r.time
      rw [he, hf, about_append, htake, htold]
      exact ⟨rfl, hthen⟩
  have hlate := about_closeAll ((hs.run settings pre).handle settings r) key x
  rw [stateAt_eq_none_iff.1 hhandle.2, if_neg Bool.false_ne_true] at hlate
  rw [toldOf, State.run_concat, about_append, about_append, hearlier, hhandle.1, hlate]
  rfl

/-- What is forgotten did not go with the message. -/
theorem not_carried_of_forgotten (hs : Sorted s) (h : s.Opening settings key during)
    (hforgotten : Forgotten settings key x s during) (rs : List Record) :
    ¬ Carried settings key x s during rs := by
  rintro ⟨pre, r, post, hsplit, hhands, -⟩
  obtain ⟨earlier, last, rfl, ⟨queue, hlast, -⟩, -, hwaits⟩ := hforgotten
  obtain ⟨d, hd⟩ := Option.isSome_iff_exists.1 hwaits
  cases post using List.reverseRecOn with
  | nil =>
    obtain ⟨rfl, hr⟩ := List.append_inj' hsplit rfl
    obtain ⟨-, a, ha, -⟩ := hhands
    rw [← (List.cons.inj hr).1, hlast] at ha
    cases ha
  | append_singleton post r' =>
    rw [← List.cons_append, ← List.append_assoc] at hsplit
    obtain ⟨rfl, -⟩ := List.append_inj' hsplit rfl
    have hgone := stateAt_of_handedOffDuring hs h ⟨pre, r, post, rfl, hhands⟩
    rw [stateAt_eq_some (deferralAt_eq_some_iff.1 hd)] at hgone
    cases hgone

theorem not_preserved_of_forgotten (hs : Sorted s) (h : s.Opening settings key during)
    (hforgotten : Forgotten settings key x s during) :
    ¬ Preserved settings key x s during := by
  rintro (⟨d, htold, -⟩ | ⟨-, hcarried⟩)
  · rw [toldOf_of_forgotten hs h hforgotten] at htold
    cases htold
  · exact not_carried_of_forgotten hs h hforgotten _ hcarried

end Opening

/-- **Nothing that was put off is lost or told twice.** If a recipient was put off during an opening in
which no message is rejected or handed on to its own queue, then all these attempts are told in one
delivery, or none is told and their lines went with the message to another queue; except, and only
then, if the opening ends with another message that leaves its queue, for which this one is closed
while the recipient waits. In that case nothing is told of them. -/
theorem preserved_iff (settings : Settings) (before during : List Record) (key : QueueKey)
    (x : Address) (h : (State.empty.run settings before).1.Opening settings key during)
    (hregular : Regular during)
    (hsome : deferrals settings key x (State.empty.run settings before).1 during ≠ []) :
    (Preserved settings key x (State.empty.run settings before).1 during ↔
      ¬ Forgotten settings key x (State.empty.run settings before).1 during) ∧
    (Forgotten settings key x (State.empty.run settings before).1 during →
      toldOf settings key x (State.empty.run settings before).1 during = []) := by
  have hs : Sorted (State.empty.run settings before).1 := sorted_run settings before
  refine ⟨⟨fun hp hf => not_preserved_of_forgotten hs h hf hp, fun hf => ?_⟩,
    toldOf_of_forgotten hs h⟩
  rcases accounted_closeAll hs h hregular x with (⟨hnone, -⟩ | htold) | ⟨htold, hcarried | hforgotten⟩
  · exact absurd hnone hsome
  · exact .inl htold
  · exact .inr ⟨htold, hcarried⟩
  · exact absurd hforgotten hf

theorem regular_twiceDeferredTwiceSent : Regular twiceDeferredTwiceSent := by
  constructor
  · intro r hr queue text hpayload
    simp only [twiceDeferredTwiceSent, List.mem_cons, List.not_mem_nil, or_false] at hr
    rcases hr with rfl | rfl | rfl | rfl <;> cases hpayload
  · intro r hr a ha
    simp only [twiceDeferredTwiceSent, List.mem_cons, List.not_mem_nil, or_false] at hr
    rcases hr with rfl | rfl | rfl | rfl <;> cases ha <;> decide

/-- The two attempts that were put off are told in one delivery or went with the message. -/
theorem preserved_twiceDeferredTwiceSent :
    State.empty.Opening .default ⟨"", "A"⟩ twiceDeferredTwiceSent ∧
      deferrals .default ⟨"", "A"⟩ ⟨"user", "example.com"⟩ .empty twiceDeferredTwiceSent =
        [attemptIn 1 .deferred, attemptIn 2 .deferred] ∧
      Preserved .default ⟨"", "A"⟩ ⟨"user", "example.com"⟩ .empty twiceDeferredTwiceSent := by
  have hdeferrals : deferrals .default ⟨"", "A"⟩ ⟨"user", "example.com"⟩ .empty
      twiceDeferredTwiceSent = [attemptIn 1 .deferred, attemptIn 2 .deferred] := by decide
  refine ⟨by decide, hdeferrals, ?_⟩
  refine (preserved_iff .default [] twiceDeferredTwiceSent ⟨"", "A"⟩ ⟨"user", "example.com"⟩
    (by decide) regular_twiceDeferredTwiceSent ?_).1.2 ?_
  · exact hdeferrals ▸ List.cons_ne_nil _ _
  · rintro ⟨pre, r, hsplit, ⟨queue, hr, -⟩, -⟩
    have hlast : twiceDeferredTwiceSent.getLast? = some r := by rw [hsplit, List.getLast?_concat]
    obtain rfl := Option.some.inj hlast
    cases hr

/-- An attempt at another recipient of the message in the queue A, which is put off. -/
def otherPutOffIn (second : Int) : Record :=
  recordIn second (.attempt
    { queue := "A", recipient := ⟨"other", "example.com"⟩, origRecipient := none, relay := .none
      delay := default, delays := default, dsn := "", status := .deferred, extraMessage := ""
      requeued := none })

/-- A message goes on in the queue B and leaves the queue A, another recipient is put off there, and
then the message leaves the queue B. -/
def putOffAfterLeaving : List Record :=
  filtered ++ [otherPutOffIn 4, recordIn 5 (.removed "B")]

theorem regular_putOffAfterLeaving : Regular putOffAfterLeaving := by
  constructor
  · intro r hr queue text hpayload
    simp only [putOffAfterLeaving, filtered, List.cons_append, List.nil_append, List.mem_cons,
      List.not_mem_nil, or_false] at hr
    rcases hr with rfl | rfl | rfl | rfl | rfl <;> cases hpayload
  · intro r hr a ha
    simp only [putOffAfterLeaving, filtered, List.cons_append, List.nil_append, List.mem_cons,
      List.not_mem_nil, or_false] at hr
    rcases hr with rfl | rfl | rfl | rfl | rfl <;> cases ha <;> decide

/-- The attempt is lost: nothing is told of it, and it did not go with the message. -/
theorem putOffAfterLeaving_not_preserved :
    State.empty.Opening .default ⟨"", "A"⟩ putOffAfterLeaving ∧ Regular putOffAfterLeaving ∧
      deferrals .default ⟨"", "A"⟩ ⟨"other", "example.com"⟩ .empty putOffAfterLeaving =
        [otherPutOffIn 4] ∧
      ¬ Preserved .default ⟨"", "A"⟩ ⟨"other", "example.com"⟩ .empty putOffAfterLeaving := by
  have hopen : State.empty.Opening .default ⟨"", "A"⟩ putOffAfterLeaving := by decide
  refine ⟨hopen, regular_putOffAfterLeaving, by decide, ?_⟩
  refine not_preserved_of_forgotten (sorted_run .default []) hopen ?_
  exact ⟨filtered ++ [otherPutOffIn 4], recordIn 5 (.removed "B"), rfl, ⟨"B", rfl, by decide⟩,
    by decide, by decide⟩

end MailTrace.Tracker
