import Mathlib.Data.List.Induction
import MailTrace.Proofs.Tracker.Isolation
import MailTrace.Proofs.Tracker.Lineage
import MailTrace.Proofs.Tracker.Standings

/-!
# Moments and lines of deliveries

A delivery names three moments and the lines it was learnt from. They agree with each other and with
the records in every run, whatever the moments of these (`deliveries_coherent`).

1. No link leaves a host, and what is kept of a message refers to lines of its host (`OnHosts`). So do
   the findings of a record and those of a closed message.
2. A delivery sums up attempts that waited or tells of the line of a record (`ToldOf`), which says where
   its moments come from.
3. As long as the log does not go back, attempts that wait lie between the first of them and the
   present (`Waited`), and so do the moments of the delivery that sums them up.
-/

namespace MailTrace

open MailTrace.Time

/-- The log does not go back. -/
def InOrder (records : List Record) : Prop := records.Pairwise fun r u => r.time ≤ u.time

/-- No record of such a log is later than the last one. -/
theorem InOrder.le_last {records : List Record} (h : InOrder records) {last : Record}
    (hlast : records.getLast? = some last) : ∀ r ∈ records, r.time ≤ last.time := by
  obtain ⟨before, rfl⟩ := List.getLast?_eq_some_iff.1 hlast
  intro r hr
  rcases List.mem_append.1 hr with hr | hr
  · exact (List.pairwise_append.1 h).2.2 r hr last List.mem_cons_self
  · exact Int.le_of_eq (congrArg Record.time (List.mem_singleton.1 hr))

/-- A line is that of a record of a host. -/
def IsLineOn (records : List Record) (host : String) (l : LineRef) : Prop :=
  ∃ r ∈ records, r.header.host = host ∧ r.ref = l

/-- The moments and the lines of a delivery agree with each other and with the records that were
handled when it was told. -/
structure Delivery.Coherent (handled : List Record) (d : Delivery) : Prop where
  queued_le : d.queuedTime ≤ d.firstAttemptTime
  sorted : d.lines.Pairwise fun l m => l.time ≤ m.time
  of_handled : ∀ l ∈ d.lines, IsLineOn handled d.host l
  first_le : InOrder handled → d.firstAttemptTime ≤ d.deliveryTime
  le_last : InOrder handled → ∃ last, handled.getLast? = some last ∧ d.deliveryTime ≤ last.time

namespace Tracker

/-! ## Hosts -/

/-- The keys on a host. -/
def hosted (host : String) (key : QueueKey) : Bool := key.host = host

/-- Links stay on their hosts, and what is kept of a message refers to known lines of its host. -/
structure OnHosts (known : String → LineRef → Prop) (entries : Entries) : Prop where
  within : ∀ host, Within (hosted host) entries
  kept : ∀ host, AllKept (known host) (entries.only (hosted host))

theorem Shrunk.only {entries entries' : Entries} (h : Shrunk entries entries')
    (K : QueueKey → Bool) : Shrunk (entries.only K) (entries'.only K) := by
  intro key
  rw [Table.get?_only, Table.get?_only]
  split
  · exact h key
  · exact .inl rfl

section Hosts

variable {known : String → LineRef → Prop} {entries entries' : Entries} {r : Record} {f : Finding}

/-- A record changes the part of its host as it would if there were no other. -/
theorem take_hosted (h : Within (hosted r.header.host) entries) :
    Within (hosted r.header.host) (take entries r).1 ∧
      take (entries.only (hosted r.header.host)) r =
        ((take entries r).1.only (hosted r.header.host), (take entries r).2) := by
  have hkeys : ∀ k ∈ r.keys, hosted r.header.host k = true := fun k hk =>
    decide_eq_true (host_of_mem_keys hk)
  exact ⟨(confined_take h hkeys).within, take_only h hkeys⟩

/-- A record changes nothing on another host. -/
theorem take_hosted_of_ne {host : String} (h : Within (hosted host) entries)
    (hhost : host ≠ r.header.host) :
    Within (hosted host) (take entries r).1 ∧
      (take entries r).1.only (hosted host) = entries.only (hosted host) := by
  have hkeys : ∀ k ∈ r.keys, (!hosted host k) = true := by
    intro k hk
    rw [Bool.not_eq_true', hosted, host_of_mem_keys hk]
    exact decide_eq_false hhost.symm
  obtain ⟨hwithin, houtside⟩ := confined_take h.not hkeys
  have hback := hwithin.not
  simp only [Bool.not_not] at hback houtside
  exact ⟨hback, houtside⟩

theorem onHosts_empty : OnHosts known .empty where
  within _ := within_empty
  kept _ := every_empty

theorem OnHosts.shrunk (h : OnHosts known entries) (hs : Shrunk entries entries') :
    OnHosts known entries' where
  within host := (h.within host).shrunk hs
  kept host := (h.kept host).shrunk (hs.only _) fun _ _ _ he => he.of_eq rfl rfl

theorem OnHosts.take (h : OnHosts known entries) (hr : known r.header.host r.ref) :
    OnHosts known (take entries r).1 where
  within host := by
    by_cases hhost : host = r.header.host
    · rw [hhost]
      exact (take_hosted (h.within _)).1
    · exact (take_hosted_of_ne (h.within host) hhost).1
  kept host := by
    by_cases hhost : host = r.header.host
    · have hkept := (h.kept r.header.host).take hr
      rwa [(take_hosted (h.within _)).2, ← hhost] at hkept
    · rw [(take_hosted_of_ne (h.within host) hhost).2]
      exact h.kept host

theorem OnHosts.handle {settings : Settings} {s : State} (h : OnHosts known s.entries)
    (hr : known r.header.host r.ref) : OnHosts known (s.handle settings r).1.entries := by
  rcases s.handle_cases settings r with ⟨he, -⟩ | ⟨he, -⟩
  · rw [he]
    exact h.take hr
  · rw [he]
    exact (h.take hr).shrunk (shrunk_prune _ _ _)

theorem OnHosts.run {settings : Settings} {rs : List Record}
    (hrs : ∀ r ∈ rs, known r.header.host r.ref) :
    OnHosts known (State.empty.run settings rs).1.entries :=
  State.run_induction (I := fun s => OnHosts known s.entries) onHosts_empty
    fun _ r hr hs => hs.handle (hrs r hr)

/-- What a record leads to refers to lines of its host. -/
theorem OnHosts.known_take (h : OnHosts known entries) (hr : known r.header.host r.ref)
    (hf : f ∈ (Tracker.take entries r).2) : f.Known (known r.header.host) := by
  refine (h.kept r.header.host).known_take hr f ?_
  rwa [(take_hosted (h.within _)).2]

/-- What is told of a closed message refers to lines of its host. -/
theorem OnHosts.known_flush (h : OnHosts known entries) {key : QueueKey}
    (hf : f ∈ flush entries key) : f.Known (known key.host) := by
  have hself : hosted key.host key = true := decide_eq_true rfl
  have hpart : f ∈ flush (entries.only (hosted key.host)) key := by
    rwa [flush_only (h.within _) hself]
  exact (h.kept key.host).known_flush f hpart

end Hosts

/-! ## What deliveries tell of -/

/-- A delivery of a message under a key sums up the attempts that a recipient waits since, or tells of
a line. -/
inductive ToldOf (entries : Entries) (line : LineRef) (key : QueueKey) (d : Delivery) : Prop where
  | summed {seen : Entries} {x : Address} {w : Deferral}
      (hw : standingAt entries key x = some (.pending w))
      (hd : d = delivery seen key w.attempt .deferred w.daemon w.first w.last w.lines)
  | line {seen : Entries} {a : Attempt} {status : Status} {daemon : String}
      (hd : d = delivery seen key a status daemon line.time line.time [line])

section ToldOf

variable {entries : Entries} {r : Record} {line : LineRef} {key : QueueKey} {f : Finding}
  {d : Delivery}

theorem told_of_mem_flush (hf : f ∈ flush entries key) (hd : f.delivery? = some d)
    (line : LineRef) : ToldOf entries line key d := by
  obtain ⟨w, hw, rfl⟩ := List.mem_map.1 hf
  obtain ⟨e, x, he, hx⟩ := mem_pendingAt hw
  exact .summed (by rw [standingAt, he]; exact hx) (Option.some.inj hd).symm

theorem told_of_mem_expire (hf : f ∈ (expire entries key line).2) (hd : f.delivery? = some d) :
    ToldOf entries line key d := by
  obtain ⟨w, hw, hf⟩ := List.mem_flatMap.1 hf
  rcases List.mem_cons.1 hf with rfl | hf
  · exact told_of_mem_flush (List.mem_map_of_mem hw) hd line
  · rw [List.mem_singleton.1 hf] at hd
    exact .line (Option.some.inj hd).symm

theorem told_of_mem_attempt {host daemon : String} {a : Attempt}
    (hf : f ∈ (attempt entries host daemon a line).2) (hd : f.delivery? = some d) :
    ToldOf entries line ⟨host, a.queue⟩ d := by
  have htouch : ∀ x, standingAt (touch entries ⟨host, a.queue⟩ line.time id) ⟨host, a.queue⟩ x =
      standingAt entries ⟨host, a.queue⟩ x := fun x =>
    (quiet_touch fun _ => rfl).standingAt_eq
  have hstep := attempt_step entries host daemon a line
  generalize attempt entries host daemon a line = out at hstep hf
  cases hstep with
  | @fresh waiting hw =>
    have hopen := attemptOpen_step (touch entries ⟨host, a.queue⟩ line.time id) ⟨host, a.queue⟩
      waiting a daemon line
    generalize attemptOpen _ _ waiting a daemon line = out at hopen hf
    cases hopen with
    | putOff => exact absurd hf List.not_mem_nil
    | handedOff => exact absurd hf List.not_mem_nil
    | settled =>
      rcases List.mem_append.1 hf with hf | hf
      · obtain ⟨w, rfl, rfl⟩ := Option.map_eq_some_iff.1 (Option.mem_toList.1 hf)
        exact .summed (htouch _ ▸ hw) (Option.some.inj hd).symm
      · rw [List.mem_singleton.1 hf] at hd
        exact .line (Option.some.inj hd).symm
  | handedOff => exact absurd hf List.not_mem_nil
  | replaced =>
    rw [List.mem_singleton.1 hf] at hd
    exact .line (Option.some.inj hd).symm
  | ignored => exact absurd hf List.not_mem_nil

/-- What a record leads to is told of a message of its host. -/
theorem told_of_mem_take (hf : f ∈ (take entries r).2) (hd : f.delivery? = some d) :
    ∃ queue, ToldOf entries r.ref ⟨r.header.host, queue⟩ d := by
  have hstep := take_step entries r
  generalize take entries r = out at hstep hf
  cases hstep with
  | note => exact absurd hf List.not_mem_nil
  | noteBoth => exact absurd hf List.not_mem_nil
  | attempt => exact ⟨_, told_of_mem_attempt hf hd⟩
  | expired => exact ⟨_, told_of_mem_expire hf hd⟩
  | removed => exact ⟨_, told_of_mem_flush hf hd _⟩
  | rejected => exact absurd hf List.not_mem_nil
  | relayed =>
    rw [List.mem_singleton.1 hf] at hd
    cases hd
  | nothing => exact absurd hf List.not_mem_nil

theorem ToldOf.host_eq (h : ToldOf entries line key d) : d.host = key.host := by
  cases h with
  | summed _ hd => rw [hd]; rfl
  | line hd => rw [hd]; rfl

theorem ToldOf.queued_le (h : ToldOf entries line key d) : d.queuedTime ≤ d.firstAttemptTime := by
  cases h with
  | summed _ hd => rw [hd]; exact Int.min_le_right ..
  | line hd => rw [hd]; exact Int.min_le_right ..

theorem sorted_sortLines (lines : List LineRef) :
    (sortLines lines).Pairwise fun l m => l.time ≤ m.time := by
  have htrans (a b c : LineRef) (hab : decide (a.time ≤ b.time) = true)
      (hbc : decide (b.time ≤ c.time) = true) : decide (a.time ≤ c.time) = true :=
    decide_eq_true (Int.le_trans (of_decide_eq_true hab) (of_decide_eq_true hbc))
  have htotal (a b : LineRef) : (decide (a.time ≤ b.time) || decide (b.time ≤ a.time)) = true := by
    simpa using Int.le_total a.time b.time
  exact (List.pairwise_mergeSort htrans htotal lines).imp of_decide_eq_true

theorem ToldOf.sorted (h : ToldOf entries line key d) : d.lines.Pairwise fun l m => l.time ≤ m.time := by
  cases h with
  | summed _ hd => rw [hd]; exact sorted_sortLines _
  | line hd => rw [hd]; exact sorted_sortLines _

end ToldOf

/-! ## Logs that do not go back -/

/-- Attempts that wait were put off between the first of them and the present. -/
structure Deferral.Within (now : Instant) (w : Deferral) : Prop where
  first_le : w.first ≤ w.last
  le_now : w.last ≤ now

/-- All attempts that wait were put off until the present. -/
def Waited (now : Instant) (entries : Entries) : Prop :=
  ∀ key x w, standingAt entries key x = some (.pending w) → w.Within now

section Waited

variable {entries entries' : Entries} {now : Instant} {key : QueueKey} {r : Record}

theorem waited_empty (now : Instant) : Waited now .empty := fun _ _ _ hw => nomatch hw

theorem Waited.mono (h : Waited now entries) {later : Instant} (hle : now ≤ later) :
    Waited later entries := fun key x w hw =>
  ⟨(h key x w hw).first_le, Int.le_trans (h key x w hw).le_now hle⟩

theorem Waited.of_quiet (h : Waited now entries) (hq : ∀ key x, Quiet entries entries' key x) :
    Waited now entries' := fun key x w hw => h key x w ((hq key x).standingAt_eq ▸ hw)

theorem Waited.shrunk (h : Waited now entries) (hs : Shrunk entries entries') :
    Waited now entries' := by
  intro key x w hw
  rw [standingAt_eq] at hw
  have hstate : stateAt entries' key x = none ∨ stateAt entries' key x = stateAt entries key x :=
    hs.stateAt
  rcases hstate with hx | hx
  · rw [hx] at hw
    cases hw
  · rw [hx, ← standingAt_eq] at hw
    exact h key x w hw

theorem Waited.stand (h : Waited now entries) {x : Address} {s : Standing}
    (hs : ∀ w, s = .pending w → w.Within now) : Waited now (stand entries key x s) := by
  intro k y w hw
  rw [standingAt_eq, stateAt_stand] at hw
  split at hw
  · cases he : entries.get? k with
    | none => rw [he] at hw; cases hw
    | some e =>
      rw [he] at hw
      exact hs w (Option.some.inj hw)
  · rw [← standingAt_eq] at hw
    exact h k y w hw

theorem Waited.settle (h : Waited now entries) {f : Entry → Entry}
    (hf : ∀ e, (f e).recipients = e.settle.recipients) : Waited now (entries.modify key f) := by
  intro k x w hw
  rw [standingAt_eq, stateAt_settle hf] at hw
  split at hw
  · cases hx : stateAt entries k x with
    | none => rw [hx] at hw; cases hw
    | some s =>
      rw [hx] at hw
      obtain ⟨s', -, hs'⟩ := Option.map_eq_some_iff.1 hw
      exact absurd hs' (settle_ne_pending s' w)
  · rw [← standingAt_eq] at hw
    exact h k x w hw

/-- One more attempt is put off at the present. -/
theorem Deferral.within_extend {waiting : Option Deferral} {line : LineRef}
    (hw : ∀ w ∈ waiting, w.Within line.time) (a : Attempt) (daemon : String) :
    (Deferral.extend waiting a daemon line).Within line.time where
  first_le := by
    cases waiting with
    | none => exact Int.le_refl _
    | some w => exact Int.le_trans (hw w rfl).first_le (hw w rfl).le_now
  le_now := Int.le_refl _

theorem Waited.attempt {host daemon : String} {a : Attempt} {line : LineRef}
    (h : Waited line.time entries) : Waited line.time (attempt entries host daemon a line).1 := by
  have ht : Waited line.time (touch entries ⟨host, a.queue⟩ line.time id) :=
    h.of_quiet fun _ _ => quiet_touch fun _ => rfl
  have hstep := attempt_step entries host daemon a line
  generalize Tracker.attempt entries host daemon a line = out at hstep ⊢
  generalize touch entries ⟨host, a.queue⟩ line.time id = touched at ht hstep
  cases hstep with
  | @fresh waiting hw =>
    have hopen := attemptOpen_step touched ⟨host, a.queue⟩ waiting a daemon line
    generalize attemptOpen touched ⟨host, a.queue⟩ waiting a daemon line = out at hopen ⊢
    cases hopen with
    | putOff =>
      refine ht.stand fun w hpending => ?_
      rw [← Standing.pending.inj hpending]
      refine Deferral.within_extend (fun w hmem => ?_) a daemon
      rw [hmem] at hw
      exact ht _ _ w hw
    | handedOff =>
      exact (ht.stand (s := .handedOff) fun _ hw => nomatch hw).of_quiet fun _ _ => quiet_handOff
    | settled => exact ht.stand (s := .done) fun _ hw => nomatch hw
  | handedOff => exact ht
  | replaced => exact ht
  | ignored => exact ht

theorem Waited.take (h : Waited r.time entries) : Waited r.time (take entries r).1 := by
  have hstep := take_step entries r
  generalize Tracker.take entries r = out at hstep ⊢
  cases hstep with
  | note hf => exact h.of_quiet fun _ _ => quiet_note hf
  | noteBoth hf hg => exact h.of_quiet fun _ _ => (quiet_note hf).trans (quiet_note hg)
  | attempt => exact Waited.attempt h
  | expired => exact h.settle fun _ => rfl
  | @removed queue =>
    have hleft : Waited r.time (entries.modify ⟨r.header.host, queue⟩ (leave r.time)) :=
      h.settle fun _ => rfl
    exact hleft.shrunk (shrunk_release _ _ _)
  | rejected => exact h.shrunk (shrunk_erase _ _)
  | relayed => exact h
  | nothing => exact h

theorem Waited.handle {settings : Settings} {s : State} (h : Waited r.time s.entries) :
    Waited r.time (s.handle settings r).1.entries := by
  rcases s.handle_cases settings r with ⟨he, -⟩ | ⟨he, -⟩
  · rw [he]
    exact h.take
  · rw [he]
    exact h.take.shrunk (shrunk_prune _ _ _)

/-- After a log that does not go back, all attempts that wait were put off until its end. -/
theorem Waited.run (settings : Settings) {rs : List Record} (hrs : InOrder rs) {now : Instant}
    (hnow : ∀ r ∈ rs, r.time ≤ now) : Waited now (State.empty.run settings rs).1.entries := by
  induction rs using List.reverseRecOn generalizing now with
  | nil => exact waited_empty now
  | append_singleton rs r ih =>
    obtain ⟨hbefore, -, hlast⟩ := List.pairwise_append.1 hrs
    have hwaited := ih hbefore fun u hu => hlast u hu r List.mem_cons_self
    rw [State.run_concat]
    exact hwaited.handle.mono (hnow r (by simp))

end Waited

/-! ## Deliveries -/

section Coherent

variable {entries : Entries} {line : LineRef} {key : QueueKey} {d : Delivery} {f : Finding}
  {handled : List Record} {last : Record}

/-- In a log that does not go back a delivery lies between its first attempt and the present. -/
theorem ToldOf.timely (h : ToldOf entries line key d) (hw : Waited line.time entries) :
    d.firstAttemptTime ≤ d.deliveryTime ∧ d.deliveryTime ≤ line.time := by
  cases h with
  | summed hpending hd =>
    obtain ⟨hfirst, hnow⟩ := hw _ _ _ hpending
    rw [hd]
    exact ⟨hfirst, hnow⟩
  | line hd =>
    rw [hd]
    exact ⟨Int.le_refl _, Int.le_refl _⟩

theorem Finding.lines_eq (hd : f.delivery? = some d) : f.lines = d.lines := by
  cases f <;> cases hd <;> rfl

theorem ToldOf.coherent (h : ToldOf entries last.ref key d) (hlast : handled.getLast? = some last)
    (hw : InOrder handled → Waited last.time entries)
    (hf : f.Known (IsLineOn handled key.host)) (hd : f.delivery? = some d) :
    d.Coherent handled where
  queued_le := h.queued_le
  sorted := h.sorted
  of_handled := by
    rw [h.host_eq, ← Finding.lines_eq hd]
    exact hf
  first_le horder := (h.timely (hw horder)).1
  le_last horder := ⟨last, hlast, (h.timely (hw horder)).2⟩

/-- What is told of a closed message is coherent. -/
theorem coherent_flush (h : OnHosts (IsLineOn handled) entries)
    (hlast : handled.getLast? = some last) (hw : InOrder handled → Waited last.time entries)
    (hf : f ∈ flush entries key) (hd : f.delivery? = some d) : d.Coherent handled :=
  (told_of_mem_flush hf hd last.ref).coherent hlast hw (h.known_flush hf) hd

/-- What the last record leads to is coherent, and so is what is told of the messages closed after it. -/
theorem coherent_handle {settings : Settings} {s : State} (h : OnHosts (IsLineOn handled) s.entries)
    (hlast : handled.getLast? = some last) (hw : InOrder handled → Waited last.time s.entries)
    (hf : f ∈ (s.handle settings last).2) (hd : f.delivery? = some d) : d.Coherent handled := by
  have hline : IsLineOn handled last.header.host last.ref :=
    ⟨last, List.mem_of_getLast? hlast, rfl, rfl⟩
  have htake (hf : f ∈ (take s.entries last).2) : d.Coherent handled := by
    obtain ⟨queue, htold⟩ := told_of_mem_take hf hd
    exact htold.coherent hlast hw (h.known_take hline hf) hd
  rcases s.handle_cases settings last with ⟨-, he⟩ | ⟨-, he⟩
  · exact htake (he ▸ hf)
  · rw [he] at hf
    rcases List.mem_append.1 hf with hf | hf
    · exact htake hf
    · obtain ⟨row, -, hf⟩ := List.mem_flatMap.1 hf
      exact coherent_flush (h.take hline) hlast (fun horder => (hw horder).take) hf hd

end Coherent

/-- **Deliveries are coherent.** Whatever records were handled, every delivery that the next one leads
to, and every one that closing all messages leads to, was queued no later than it was first attempted,
and its lines are sorted and each is that of a record of its host handled so far. If the log did not go
back, the first attempt was no later than the last one, and that one no later than the last record. -/
theorem deliveries_coherent (settings : Settings) (handled : List Record) :
    let s := (State.empty.run settings handled).1
    (∀ r, ∀ f ∈ (s.handle settings r).2, ∀ d, f.delivery? = some d → d.Coherent (handled ++ [r])) ∧
      ∀ f ∈ s.closeAll.2, ∀ d, f.delivery? = some d → d.Coherent handled := by
  intro s
  constructor
  · intro r f hf d hd
    have hhosts : OnHosts (IsLineOn (handled ++ [r])) s.entries :=
      .run fun u hu => ⟨u, List.mem_append_left _ hu, rfl, rfl⟩
    have hwaited : InOrder (handled ++ [r]) → Waited r.time s.entries := by
      intro horder
      obtain ⟨hbefore, -, hlast⟩ := List.pairwise_append.1 horder
      exact .run settings hbefore fun u hu => hlast u hu r List.mem_cons_self
    exact coherent_handle hhosts List.getLast?_concat hwaited hf hd
  · intro f hf d hd
    obtain ⟨key, -, hf⟩ := List.mem_flatMap.1 hf
    have hhosts : OnHosts (IsLineOn handled) s.entries := .run fun u hu => ⟨u, hu, rfl, rfl⟩
    cases hlast : handled.getLast? with
    | none =>
      cases List.getLast?_eq_none_iff.1 hlast
      exact absurd hf List.not_mem_nil
    | some last =>
      exact coherent_flush hhosts hlast (fun horder => .run settings horder (horder.le_last hlast))
        hf hd

/-- The result in the queue B, of a message that came in three seconds earlier in the queue A. -/
theorem deliveries_coherent_filtered :
    InOrder (filtered ++ [recordIn 4 (sentTo "B" none)]) ∧
      ∃ d, .delivery d ∈ ((State.empty.run .default filtered).1.handle .default
          (recordIn 4 (sentTo "B" none))).2 ∧
        d.queuedTime = .ofSecond 1 ∧ d.deliveryTime = .ofSecond 4 ∧
        d.Coherent (filtered ++ [recordIn 4 (sentTo "B" none)]) := by
  have horder : InOrder (filtered ++ [recordIn 4 (sentTo "B" none)]) := by
    unfold InOrder
    decide
  exact ⟨horder, _, List.mem_singleton_self _, rfl, rfl,
    (deliveries_coherent .default filtered).1 _ _ (List.mem_singleton_self _) _ rfl⟩

end Tracker

end MailTrace
