import MailTrace.Proofs.Tracker.References

/-!
# How recipients stand

What each operation of the tracker does to one recipient of one message, and what it tells of that
recipient. Of all that happens to other messages and other recipients nothing is seen here (`Quiet`).

1. `Turn` lists what can happen to a recipient at once, with what is told then.
2. Every record makes a turn for every recipient (`turn_take`), and so does closing silent messages
   (`turn_prune`).
3. What is told when a message is closed is what its recipients wait since (`about_closeAll`).
-/

namespace MailTrace.Tracker

open MailTrace.Time

/-! ## Recipients of open messages -/

/-- How a recipient of a message stands, if the message is open. -/
def stateAt (entries : Entries) (key : QueueKey) (x : Address) : Option (Option Standing) :=
  (entries.get? key).map (·.standing? x)

/-- No result was given and the message did not go on in another queue. -/
def Fresh : Option Standing → Prop
  | none | some (.pending _) => True
  | some .handedOff | some .done => False

section Quiet

variable {entries entries' entries'' : Entries} {key k : QueueKey} {x y : Address}

theorem standingAt_eq (entries : Entries) (key : QueueKey) (x : Address) :
    standingAt entries key x = (stateAt entries key x).getD none := by
  unfold standingAt stateAt
  cases entries.get? key <;> rfl

theorem stateAt_eq_some {s : Standing} (h : standingAt entries key x = some s) :
    stateAt entries key x = some (some s) := by
  obtain ⟨e, he, hx⟩ := Option.bind_eq_some_iff.1 h
  rw [stateAt, he, Option.map_some, hx]

/-- A recipient stands as before, in a message that is as open as before or was opened. -/
def Quiet (entries entries' : Entries) (key : QueueKey) (x : Address) : Prop :=
  stateAt entries' key x = stateAt entries key x ∨
    stateAt entries' key x = some (standingAt entries key x)

theorem Quiet.refl (entries : Entries) (key : QueueKey) (x : Address) :
    Quiet entries entries key x := .inl rfl

theorem Quiet.standingAt_eq (h : Quiet entries entries' key x) :
    standingAt entries' key x = standingAt entries key x := by
  rcases h with h | h
  · rw [Tracker.standingAt_eq, h, ← Tracker.standingAt_eq]
  · rw [Tracker.standingAt_eq, h, Option.getD_some]

theorem Quiet.trans (h₁ : Quiet entries entries' key x) (h₂ : Quiet entries' entries'' key x) :
    Quiet entries entries'' key x := by
  rcases h₂ with h | h
  · unfold Quiet
    rwa [h]
  · rw [h₁.standingAt_eq] at h
    exact .inr h

/-- A change that leaves recipients alone. -/
theorem quiet_modify {f : Entry → Entry} (hf : ∀ e, (f e).recipients = e.recipients) :
    Quiet entries (entries.modify k f) key x := by
  refine .inl ?_
  unfold stateAt
  rw [Table.get?_modify]
  split
  · rw [Option.map_map]
    congr 1
    funext e
    simp only [Function.comp_apply, Entry.standing?, hf]
  · rfl

theorem quiet_touch {time : Instant} {f : Entry → Entry}
    (hf : ∀ e, (f e).recipients = e.recipients) : Quiet entries (touch entries k time f) key x := by
  by_cases hk : key = k
  · refine .inr ?_
    unfold stateAt standingAt
    rw [hk, get?_touch_self, Option.map_some]
    simp only [Entry.standing?, hf]
    cases entries.get? k <;> rfl
  · refine .inl ?_
    unfold stateAt
    rw [get?_touch_of_ne hk]

theorem quiet_handOff {queue : String} {time : Instant} {lines : List LineRef} :
    Quiet entries (handOff entries k queue time lines) key x := by
  by_cases hself : (⟨k.host, queue⟩ : QueueKey) = k
  · rw [handOff_self hself]
    exact .refl ..
  · rw [handOff_eq hself]
    have ht : Quiet entries (touch entries ⟨k.host, queue⟩ time (adopt k lines)) key x :=
      quiet_touch fun _ => rfl
    dsimp only
    split
    · exact ht
    · exact ht.trans (quiet_modify fun _ => rfl)

theorem stateAt_stand (entries : Entries) (k : QueueKey) (y : Address) (s : Standing) :
    stateAt (stand entries k y s) key x =
      if key = k ∧ x = y then (entries.get? key).map fun _ => some s else stateAt entries key x := by
  unfold stateAt
  rw [Table.get?_modify]
  by_cases hk : key = k
  · cases entries.get? key <;> by_cases hx : x = y <;> simp [hk, hx]
  · simp [hk]

theorem quiet_stand {s : Standing} (h : ¬(key = k ∧ x = y)) :
    Quiet entries (stand entries k y s) key x :=
  .inl (by rw [stateAt_stand, if_neg h])

/-- When messages are closed, a recipient of one that stays open stands as before. -/
theorem Shrunk.stateAt (h : Shrunk entries entries') :
    stateAt entries' key x = none ∨ stateAt entries' key x = Tracker.stateAt entries key x := by
  unfold Tracker.stateAt
  rcases h key with h | ⟨n, h⟩
  · exact .inl (by rw [h, Option.map_none])
  · refine .inr ?_
    rw [h, Option.map_map]
    rfl

end Quiet

/-! ## What is told of a recipient -/

/-- A finding tells of a recipient of the message under a key. -/
def Finding.isAbout (key : QueueKey) (x : Address) (f : Finding) : Bool :=
  f.delivery?.any fun d => d.host = key.host && d.queue = key.queue && d.recipient = x

/-- What is told of a recipient. -/
def about (key : QueueKey) (x : Address) (found : List Finding) : List Finding :=
  found.filter (·.isAbout key x)

section About

variable {entries : Entries} {key k : QueueKey} {x : Address}

@[simp] theorem about_nil (key : QueueKey) (x : Address) : about key x [] = [] := rfl

theorem about_append (key : QueueKey) (x : Address) (found more : List Finding) :
    about key x (found ++ more) = about key x found ++ about key x more := List.filter_append ..

theorem isAbout_delivery (key : QueueKey) (x : Address) (entries : Entries) (k : QueueKey)
    (a : Attempt) (status : Status) (daemon : String) (first last : Instant)
    (lines : List LineRef) :
    (Finding.delivery (delivery entries k a status daemon first last lines)).isAbout key x =
      decide (key = k ∧ x = a.recipient) := by
  rw [Bool.eq_iff_iff]
  simp only [Finding.isAbout, Finding.delivery?, delivery, Option.any_some, Bool.and_eq_true,
    decide_eq_true_eq]
  cases key
  cases k
  simp only [QueueKey.mk.injEq, eq_comm]

theorem isAbout_summary (key : QueueKey) (x : Address) (entries : Entries) (k : QueueKey)
    (d : Deferral) :
    (summary entries k d).isAbout key x = decide (key = k ∧ x = d.attempt.recipient) :=
  isAbout_delivery ..

theorem about_eq_ite {found : List Finding} {p : Prop} [Decidable p]
    (h : ∀ f ∈ found, f.isAbout key x = decide p) :
    about key x found = if p then found else [] := by
  unfold about
  split
  · rename_i hp
    exact List.filter_eq_self.2 fun f hf => by rw [h f hf, decide_eq_true hp]
  · rename_i hp
    refine List.filter_eq_nil_iff.2 fun f hf => ?_
    rw [h f hf, decide_eq_false hp]
    exact Bool.false_ne_true

/-- The attempts at a recipient that are kept for a message, if it is open and the recipient waits. -/
def deferralAt (entries : Entries) (key : QueueKey) (x : Address) : Option Deferral :=
  (standingAt entries key x).bind (·.deferral?)

theorem deferralAt_eq_some_iff {d : Deferral} :
    deferralAt entries key x = some d ↔ standingAt entries key x = some (.pending d) := by
  unfold deferralAt
  cases standingAt entries key x with
  | none => simp
  | some s => cases s <;> simp [Standing.deferral?]

/-- Of the attempts that are kept for a message, those at a recipient are the ones that the recipient
waits since. -/
theorem pendingAt_filter {known : LineRef → Prop} (h : AllKept known entries) (key : QueueKey)
    (x : Address) :
    (pendingAt entries key).filter (fun d => d.attempt.recipient = x) =
      (deferralAt entries key x).toList := by
  unfold pendingAt deferralAt standingAt
  cases he : entries.get? key with
  | none => rfl
  | some e =>
    refine Table.filter_filterMap_rows ?_ x
    intro y s d hy hd
    cases s with
    | pending d' => exact Option.some.inj hd ▸ ((h key e he).waiting y d' hy).1
    | handedOff => cases hd
    | done => cases hd

/-- What is told of the attempts that are kept for a message, is told of one recipient at a time. -/
theorem about_flatMap_pendingAt {known : LineRef → Prop} (h : AllKept known entries)
    {tell : Deferral → List Finding}
    (htell : ∀ d, ∀ f ∈ tell d, f.isAbout key x = decide (key = k ∧ x = d.attempt.recipient)) :
    about key x ((pendingAt entries k).flatMap tell) =
      if key = k then ((deferralAt entries key x).map tell).getD [] else [] := by
  have hall : about key x ((pendingAt entries k).flatMap tell) =
      (pendingAt entries k).flatMap fun d =>
        if key = k ∧ x = d.attempt.recipient then tell d else [] := by
    rw [about, List.filter_flatMap]
    exact congrArg (List.flatMap · _) (funext fun d => about_eq_ite (htell d))
  rw [hall]
  by_cases hk : key = k
  · simp only [hk, true_and, if_true]
    have hfilter : ∀ ds : List Deferral,
        (ds.flatMap fun d => if x = d.attempt.recipient then tell d else []) =
          (ds.filter fun d => d.attempt.recipient = x).flatMap tell := by
      intro ds
      induction ds with
      | nil => rfl
      | cons d ds ih =>
        rw [List.flatMap_cons, ih, List.filter_cons]
        by_cases hd : d.attempt.recipient = x
        · simp [hd]
        · simp [hd, Ne.symm hd]
    rw [hfilter, pendingAt_filter h]
    cases deferralAt entries k x <;> simp
  · simp [hk]

theorem flush_eq (entries : Entries) (k : QueueKey) :
    flush entries k = (pendingAt entries k).flatMap fun d => [summary entries k d] := by
  rw [flush, List.map_eq_flatMap]
  rfl

theorem about_flush {known : LineRef → Prop} (h : AllKept known entries) (key k : QueueKey)
    (x : Address) :
    about key x (flush entries k) =
      if key = k then
        ((deferralAt entries key x).map fun d => [summary entries k d]).getD []
      else [] := by
  rw [flush_eq]
  refine about_flatMap_pendingAt h fun d f hf => ?_
  rw [List.mem_singleton.1 hf, isAbout_summary]

theorem about_expire {known : LineRef → Prop} (h : AllKept known entries) (key k : QueueKey)
    (x : Address) (line : LineRef) :
    about key x (expire entries k line).2 =
      if key = k then ((deferralAt entries key x).map (expiry entries k line)).getD [] else [] := by
  refine about_flatMap_pendingAt h fun d f hf => ?_
  rcases List.mem_cons.1 hf with rfl | hf
  · exact isAbout_summary ..
  · rw [List.mem_singleton.1 hf]
    exact isAbout_delivery ..

end About

/-! ## Turns -/

/-- A recipient was put off. -/
def Finding.IsPutOff (f : Finding) : Prop := ∃ d, f = .delivery d ∧ d.status = .deferred

/-- A recipient has a result. -/
def Finding.IsResult (f : Finding) : Prop := ∃ d, f = .delivery d ∧ d.status ≠ .deferred

/-- A recipient has another result in place of the earlier one. -/
def Finding.IsReplacement (f : Finding) : Prop := ∃ d, f = .replacement d ∧ d.status ≠ .deferred

/-- What is told when a recipient waits no longer. -/
inductive Ending : List Finding → Prop where
  | putOff {f : Finding} (hf : f.IsPutOff) : Ending [f]
  | result {f : Finding} (hf : f.IsResult) : Ending [f]
  | both {f g : Finding} (hf : f.IsPutOff) (hg : g.IsResult) : Ending [f, g]

/-- What can happen to a recipient of a message at once: how the recipient stood, what is told, and
how the recipient stands then if the message is open. The message goes on in another queue only if it
is handed on. -/
inductive Turn (handed : Prop) : Option Standing → List Finding → Option (Option Standing) → Prop where
  | quiet (s : Option Standing) : Turn handed s [] (some s)
  | closed (s : Option Standing) : Turn handed s [] none
  | putOff {s : Option Standing} (hs : Fresh s) (d : Deferral) :
      Turn handed s [] (some (some (.pending d)))
  | handedOff {s : Option Standing} (hs : Fresh s) (h : handed) :
      Turn handed s [] (some (some .handedOff))
  | settled {s : Option Standing} {told : List Finding} (hs : Fresh s) (h : Ending told) :
      Turn handed s told (some (some .done))
  | settledAndClosed {s : Option Standing} {told : List Finding} (hs : Fresh s) (h : Ending told) :
      Turn handed s told none
  | replaced {f : Finding} (h : f.IsReplacement) : Turn handed (some .done) [f] (some (some .done))

/-- A record hands the message on from a recipient who waited or was new. -/
def HandsOff (entries : Entries) (key : QueueKey) (x : Address) (r : Record) : Prop :=
  Fresh (standingAt entries key x) ∧ ∃ a, r.payload = .attempt a ∧
    (⟨r.header.host, a.queue⟩ : QueueKey) = key ∧ a.recipient = x ∧ a.status ≠ .deferred ∧
      a.handOff?.isSome = true

section Turn

variable {entries entries' : Entries} {key k : QueueKey} {x : Address} {known : LineRef → Prop}
  {handed : Prop}

theorem Turn.mono {handed' : Prop} (h : handed → handed') {s : Option Standing}
    {told : List Finding} {s' : Option (Option Standing)} (ht : Turn handed s told s') :
    Turn handed' s told s' := by
  cases ht with
  | quiet => exact .quiet _
  | closed => exact .closed _
  | putOff hs d => exact .putOff hs d
  | handedOff hs hh => exact .handedOff hs (h hh)
  | settled hs he => exact .settled hs he
  | settledAndClosed hs he => exact .settledAndClosed hs he
  | replaced hf => exact .replaced hf

theorem Quiet.turn (h : Quiet entries entries' key x) :
    Turn handed (standingAt entries key x) [] (stateAt entries' key x) := by
  rcases h with h | h
  · rw [h, Tracker.standingAt_eq]
    cases stateAt entries key x with
    | none => exact .closed _
    | some s => exact .quiet s
  · rw [h]
    exact .quiet _

theorem isPutOff_summary (entries : Entries) (k : QueueKey) (d : Deferral) :
    (summary entries k d).IsPutOff := ⟨_, rfl, rfl⟩

theorem isResult_final {a : Attempt} (h : a.status ≠ .deferred) (entries : Entries)
    (k : QueueKey) (daemon : String) (line : LineRef) :
    (Finding.delivery (final entries k a daemon line)).IsResult := ⟨_, rfl, h⟩

theorem ending_expiry (entries : Entries) (k : QueueKey) (line : LineRef) (d : Deferral) :
    Ending (expiry entries k line d) :=
  .both (isPutOff_summary entries k d) ⟨_, rfl, Status.noConfusion⟩

theorem fresh_of_deferralAt {d : Deferral} (h : deferralAt entries key x = some d) :
    Fresh (standingAt entries key x) := by
  rw [deferralAt_eq_some_iff.1 h]
  trivial

/-- A recipient who does not wait stands as before once no one waits. -/
theorem settle_of_deferralAt_eq_none {s : Option Standing}
    (h : s.bind (·.deferral?) = none) : s.map (·.settle) = s := by
  rcases s with _ | s
  · rfl
  · cases s with
    | pending d => cases h
    | handedOff => rfl
    | done => rfl

theorem stateAt_settle {f : Entry → Entry} (hf : ∀ e, (f e).recipients = e.settle.recipients) :
    stateAt (entries.modify k f) key x =
      if key = k then (stateAt entries key x).map (·.map (·.settle)) else stateAt entries key x := by
  unfold stateAt
  rw [Table.get?_modify]
  split
  · rw [Option.map_map, Option.map_map]
    refine congrArg (Option.map · _) (funext fun e => ?_)
    simp only [Function.comp_apply, ← standing?_settle]
    simp only [Entry.standing?, hf]
  · rfl

/-- A recipient who does not wait is not touched when the waiting of all ends. -/
theorem stateAt_settle_eq_self {f : Entry → Entry} (hf : ∀ e, (f e).recipients = e.settle.recipients)
    (hd : deferralAt entries key x = none) :
    stateAt (entries.modify key f) key x = stateAt entries key x := by
  rw [stateAt_settle hf, if_pos rfl]
  rw [deferralAt, standingAt_eq] at hd
  cases hs : stateAt entries key x with
  | none => rfl
  | some s =>
    rw [hs, Option.getD_some] at hd
    rw [Option.map_some, settle_of_deferralAt_eq_none hd]

/-- What was told of a recipient who waited, and nothing of any other, when a message whose
recipients wait no longer stays open or is closed. -/
theorem turn_settle {f : Entry → Entry} {tell : Deferral → List Finding}
    (hf : ∀ e, (f e).recipients = e.settle.recipients) (htell : ∀ d, Ending (tell d))
    (hs : Shrunk (entries.modify k f) entries') :
    Turn handed (standingAt entries key x)
      (if key = k then ((deferralAt entries key x).map tell).getD [] else [])
      (stateAt entries' key x) := by
  have hstate : stateAt entries' key x = none ∨
      stateAt entries' key x = stateAt (entries.modify k f) key x := hs.stateAt
  by_cases hk : key = k
  · subst hk
    rw [if_pos rfl]
    cases hd : deferralAt entries key x with
    | none =>
      rw [stateAt_settle_eq_self hf hd] at hstate
      rw [Option.map_none, Option.getD_none]
      rcases hstate with h | h
      · rw [h]
        exact .closed _
      · exact Quiet.turn (.inl h)
    | some d =>
      rw [stateAt_settle hf, if_pos rfl] at hstate
      rw [Option.map_some, Option.getD_some]
      have hfresh := fresh_of_deferralAt hd
      rcases hstate with h | h
      · rw [h]
        exact .settledAndClosed hfresh (htell d)
      · rw [h, stateAt_eq_some (deferralAt_eq_some_iff.1 hd)]
        exact .settled hfresh (htell d)
  · rw [stateAt_settle hf, if_neg hk] at hstate
    rw [if_neg hk]
    rcases hstate with h | h
    · rw [h]
      exact .closed _
    · exact Quiet.turn (.inl h)

theorem Quiet.stateAt_eq_some (h : Quiet entries entries' key x) {s : Option Standing}
    (hs : stateAt entries key x = some s) : stateAt entries' key x = some s := by
  rcases h with h | h
  · rw [h, hs]
  · rw [h, Tracker.standingAt_eq, hs, Option.getD_some]

theorem stateAt_stand_self {e : Entry} (he : entries.get? k = some e) (y : Address) (s : Standing) :
    stateAt (stand entries k y s) k y = some (some s) := by
  rw [stateAt_stand, if_pos ⟨rfl, rfl⟩, he, Option.map_some]

variable {waiting : Option Deferral} {a : Attempt} {daemon : String} {line : LineRef}

theorem isAbout_of_mem_attemptOpen (hw : ∀ d ∈ waiting, d.attempt.recipient = a.recipient) :
    ∀ f ∈ (attemptOpen entries k waiting a daemon line).2,
      f.isAbout key x = decide (key = k ∧ x = a.recipient) := by
  have hstep := attemptOpen_step entries k waiting a daemon line
  generalize attemptOpen entries k waiting a daemon line = out at hstep ⊢
  intro f hf
  cases hstep with
  | putOff => exact absurd hf List.not_mem_nil
  | handedOff => exact absurd hf List.not_mem_nil
  | settled =>
    rcases List.mem_append.1 hf with hf | hf
    · obtain ⟨d, hd, rfl⟩ := Option.map_eq_some_iff.1 (Option.mem_toList.1 hf)
      rw [isAbout_summary, hw d hd]
    · rw [List.mem_singleton.1 hf]
      exact isAbout_delivery ..

theorem quiet_attemptOpen (h : ¬(key = k ∧ x = a.recipient)) :
    Quiet entries (attemptOpen entries k waiting a daemon line).1 key x := by
  have hstep := attemptOpen_step entries k waiting a daemon line
  generalize attemptOpen entries k waiting a daemon line = out at hstep ⊢
  cases hstep with
  | putOff => exact quiet_stand h
  | handedOff => exact (quiet_stand h).trans quiet_handOff
  | settled => exact quiet_stand h

/-- An attempt at a recipient who waits or is new is told as a result unless it is put off or the
message goes on. -/
theorem turn_attemptOpen_self {e : Entry} (he : entries.get? k = some e)
    (hs : Fresh (standingAt entries k a.recipient))
    (hh : a.status ≠ .deferred → a.handOff?.isSome = true → handed) :
    Turn handed (standingAt entries k a.recipient) (attemptOpen entries k waiting a daemon line).2
      (stateAt (attemptOpen entries k waiting a daemon line).1 k a.recipient) := by
  have hstep := attemptOpen_step entries k waiting a daemon line
  generalize attemptOpen entries k waiting a daemon line = out at hstep ⊢
  cases hstep with
  | putOff =>
    rw [stateAt_stand_self he]
    exact .putOff hs _
  | handedOff hstatus hchild =>
    rw [quiet_handOff.stateAt_eq_some (stateAt_stand_self he _ _)]
    exact .handedOff hs (hh hstatus (by rw [hchild]; rfl))
  | settled hstatus =>
    rw [stateAt_stand_self he]
    refine .settled hs ?_
    cases waiting with
    | none => exact .result (isResult_final hstatus ..)
    | some d => exact .both (isPutOff_summary ..) (isResult_final hstatus ..)

theorem turn_attemptOpen {e : Entry} (he : entries.get? k = some e)
    (hs : Fresh (standingAt entries k a.recipient))
    (hw : ∀ d ∈ waiting, d.attempt.recipient = a.recipient)
    (hh : key = k ∧ x = a.recipient → a.status ≠ .deferred → a.handOff?.isSome = true → handed) :
    Turn handed (standingAt entries key x) (about key x (attemptOpen entries k waiting a daemon line).2)
      (stateAt (attemptOpen entries k waiting a daemon line).1 key x) := by
  rw [about_eq_ite (isAbout_of_mem_attemptOpen hw)]
  by_cases h : key = k ∧ x = a.recipient
  · rw [if_pos h, h.1, h.2]
    exact turn_attemptOpen_self he hs (hh h)
  · rw [if_neg h]
    exact (quiet_attemptOpen h).turn

theorem fresh_map_pending (waiting : Option Deferral) : Fresh (waiting.map .pending) := by
  cases waiting <;> trivial

theorem turn_attempt (h : AllKept known entries) {host : String}
    (hh : Fresh (standingAt entries key x) → key = ⟨host, a.queue⟩ → x = a.recipient →
      a.status ≠ .deferred → a.handOff?.isSome = true → handed) :
    Turn handed (standingAt entries key x) (about key x (attempt entries host daemon a line).2)
      (stateAt (attempt entries host daemon a line).1 key x) := by
  have hquiet : Quiet entries (touch entries ⟨host, a.queue⟩ line.time id) key x :=
    quiet_touch fun _ => rfl
  have hkept : AllKept known (touch entries ⟨host, a.queue⟩ line.time id) := h.touch_id
  have hopen := get?_touch_self entries ⟨host, a.queue⟩ line.time id
  have hstep := attempt_step entries host daemon a line
  rw [← hquiet.standingAt_eq] at hh ⊢
  generalize attempt entries host daemon a line = out at hstep ⊢
  generalize touch entries ⟨host, a.queue⟩ line.time id = touched at hkept hopen hh hstep ⊢
  cases hstep with
  | @fresh waiting hw =>
    have hfresh : Fresh (standingAt touched ⟨host, a.queue⟩ a.recipient) :=
      hw ▸ fresh_map_pending waiting
    refine turn_attemptOpen hopen hfresh (fun d hd => (hkept.of_standingAt hw d hd).1) ?_
    rintro ⟨rfl, rfl⟩
    exact hh hfresh rfl rfl
  | handedOff => exact Quiet.turn (.refl ..)
  | replaced hdone hstatus =>
    have habout : ∀ f ∈ [Finding.replacement (final touched ⟨host, a.queue⟩ a daemon line)],
        f.isAbout key x = decide (key = ⟨host, a.queue⟩ ∧ x = a.recipient) := by
      intro f hf
      rw [List.mem_singleton.1 hf]
      exact isAbout_delivery ..
    rw [about_eq_ite habout]
    split
    · rename_i hself
      rw [hself.1, hself.2, stateAt_eq_some hdone, hdone]
      exact .replaced ⟨_, rfl, hstatus⟩
    · exact Quiet.turn (.refl ..)
  | ignored => exact Quiet.turn (.refl ..)

theorem turn_shrunk (h : Shrunk entries entries') :
    Turn handed (standingAt entries key x) [] (stateAt entries' key x) := by
  rcases h.stateAt with h | h
  · rw [h]
    exact .closed _
  · exact Quiet.turn (.inl h)

theorem quiet_note {r : Record} {queue : String} {f : Entry → Entry} (hf : Plain f) :
    Quiet entries (note entries r queue f) key x :=
  quiet_touch fun e => hf.recipients e

/-- **One record, one turn.** A record lets every recipient of every message make one turn. -/
theorem turn_take (h : AllKept known entries) (r : Record) (key : QueueKey) (x : Address) :
    Turn (HandsOff entries key x r) (standingAt entries key x) (about key x (take entries r).2)
      (stateAt (take entries r).1 key x) := by
  have hstep := take_step entries r
  generalize take entries r = out at hstep ⊢
  cases hstep with
  | note hf => exact (quiet_note hf).turn
  | noteBoth hf hg => exact ((quiet_note hf).trans (quiet_note hg)).turn
  | @attempt a ha =>
    exact turn_attempt h fun hfresh hk hx hstatus hchild =>
      ⟨hfresh, a, ha, hk.symm, hx.symm, hstatus, hchild⟩
  | @expired e =>
    rw [about_expire h]
    refine turn_settle (f := fun e => e.settle.active r.time) (fun _ => rfl)
      (ending_expiry entries _ _) ?_
    exact .refl _
  | @removed queue =>
    rw [remove, about_flush h]
    refine turn_settle (f := fun e => { e.settle.active r.time with removed := true })
      (fun _ => rfl) (fun d => .putOff (isPutOff_summary entries _ d)) ?_
    exact shrunk_release _ _ _
  | rejected => exact turn_shrunk (shrunk_erase _ _)
  | relayed => exact Quiet.turn (.refl ..)
  | nothing => exact Quiet.turn (.refl ..)

/-! ## Silent messages and the end -/

/-- What is told of a recipient when messages are closed, is told of the message it is of. -/
theorem about_flatMap_flush {α : Type} (h : AllKept known entries) (t : Table QueueKey α)
    (key : QueueKey) (x : Address) :
    about key x (t.rows.flatMap fun r => flush entries r.1) =
      if t.contains key then
        ((deferralAt entries key x).map fun d => [summary entries key d]).getD []
      else [] := by
  have hrow : ∀ k, about key x (flush entries k) = if key = k then
      ((deferralAt entries key x).map fun d => [summary entries key d]).getD [] else [] := by
    intro k
    rw [about_flush h]
    split
    · rename_i hk
      rw [hk]
    · rfl
  rw [about, List.filter_flatMap, Table.flatMap_rows (k := key)]
  · unfold Table.contains
    cases t.get? key with
    | none => rfl
    | some a =>
      rw [Option.map_some, Option.getD_some, Option.isSome_some, if_pos rfl]
      exact (hrow key).trans (if_pos rfl)
  · intro r _ hk
    exact (hrow r.1).trans (if_neg fun e => hk e.symm)

theorem stateAt_eq_none_iff : stateAt entries key x = none ↔ entries.contains key = false := by
  unfold stateAt Table.contains
  cases entries.get? key <;> simp

theorem about_closeAll {s : State} (h : AllKept known s.entries) (key : QueueKey) (x : Address) :
    about key x s.closeAll.2 =
      if s.entries.contains key then
        ((deferralAt s.entries key x).map fun d => [summary s.entries key d]).getD []
      else [] := by
  rw [State.closeAll, Table.keys, List.flatMap_map]
  exact about_flatMap_flush h s.entries key x

theorem about_prune (h : AllKept known entries) (timeout : Duration) (now : Instant)
    (key : QueueKey) (x : Address) :
    about key x (prune timeout now entries).2 =
      if (entries.filter fun r => isIdle timeout now r.2).contains key then
        ((deferralAt entries key x).map fun d => [summary entries key d]).getD []
      else [] :=
  about_flatMap_flush h (entries.filter fun r => isIdle timeout now r.2) key x

/-- A message that is closed for its silence is closed for all its recipients, and any other is left
alone. -/
theorem stateAt_prune (timeout : Duration) (now : Instant) (entries : Entries) (key : QueueKey)
    (x : Address) :
    stateAt (prune timeout now entries).1 key x =
      if (entries.filter fun r => isIdle timeout now r.2).contains key then none
      else stateAt entries key x := by
  simp only [stateAt, prune, Table.contains, Table.get?_map, Table.get?_filter]
  cases entries.get? key with
  | none => rfl
  | some e =>
    cases hidle : isIdle timeout now e with
    | true => simp [Option.filter_some, hidle]
    | false =>
      simp only [Option.filter_some, hidle, Bool.not_false, if_true]
      rfl

theorem turn_prune (h : AllKept known entries) (timeout : Duration) (now : Instant)
    (key : QueueKey) (x : Address) :
    Turn handed (standingAt entries key x) (about key x (prune timeout now entries).2)
      (stateAt (prune timeout now entries).1 key x) := by
  rw [about_prune h, stateAt_prune]
  split
  · cases hd : deferralAt entries key x with
    | none => exact .closed _
    | some d => exact .settledAndClosed (fresh_of_deferralAt hd) (.putOff (isPutOff_summary ..))
  · exact Quiet.turn (.inl rfl)

end Turn

end MailTrace.Tracker
