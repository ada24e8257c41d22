import MailTrace.Proofs.Tracker.Emission
import MailTrace.Proofs.Tracker.Lineage

/-!
# Messages that left their queue

A message that left its queue stays open as long as another one that was handed on from it is. When
that one is closed for leaving its queue too, so is the message, and the ones above it in the same
situation. Four things keep this from happening (`Strands`): the last message that was handed on from
it is rejected, is handed on from another one as well, or is silent for too long; or so many are closed
one after the other that the way up is not followed to its end.

1. Without these every record keeps the counts from being too high and closes a message that left its
   queue with the last one that was handed on from it (`Waits.handle`).
2. A message that left its queue does not come back to it (`Left.handle`).
-/

namespace MailTrace.Tracker

open MailTrace.Time

/-! ## Messages that are waited for -/

/-- A message counts no more messages that were handed on from it than there are. -/
def Counts (entries : Entries) (key : QueueKey) : Prop :=
  ∀ e, entries.get? key = some e → e.children ≤ childCount entries key

/-- And if it left its queue, there is one. -/
structure Waits (entries : Entries) (key : QueueKey) : Prop where
  counts : Counts entries key
  waited : ∀ e, entries.get? key = some e → e.removed = true → 0 < childCount entries key

section Waits

variable {entries entries' : Entries} {key q p : QueueKey} {time : Instant} {f : Entry → Entry}

theorem Waits.of_closed (h : entries.get? key = none) : Waits entries key where
  counts e he := by rw [h] at he; cases he
  waited e he := by rw [h] at he; cases he

/-- Nothing happens to the message, and none that was handed on from it is lost. -/
theorem Waits.of_get?_eq (h : Waits entries key) (hkey : entries'.get? key = entries.get? key)
    (hcount : childCount entries key ≤ childCount entries' key) : Waits entries' key where
  counts e he := Nat.le_trans (h.counts e (hkey ▸ he)) hcount
  waited e he hleft := Nat.lt_of_lt_of_le (h.waited e (hkey ▸ he) hleft) hcount

/-- One message changes that counts as many as before and leaves its queue no more than before. -/
theorem Waits.of_change (h : Waits entries key) (herase : entries'.erase q = entries.erase q)
    (hparent : parentAt entries q = some key → parentAt entries' q = some key)
    (hself : ∀ e', entries'.get? q = some e' → (e'.children = 0 ∧ e'.removed = false) ∨
      ∃ e, entries.get? q = some e ∧ e'.children = e.children ∧ e'.removed = e.removed) :
    Waits entries' key := by
  have hcount : childCount entries key ≤ childCount entries' key := by
    have hchange := childCount_of_erase_eq herase key
    by_cases hq : parentAt entries q = some key
    · rw [if_pos hq, if_pos (hparent hq)] at hchange
      omega
    · rw [if_neg hq] at hchange
      omega
  by_cases hkey : key = q
  · subst hkey
    constructor
    · intro e' he'
      rcases hself e' he' with ⟨hzero, -⟩ | ⟨e, he, hchildren, -⟩
      · rw [hzero]
        exact Nat.zero_le _
      · rw [hchildren]
        exact Nat.le_trans (h.counts e he) hcount
    · intro e' he' hleft
      rcases hself e' he' with ⟨-, hstays⟩ | ⟨e, he, -, hremoved⟩
      · rw [hstays] at hleft
        cases hleft
      · exact Nat.lt_of_lt_of_le (h.waited e he (hremoved ▸ hleft)) hcount
  · exact h.of_get?_eq (get?_of_erase_eq herase hkey) hcount

theorem Waits.modify (h : Waits entries key) (hparent : ∀ e, (f e).parent = e.parent)
    (hchildren : ∀ e, (f e).children = e.children) (hremoved : ∀ e, (f e).removed = e.removed) :
    Waits (entries.modify q f) key := by
  refine h.of_change (Table.erase_modify entries q f) ?_ fun e' he' => ?_
  · rw [parentAt_modify hparent]
    exact id
  · rw [Table.get?_modify, if_pos rfl] at he'
    obtain ⟨e, he, rfl⟩ := Option.map_eq_some_iff.1 he'
    exact .inr ⟨e, he, hchildren e, hremoved e⟩

/-- A message is opened or mentioned that was not handed on from this one, or still is. -/
theorem Waits.touch_of_parent (h : Waits entries key)
    (hparent : parentAt entries q = some key → parentAt (touch entries q time f) q = some key)
    (hchildren : ∀ e, (f e).children = e.children) (hremoved : ∀ e, (f e).removed = e.removed) :
    Waits (touch entries q time f) key := by
  refine h.of_change (Table.erase_upsert ..) hparent fun e' he' => ?_
  rw [get?_touch_self] at he'
  rw [← Option.some.inj he', hchildren, hremoved]
  cases hq : entries.get? q with
  | none => exact .inl ⟨rfl, rfl⟩
  | some e => exact .inr ⟨e, rfl, rfl, rfl⟩

theorem Waits.touch (h : Waits entries key) (hparent : ∀ e, (f e).parent = e.parent)
    (hchildren : ∀ e, (f e).children = e.children) (hremoved : ∀ e, (f e).removed = e.removed) :
    Waits (touch entries q time f) key := by
  refine h.touch_of_parent (fun hq => ?_) hchildren hremoved
  obtain ⟨e, he, hp⟩ := Option.bind_eq_some_iff.1 hq
  rw [parentAt_of_get? (get?_touch_self ..), hparent, he]
  exact hp

theorem Waits.note (h : Waits entries key) {r : Record} {queue : String} (hf : Plain f) :
    Waits (note entries r queue f) key :=
  h.touch (fun e => hf.parent e) (fun e => hf.children e) fun e => hf.removed e

/-! ## Handing on -/

theorem get?_bear_of_ne (h : key ≠ p) : (entries.modify p bear).get? key = entries.get? key := by
  rw [Table.get?_modify, if_neg h]

/-- A message goes on in another queue, and the one there is not taken from this one. -/
theorem Waits.handOff (h : Waits entries key) {queue : String} {lines : List LineRef}
    (hchild : parentAt entries ⟨p.host, queue⟩ = some key → p = key) :
    Waits (handOff entries p queue time lines) key := by
  by_cases hself : (⟨p.host, queue⟩ : QueueKey) = p
  · rwa [handOff_self hself]
  · rw [handOff_eq hself]
    generalize hadopt : Tracker.touch entries ⟨p.host, queue⟩ time (adopt p lines) = adopted
    have hparent : parentAt adopted ⟨p.host, queue⟩ = some p :=
      hadopt ▸ parentAt_of_get? (get?_touch_self ..)
    have hadopted : Waits adopted key :=
      hadopt ▸ h.touch_of_parent (fun hq => hadopt ▸ hparent.trans (congrArg some (hchild hq)))
        (fun _ => rfl) fun _ => rfl
    dsimp only
    split
    · exact hadopted
    · rename_i hlinked
      by_cases hkey : key = p
      · -- the message counts one more, and there is one more
        subst hkey
        have hsame : adopted.get? key = entries.get? key :=
          hadopt ▸ get?_touch_of_ne (Ne.symm hself)
        have hmore : childCount adopted key = childCount entries key + 1 := by
          have herase : adopted.erase ⟨key.host, queue⟩ = entries.erase ⟨key.host, queue⟩ :=
            hadopt ▸ Table.erase_upsert ..
          have hnew : parentAt entries ⟨key.host, queue⟩ ≠ some key := hlinked
          have hchange := childCount_of_erase_eq herase key
          rwa [if_pos hparent, if_neg hnew] at hchange
        constructor
        · intro e he
          rw [Table.get?_modify, if_pos rfl, hsame] at he
          obtain ⟨e', he', rfl⟩ := Option.map_eq_some_iff.1 he
          rw [childCount_modify parent_bear, hmore]
          exact Nat.succ_le_succ (h.counts e' he')
        · intro e _ _
          rw [childCount_modify parent_bear, hmore]
          exact Nat.succ_pos _
      · exact hadopted.of_get?_eq (get?_bear_of_ne hkey)
          (Nat.le_of_eq (childCount_modify parent_bear key).symm)

/-! ## Closing -/

theorem childCount_erase_of_ne (h : parentAt entries q ≠ some key) :
    childCount (entries.erase q) key = childCount entries key := by
  rw [childCount_eq_erase_add entries q key, if_neg h, Nat.add_zero]

/-- A message is closed that was not handed on from this one. -/
theorem Waits.erase (h : Waits entries key) (hq : parentAt entries q ≠ some key) :
    Waits (entries.erase q) key := by
  by_cases hkey : key = q
  · exact .of_closed (by rw [Table.get?_erase, if_pos hkey])
  · exact h.of_get?_eq (by rw [Table.get?_erase, if_neg hkey])
      (Nat.le_of_eq (childCount_erase_of_ne hq).symm)

/-- A number of messages, each handed on from the next one, are closed; the last was handed on from a
message under a key. -/
inductive Cascade (entries entries' : Entries) : Nat → QueueKey → QueueKey → Prop where
  | stop (key : QueueKey) : Cascade entries entries' 0 key key
  | close {n : Nat} {q p key : QueueKey} (hp : parentAt entries q = some p)
      (hclosed : entries'.contains q = false) (h : Cascade entries entries' n p key) :
      Cascade entries entries' (n + 1) q key

theorem Cascade.mono {entries₀ : Entries} {n : Nat} (h : Cascade entries entries' n q key)
    (hparent : ∀ k r, parentAt entries k = some r → parentAt entries₀ k = some r) :
    Cascade entries₀ entries' n q key := by
  induction h with
  | stop key => exact .stop key
  | close hp hclosed _ ih => exact .close (hparent _ _ hp) hclosed ih

theorem parentAt_erase_dropChildren {k r : QueueKey}
    (h : parentAt ((entries.erase q).modify p (·.dropChildren 1)) k = some r) :
    parentAt entries k = some r := by
  rw [parentAt_modify (parent_dropChildren 1), parentAt, Table.get?_erase] at h
  split at h
  · cases h
  · exact h

theorem contains_release_eq_false {n : Nat} (h : entries.get? q = none) (k : QueueKey) :
    (release n entries k).contains q = false := by
  rw [Table.contains]
  rcases shrunk_release n entries k q with hq | ⟨m, hq⟩
  · rw [hq]
    rfl
  · rw [hq, h]
    rfl

/-- The message above the closed one counts one fewer, and there is one fewer. -/
theorem Counts.erase_dropChildren (h : Counts entries key) (hkey : key ≠ q)
    (hp : parentAt entries q = some p) :
    Counts ((entries.erase q).modify p (·.dropChildren 1)) key := by
  intro e he
  have hcount := childCount_eq_erase_add entries q key
  rw [Table.get?_modify, Table.get?_erase, if_neg hkey] at he
  rw [childCount_modify (parent_dropChildren 1)]
  by_cases hkp : key = p
  · rw [if_pos hkp] at he
    obtain ⟨e', he', rfl⟩ := Option.map_eq_some_iff.1 he
    rw [hp, if_pos (congrArg some hkp.symm)] at hcount
    have hle := h e' he'
    show e'.children - 1 ≤ _
    omega
  · rw [if_neg hkp] at he
    rw [hp, if_neg fun e => hkp (Option.some.inj e).symm] at hcount
    have hle := h e he
    omega

theorem Waits.erase_dropChildren (h : Waits entries key) (hkp : key ≠ p)
    (hp : parentAt entries q = some p) :
    Waits ((entries.erase q).modify p (·.dropChildren 1)) key := by
  have hne : parentAt entries q ≠ some key := fun hq =>
    hkp (Option.some.inj (hq.symm.trans hp))
  refine (h.erase hne).of_get?_eq (by rw [Table.get?_modify, if_neg hkp]) ?_
  exact Nat.le_of_eq (childCount_modify (parent_dropChildren 1) key).symm

/-- What comes of closing a message that may have to wait, and going up from it. -/
inductive ReleaseStep (n : Nat) (entries : Entries) (q : QueueKey) : Entries → Prop where
  | stays (h : ∀ e, entries.get? q = some e → e.removed = true → 0 < e.children) :
      ReleaseStep n entries q entries
  | closed (h : ∀ p, parentAt entries q = some p → (entries.erase q).get? p = none) :
      ReleaseStep n entries q (entries.erase q)
  | goesUp {p : QueueKey} (hp : parentAt entries q = some p)
      (hopen : (entries.erase q).contains p = true) :
      ReleaseStep n entries q (release n ((entries.erase q).modify p (·.dropChildren 1)) p)

theorem release_step (n : Nat) (entries : Entries) (q : QueueKey) :
    ReleaseStep n entries q (release (n + 1) entries q) := by
  rw [release]
  cases hq : entries.get? q with
  | none => exact .stays fun e he => by rw [hq] at he; cases he
  | some e =>
    have hparent := parentAt_of_get? hq
    dsimp only
    split
    · rename_i hstays
      refine .stays fun e' he' hleft => ?_
      rw [hq] at he'
      obtain rfl := Option.some.inj he'
      rwa [hleft, Bool.not_true, Bool.false_or, decide_eq_true_eq] at hstays
    · split
      · rename_i hp
        exact .closed fun p hp' => by rw [hparent, hp] at hp'; cases hp'
      · rename_i p hp
        rw [hp] at hparent
        split
        · rename_i hopen
          exact .goesUp hparent hopen
        · rename_i hopen
          refine .closed fun p' hp' => ?_
          rw [← Option.some.inj (hparent.symm.trans hp')]
          exact Option.not_isSome_iff_eq_none.1 hopen

/-- Closing goes up until it comes to a message that still has to wait, or as far as it may. -/
theorem waits_release {n : Nat} (hcounts : Counts entries key) (h : key ≠ q → Waits entries key) :
    Waits (release n entries q) key ∨ Cascade entries (release n entries q) n q key := by
  induction n generalizing entries q with
  | zero =>
    by_cases hkey : key = q
    · exact .inr (hkey ▸ .stop key)
    · exact .inl (h hkey)
  | succ n ih =>
    have hgone : (entries.erase q).get? q = none := by rw [Table.get?_erase, if_pos rfl]
    have hstep := release_step n entries q
    generalize release (n + 1) entries q = out at hstep ⊢
    cases hstep with
    | stays hstays =>
      by_cases hkey : key = q
      · refine .inl ⟨hcounts, fun e he hleft => ?_⟩
        exact Nat.lt_of_lt_of_le (hstays e (hkey ▸ he) hleft) (hcounts e he)
      · exact .inl (h hkey)
    | closed habove =>
      by_cases hkey : key = q
      · exact .inl (.of_closed (hkey ▸ hgone))
      · by_cases hp : parentAt entries q = some key
        · exact .inl (.of_closed (habove key hp))
        · exact .inl ((h hkey).erase hp)
    | @goesUp p hp hopen =>
      have hne : q ≠ p := by
        rintro rfl
        rw [Table.contains, hgone] at hopen
        cases hopen
      have hstill : ((entries.erase q).modify p (·.dropChildren 1)).get? q = none := by
        rw [Table.get?_modify, if_neg hne, hgone]
      have hclosed := contains_release_eq_false (n := n) hstill p
      by_cases hkey : key = q
      · refine .inl (.of_closed ?_)
        rw [hkey]
        exact Option.not_isSome_iff_eq_none.1 (Bool.eq_false_iff.1 hclosed)
      · rcases ih (hcounts.erase_dropChildren hkey hp)
            fun hkp => (h hkey).erase_dropChildren hkp hp with hwaits | hcut
        · exact .inl hwaits
        · exact .inr (.close hp hclosed (hcut.mono fun k r => parentAt_erase_dropChildren))

/-! ## Silent messages -/

/-- When silent messages are closed, the count of a message loses those that were handed on from it. -/
theorem childCount_prune (timeout : Duration) (now : Instant) (entries : Entries) (key : QueueKey) :
    childCount entries key = childCount (prune timeout now entries).1 key +
      (entries.rows.filter fun r => isIdle timeout now r.2).countP fun r => r.2.parent = some key := by
  have hstays : childCount (prune timeout now entries).1 key =
      (entries.rows.filter fun r => !isIdle timeout now r.2).countP
        fun r => r.2.parent = some key := List.countP_map
  have hall : childCount entries key = entries.rows.countP fun r => r.2.parent = some key := rfl
  rw [hstays, hall, Nat.add_comm,
    List.countP_eq_countP_filter_add entries.rows _ fun r => isIdle timeout now r.2]

/-- A message that stays waits as before, unless the last one it waits for was silent. -/
theorem waits_prune (h : Waits entries key) (timeout : Duration) (now : Instant) :
    Waits (prune timeout now entries).1 key ∨
      (0 < childCount entries key ∧ childCount (prune timeout now entries).1 key = 0) := by
  have hcount := childCount_prune timeout now entries key
  have hentry : ∀ e', (prune timeout now entries).1.get? key = some e' →
      ∃ e, entries.get? key = some e ∧ e'.removed = e.removed ∧ e'.children = e.children -
        (entries.rows.filter fun r => isIdle timeout now r.2).countP
          fun r => r.2.parent = some key := by
    intro e' he'
    simp only [prune, Table.get?_map, Table.get?_filter] at he'
    obtain ⟨e, he, rfl⟩ := Option.map_eq_some_iff.1 he'
    exact ⟨e, (Option.filter_eq_some_iff.1 he).1, rfl, rfl⟩
  by_cases hlast : 0 < childCount entries key ∧ childCount (prune timeout now entries).1 key = 0
  · exact .inr hlast
  · refine .inl ⟨fun e' he' => ?_, fun e' he' hleft => ?_⟩
    · obtain ⟨e, he, -, hchildren⟩ := hentry e' he'
      have hle := h.counts e he
      omega
    · obtain ⟨e, he, hremoved, -⟩ := hentry e' he'
      have hpos := h.waited e he (hremoved ▸ hleft)
      omega

end Waits

/-! ## Records -/

/-- A record takes from a message the last one that it waits for, without closing it. -/
inductive Strands (settings : Settings) (s : State) (key : QueueKey) (r : Record) : Prop where
  /-- A message that was handed on from it is rejected. -/
  | rejected {queue text : String} (hr : r.payload = .milterRejected queue text)
      (hparent : parentAt s.entries ⟨r.header.host, queue⟩ = some key)
  /-- A message that was handed on from it is handed on from another one. -/
  | handedOn {child p : QueueKey} (hparent : parentAt s.entries child = some key)
      (hthen : parentAt (take s.entries r).1 child = some p) (hp : p ≠ key)
  /-- The last message that was handed on from it has been silent for too long. -/
  | silent (hbefore : 0 < childCount (take s.entries r).1 key)
      (hthen : childCount (s.handle settings r).1.entries key = 0)
  /-- A message left its queue and is closed, and then as many above it as may be closed at once. -/
  | cutOff {queue : String} (hr : r.payload = .removed queue)
      (h : Cascade s.entries (take s.entries r).1 maxDepth ⟨r.header.host, queue⟩ key)

section Records

variable {entries : Entries} {settings : Settings} {s : State} {key k : QueueKey} {r : Record}

theorem parentAt_stand (entries : Entries) (q : QueueKey) (x : Address) (st : Standing)
    (k : QueueKey) : parentAt (stand entries q x st) k = parentAt entries k :=
  parentAt_modify (f := (·.setStanding x st)) (fun _ => rfl) k

theorem Waits.stand (h : Waits entries key) {x : Address} {st : Standing} :
    Waits (stand entries k x st) key :=
  h.modify (fun _ => rfl) (fun _ => rfl) fun _ => rfl

theorem parentAt_handOff {p : QueueKey} {queue : String} {time : Instant} {lines : List LineRef}
    (hself : (⟨p.host, queue⟩ : QueueKey) ≠ p) :
    parentAt (handOff entries p queue time lines) ⟨p.host, queue⟩ = some p := by
  have hadopted := parentAt_of_get? (get?_touch_self entries ⟨p.host, queue⟩ time (adopt p lines))
  rw [handOff_eq hself]
  dsimp only
  split
  · exact hadopted
  · rw [parentAt_modify parent_bear]
    exact hadopted

/-- A message waits as before, or one that was handed on from it is handed on from another. -/
theorem waits_attemptOpen (h : Waits entries key) (waiting : Option Deferral) (a : Attempt)
    (daemon : String) (line : LineRef) :
    Waits (attemptOpen entries k waiting a daemon line).1 key ∨
      ∃ child, parentAt entries child = some key ∧ k ≠ key ∧
        parentAt (attemptOpen entries k waiting a daemon line).1 child = some k := by
  have hstep := attemptOpen_step entries k waiting a daemon line
  generalize attemptOpen entries k waiting a daemon line = out at hstep ⊢
  cases hstep with
  | putOff => exact .inl h.stand
  | settled => exact .inl h.stand
  | @handedOff queue =>
    by_cases hself : (⟨k.host, queue⟩ : QueueKey) = k
    · rw [handOff_self hself]
      exact .inl h.stand
    · by_cases htaken : parentAt entries ⟨k.host, queue⟩ = some key ∧ k ≠ key
      · exact .inr ⟨_, htaken.1, htaken.2, parentAt_handOff hself⟩
      · refine .inl (h.stand.handOff fun hchild => ?_)
        rw [parentAt_stand] at hchild
        by_contra hne
        exact htaken ⟨hchild, hne⟩

theorem waits_attempt (h : Waits entries key) (host daemon : String) (a : Attempt) (line : LineRef) :
    Waits (attempt entries host daemon a line).1 key ∨
      ∃ child p, parentAt entries child = some key ∧ p ≠ key ∧
        parentAt (attempt entries host daemon a line).1 child = some p := by
  have htouched : Waits (touch entries ⟨host, a.queue⟩ line.time id) key :=
    h.touch (fun _ => rfl) (fun _ => rfl) fun _ => rfl
  have hstep := attempt_step entries host daemon a line
  generalize attempt entries host daemon a line = out at hstep ⊢
  cases hstep with
  | @fresh waiting =>
    rcases waits_attemptOpen htouched waiting a daemon line with hwaits | ⟨child, hchild, hne, hthen⟩
    · exact .inl hwaits
    · rw [parentAt_touch_id] at hchild
      exact .inr ⟨child, _, hchild, hne, hthen⟩
  | handedOff => exact .inl htouched
  | replaced => exact .inl htouched
  | ignored => exact .inl htouched

theorem waits_remove (h : Waits entries key) (time : Instant) :
    Waits (remove entries k time).1 key ∨
      Cascade entries (remove entries k time).1 maxDepth k key := by
  have hparent : ∀ e, (leave time e).parent = e.parent := fun _ => rfl
  have hcount : childCount (entries.modify k (leave time)) key = childCount entries key :=
    childCount_modify hparent key
  have hcounts : Counts (entries.modify k (leave time)) key := by
    intro e he
    rw [Table.get?_modify] at he
    rw [hcount]
    split at he
    · obtain ⟨e', he', rfl⟩ := Option.map_eq_some_iff.1 he
      exact h.counts e' he'
    · exact h.counts e he
  have hother : key ≠ k → Waits (entries.modify k (leave time)) key := fun hne =>
    h.of_get?_eq (by rw [Table.get?_modify, if_neg hne]) (Nat.le_of_eq hcount.symm)
  rw [remove_eq]
  rcases waits_release (n := maxDepth) hcounts hother with hwaits | hcut
  · exact .inl hwaits
  · exact .inr (hcut.mono fun q p hq => parentAt_modify hparent q ▸ hq)

/-- A message waits as before, unless a record takes from it what it waits for. -/
theorem waits_take (h : Waits s.entries key) (settings : Settings) (r : Record) :
    Waits (take s.entries r).1 key ∨ Strands settings s key r := by
  have hrejected := @Strands.rejected settings s key r
  have hhandedOn := @Strands.handedOn settings s key r
  have hcutOff := @Strands.cutOff settings s key r
  have hstep := take_step s.entries r
  generalize take s.entries r = out at hstep hhandedOn hcutOff ⊢
  cases hstep with
  | note hf => exact .inl (h.note hf)
  | noteBoth hf hg => exact .inl ((h.note hf).note hg)
  | attempt =>
    rcases waits_attempt h r.header.host r.header.daemonName _ r.ref with
      hwaits | ⟨child, p, hchild, hne, hthen⟩
    · exact .inl hwaits
    · exact .inr (hhandedOn hchild hthen hne)
  | @expired e =>
    have hexpired : Waits (s.entries.modify ⟨r.header.host, e.queue⟩ fun e =>
        e.settle.active r.time) key := h.modify (fun _ => rfl) (fun _ => rfl) fun _ => rfl
    exact .inl hexpired
  | removed hr =>
    rcases waits_remove h r.time with hwaits | hcut
    · exact .inl hwaits
    · exact .inr (hcutOff hr hcut)
  | @rejected queue text hr =>
    by_cases hparent : parentAt s.entries ⟨r.header.host, queue⟩ = some key
    · exact .inr (hrejected hr hparent)
    · exact .inl (h.erase hparent)
  | relayed => exact .inl h
  | nothing => exact .inl h

theorem waits_handle (h : Waits s.entries key) (settings : Settings) (r : Record) :
    Waits (s.handle settings r).1.entries key ∨ Strands settings s key r := by
  rcases waits_take h settings r with hwaits | hstrands
  · rcases s.handle_cases settings r with ⟨he, -⟩ | ⟨he, -⟩
    · exact .inl (he ▸ hwaits)
    · rcases waits_prune hwaits settings.idleTimeout r.time with hstays | ⟨hbefore, hthen⟩
      · exact .inl (he ▸ hstays)
      · exact .inr (.silent hbefore (he ▸ hthen))
  · exact .inr hstrands

theorem waits_run (h : Waits s.entries key) (settings : Settings) (rs : List Record) :
    Waits (s.run settings rs).1.entries key ∨
      ∃ pre r post, rs = pre ++ r :: post ∧ Strands settings (s.run settings pre).1 key r := by
  induction rs generalizing s with
  | nil => exact .inl h
  | cons r rs ih =>
    rcases waits_handle h settings r with hwaits | hstrands
    · rcases ih hwaits with hrest | ⟨pre, r', post, rfl, hstrands⟩
      · exact .inl hrest
      · exact .inr ⟨r :: pre, r', post, rfl, hstrands⟩
    · exact .inr ⟨[], r, rs, rfl, hstrands⟩

/-! ## Leaving the queue -/

/-- A message left its queue and is open. -/
def Left (entries : Entries) (key : QueueKey) : Prop :=
  ∃ e, entries.get? key = some e ∧ e.removed = true

variable {entries' : Entries} {q : QueueKey} {time : Instant} {f : Entry → Entry}

theorem Left.modify (h : Left entries key) (hf : ∀ e, e.removed = true → (f e).removed = true) :
    Left (entries.modify q f) key := by
  obtain ⟨e, he, hleft⟩ := h
  rw [Left, Table.get?_modify]
  split
  · exact ⟨f e, by rw [he]; rfl, hf e hleft⟩
  · exact ⟨e, he, hleft⟩

theorem Left.touch (h : Left entries key) (hf : ∀ e, (f e).removed = e.removed) :
    Left (touch entries q time f) key := by
  obtain ⟨e, he, hleft⟩ := h
  by_cases hkey : key = q
  · subst hkey
    refine ⟨_, get?_touch_self .., ?_⟩
    rw [hf, he]
    exact hleft
  · exact ⟨e, (get?_touch_of_ne hkey).trans he, hleft⟩

theorem Left.handOff (h : Left entries key) {queue : String} {lines : List LineRef} :
    Left (handOff entries q queue time lines) key := by
  by_cases hself : (⟨q.host, queue⟩ : QueueKey) = q
  · rwa [handOff_self hself]
  · rw [handOff_eq hself]
    have hadopted : Left (Tracker.touch entries ⟨q.host, queue⟩ time (adopt q lines)) key :=
      h.touch fun _ => rfl
    dsimp only
    split
    · exact hadopted
    · exact hadopted.modify fun _ => id

theorem Left.shrunk (h : Left entries key) (hs : Shrunk entries entries') :
    entries'.get? key = none ∨ Left entries' key := by
  obtain ⟨e, he, hleft⟩ := h
  rcases hs key with hclosed | ⟨n, hstays⟩
  · exact .inl hclosed
  · exact .inr ⟨e.dropChildren n, by rw [hstays, he]; rfl, hleft⟩

theorem Left.of_erase (h : Left (entries.erase q) key) : Left entries key := by
  obtain ⟨e, he, hleft⟩ := h
  rw [Table.get?_erase] at he
  split at he
  · cases he
  · exact ⟨e, he, hleft⟩

theorem Left.of_modify (h : Left (entries.modify q f) key) (hf : ∀ e, (f e).removed = e.removed) :
    Left entries key := by
  obtain ⟨e, he, hleft⟩ := h
  rw [Table.get?_modify] at he
  split at he
  · obtain ⟨e', he', rfl⟩ := Option.map_eq_some_iff.1 he
    exact ⟨e', he', hf e' ▸ hleft⟩
  · exact ⟨e, he, hleft⟩

/-- Only messages that left their queues are closed on the way up. -/
theorem left_of_release {n : Nat} (hopen : entries.contains key = true)
    (hclosed : (release n entries q).contains key = false) : Left entries key := by
  induction n generalizing entries q with
  | zero => exact absurd hopen (Bool.eq_false_iff.1 hclosed)
  | succ n ih =>
    rw [release] at hclosed
    split at hclosed
    · exact absurd hopen (Bool.eq_false_iff.1 hclosed)
    rename_i e he
    dsimp only at hclosed
    split at hclosed
    · exact absurd hopen (Bool.eq_false_iff.1 hclosed)
    rename_i hgoes
    have hleft : e.removed = true := by
      simp only [Bool.or_eq_true, Bool.not_eq_true', not_or, Bool.not_eq_false] at hgoes
      exact hgoes.1
    by_cases hkey : key = q
    · exact ⟨e, hkey ▸ he, hleft⟩
    have hstays : (entries.erase q).contains key = true := by
      rwa [Table.contains, Table.get?_erase, if_neg hkey]
    split at hclosed
    · exact absurd hstays (Bool.eq_false_iff.1 hclosed)
    split at hclosed
    · have habove := ih (contains_modify hstays) hclosed
      exact (habove.of_modify (f := (·.dropChildren 1)) fun _ => rfl).of_erase
    · exact absurd hstays (Bool.eq_false_iff.1 hclosed)

theorem Left.attempt (h : Left entries key) {host daemon : String} {a : Attempt} {line : LineRef} :
    Left (attempt entries host daemon a line).1 key := by
  have htouched : Left (Tracker.touch entries ⟨host, a.queue⟩ line.time id) key :=
    h.touch fun _ => rfl
  have hstep := attempt_step entries host daemon a line
  generalize Tracker.attempt entries host daemon a line = out at hstep ⊢
  generalize Tracker.touch entries ⟨host, a.queue⟩ line.time id = touched at htouched hstep
  cases hstep with
  | @fresh waiting =>
    have hstand : ∀ st, Left (Tracker.stand touched ⟨host, a.queue⟩ a.recipient st) key :=
      fun st => htouched.modify fun _ => id
    have hopen := attemptOpen_step touched ⟨host, a.queue⟩ waiting a daemon line
    generalize attemptOpen touched ⟨host, a.queue⟩ waiting a daemon line = out at hopen ⊢
    cases hopen with
    | putOff => exact hstand _
    | handedOff => exact (hstand _).handOff
    | settled => exact hstand _
  | handedOff => exact htouched
  | replaced => exact htouched
  | ignored => exact htouched

theorem Left.note (h : Left entries key) {r : Record} {queue : String} (hf : Plain f) :
    Left (note entries r queue f) key :=
  h.touch fun e => hf.removed e

/-- A message that left its queue is closed or does not come back. -/
theorem Left.take (h : Left entries key) (r : Record) :
    (take entries r).1.get? key = none ∨ Left (take entries r).1 key := by
  have hstep := take_step entries r
  generalize Tracker.take entries r = out at hstep ⊢
  cases hstep with
  | note hf => exact .inr (h.note hf)
  | noteBoth hf hg => exact .inr ((h.note hf).note hg)
  | attempt => exact .inr h.attempt
  | expired => exact .inr (h.modify fun _ => id)
  | removed => exact (h.modify fun _ _ => rfl).shrunk (shrunk_release _ _ _)
  | rejected => exact h.shrunk (shrunk_erase _ _)
  | relayed => exact .inr h
  | nothing => exact .inr h

theorem shrunk_pruneIfDue (settings : Settings) (s : State) (r : Record) :
    Shrunk (take s.entries r).1 (s.handle settings r).1.entries := by
  rcases s.handle_cases settings r with ⟨he, -⟩ | ⟨he, -⟩
  · rw [he]
    exact .refl _
  · rw [he]
    exact shrunk_prune _ _ _

theorem left_of_contains (h : entries.get? key = none ∨ Left entries key)
    (hs : Shrunk entries entries') (hopen : entries'.contains key = true) : Left entries' key := by
  obtain ⟨e, he⟩ := Table.contains_iff.1 hopen
  rcases h with hclosed | hleft
  · rcases hs key with hk | ⟨n, hk⟩
    · rw [hk] at he
      cases he
    · rw [hk, hclosed] at he
      cases he
  · refine (hleft.shrunk hs).resolve_left fun hk => ?_
    rw [hk] at he
    cases he

theorem left_handle (h : Left s.entries key) (settings : Settings) (r : Record)
    (hopen : (s.handle settings r).1.entries.contains key = true) :
    Left (s.handle settings r).1.entries key :=
  left_of_contains (h.take r) (shrunk_pruneIfDue settings s r) hopen

/-- A message that leaves its queue and stays open is known to have left it. -/
theorem left_handle_of_removed {queue : String} (hr : r.payload = .removed queue)
    (hkey : (⟨r.header.host, queue⟩ : QueueKey) = key)
    (hopen : (s.handle settings r).1.entries.contains key = true) :
    Left (s.handle settings r).1.entries key := by
  refine left_of_contains ?_ (shrunk_pruneIfDue settings s r) hopen
  have htake : (take s.entries r).1 = release maxDepth (s.entries.modify key (leave r.time)) key := by
    rw [Tracker.take, hr, ← hkey]
    rfl
  rw [htake]
  have hshrunk := shrunk_release maxDepth (s.entries.modify key (leave r.time)) key
  have hself : (s.entries.modify key (leave r.time)).get? key =
      (s.entries.get? key).map (leave r.time) := by rw [Table.get?_modify, if_pos rfl]
  cases hk : s.entries.get? key with
  | none =>
    rw [hk] at hself
    rcases hshrunk key with hclosed | ⟨n, hstays⟩
    · exact .inl hclosed
    · exact .inl (by rw [hstays, hself]; rfl)
  | some e =>
    rw [hk] at hself
    exact Left.shrunk ⟨_, hself, rfl⟩ hshrunk

/-- A message that leaves its queue is known to have left it for as long as it is open. -/
theorem left_run {queue : String} {pre post : List Record} (hr : r.payload = .removed queue)
    (hkey : (⟨r.header.host, queue⟩ : QueueKey) = key)
    (hduring : (s.run settings (pre ++ [r])).1.OpenDuring settings key post)
    (hopen : (s.run settings (pre ++ [r] ++ post)).1.entries.contains key = true) :
    Left (s.run settings (pre ++ [r] ++ post)).1.entries key := by
  induction post using List.reverseRecOn with
  | nil =>
    rw [List.append_nil, State.run_concat] at hopen ⊢
    exact left_handle_of_removed hr hkey hopen
  | append_singleton post r' ih =>
    obtain ⟨hearlier, hthen⟩ := openDuring_append.1 hduring
    have hbefore : (s.run settings (pre ++ [r] ++ post)).1.entries.contains key = true := by
      rw [State.run_append]
      exact hthen.1
    rw [← List.append_assoc, State.run_concat] at hopen ⊢
    exact left_handle (ih hearlier hbefore) settings r' hopen

end Records

/-- **Messages that left their queue do not linger.** During an opening in which a message left its
queue it stays open only as long as an open message was handed on from it, unless a record took the
last one from it in one of four ways: by rejecting it, by handing it on from another message, by its
silence, or by closing as many messages below this one as are closed at once. -/
theorem left_have_children (settings : Settings) (before during : List Record) (key : QueueKey)
    (h : (State.empty.run settings before).1.Opening settings key during)
    (hleft : ∃ r ∈ during, ∃ queue, r.payload = .removed queue ∧
      (⟨r.header.host, queue⟩ : QueueKey) = key)
    (hopen : (State.empty.run settings (before ++ during)).1.entries.contains key = true) :
    (∃ child, parentAt (State.empty.run settings (before ++ during)).1.entries child = some key) ∨
      ∃ pre r post, during = pre ++ r :: post ∧
        Strands settings (State.empty.run settings (before ++ pre)).1 key r := by
  have hrun : ∀ rs, (State.empty.run settings (before ++ rs)).1 =
      ((State.empty.run settings before).1.run settings rs).1 := fun rs => by
    rw [State.run_append]
  simp only [hrun] at hopen ⊢
  have hclosed : (State.empty.run settings before).1.entries.get? key = none := by
    cases during with
    | nil => exact h.elim
    | cons r rs => exact Option.not_isSome_iff_eq_none.1 (Bool.eq_false_iff.1 h.1)
  refine (waits_run (.of_closed hclosed) settings during).imp_left fun hwaits => ?_
  obtain ⟨r, hr, queue, hpayload, hkey⟩ := hleft
  obtain ⟨pre, post, rfl⟩ := List.append_of_mem hr
  have hsplit : pre ++ r :: post = pre ++ [r] ++ post := List.append_cons ..
  rw [hsplit] at h hopen hwaits ⊢
  obtain ⟨-, hduring⟩ := opening_append h (by simp)
  obtain ⟨e, he, hremoved⟩ := left_run hpayload hkey hduring hopen
  obtain ⟨child, e', he', hparent⟩ := Table.count_pos_iff.1 (hwaits.waited e he hremoved)
  exact ⟨child, (parentAt_of_get? he').trans (of_decide_eq_true hparent)⟩

/-- A message goes on in another queue of its host. -/
def passedOn (queue child : String) : Payload :=
  sentTo queue (some ⟨250, "2.0.0", .v4 127 0 0 1, 25, child⟩)

/-- A message goes on in the queue B and leaves the queue A. -/
def passedOnAndLeft : List Record := [recordIn 1 (passedOn "A" "B"), recordIn 2 (.removed "A")]

/-- The message in the queue A stays open for the one in the queue B, and nothing takes it from there. -/
theorem left_have_children_passedOnAndLeft :
    State.empty.Opening .default ⟨"", "A"⟩ passedOnAndLeft ∧
      (State.empty.run .default passedOnAndLeft).1.entries.contains ⟨"", "A"⟩ = true ∧
      ∃ child, parentAt (State.empty.run .default passedOnAndLeft).1.entries child =
        some ⟨"", "A"⟩ := by
  refine ⟨by decide, by decide, ?_⟩
  refine (left_have_children .default [] passedOnAndLeft ⟨"", "A"⟩ (by decide)
    ⟨recordIn 2 (.removed "A"), by simp [passedOnAndLeft], "A", rfl, rfl⟩ (by decide)).resolve_right ?_
  rintro ⟨pre, r, post, hsplit, hstrands⟩
  rcases pre with _ | ⟨first, _ | ⟨second, rest⟩⟩
  · obtain ⟨rfl, -⟩ := List.cons.inj hsplit
    cases hstrands with
    | rejected hr => cases hr
    | handedOn hparent => cases hparent
    | silent _ hthen => exact absurd hthen (by decide)
    | cutOff hr => cases hr
  · obtain ⟨rfl, hrest⟩ := List.cons.inj hsplit
    obtain ⟨rfl, -⟩ := List.cons.inj hrest
    cases hstrands with
    | rejected hr => cases hr
    | handedOn _ hthen hp =>
      obtain ⟨e, he, hparent⟩ := Option.bind_eq_some_iff.1 hthen
      have honly : ∀ row ∈ (take (State.empty.run .default [recordIn 1 (passedOn "A" "B")]).1.entries
          (recordIn 2 (.removed "A"))).1.rows, ∀ p ∈ row.2.parent, p = ⟨"", "A"⟩ := by decide
      exact hp (honly _ (Table.mem_rows_iff.2 he) _ hparent)
    | silent _ hthen => exact absurd hthen (by decide)
    | cutOff hr hcut =>
      cases hr
      cases hcut with
      | close hp => cases hp
  · simp [passedOnAndLeft] at hsplit

/-! ## Messages that linger -/

/-- After the records a message is open that left its queue, and no open one was handed on from it. -/
def Lingers (rs : List Record) (key : QueueKey) : Prop :=
  State.empty.Opening .default key rs ∧
    (∃ r ∈ rs, ∃ queue, r.payload = .removed queue ∧ (⟨r.header.host, queue⟩ : QueueKey) = key) ∧
    (State.empty.run .default rs).1.entries.contains key = true ∧
    ∀ child, parentAt (State.empty.run .default rs).1.entries child ≠ some key

theorem childless_of_childCount {entries : Entries} {key : QueueKey} (h : childCount entries key = 0)
    (child : QueueKey) : parentAt entries child ≠ some key := by
  intro hparent
  obtain ⟨e, he, hp⟩ := Option.bind_eq_some_iff.1 hparent
  have hpos : 0 < childCount entries key :=
    Table.count_pos_iff.2 ⟨child, e, he, decide_eq_true hp⟩
  exact absurd h (Nat.ne_of_gt hpos)

/-- The message in the queue B is rejected. -/
def childRejected : List Record := passedOnAndLeft ++ [recordIn 3 (.milterRejected "B" "")]

/-- A message in the queue C goes on in the queue B, too. -/
def childOfAnother : List Record := passedOnAndLeft ++ [recordIn 3 (passedOn "C" "B")]

/-- Nothing is heard of the message in the queue B for more than a day. -/
def childSilent : List Record :=
  [recordIn 1 (passedOn "A" "B"), recordIn 86000 (.removed "A"),
    recordIn 89700 (.accepted "C" ⟨"client", none⟩)]

/-- The queue ids of a long chain. -/
def queueAt (n : Nat) : String := String.ofList (List.replicate n 'A')

/-- Seventeen messages, each but the last handed on to the next, leave their queues one after the
other. -/
def longChain : List Record :=
  (List.range 16).map (fun i : Nat => recordIn i (passedOn (queueAt i) (queueAt (i + 1)))) ++
    (List.range 17).map fun i : Nat => recordIn (16 + i) (.removed (queueAt i))

/-- In each of the four ways a message that left its queue lingers. -/
theorem left_linger :
    Lingers childRejected ⟨"", "A"⟩ ∧ Lingers childOfAnother ⟨"", "A"⟩ ∧
      Lingers childSilent ⟨"", "A"⟩ ∧ Lingers longChain ⟨"", queueAt 0⟩ := by
  refine ⟨⟨?_, ?_, ?_, ?_⟩, ⟨?_, ?_, ?_, ?_⟩, ⟨?_, ?_, ?_, ?_⟩, ⟨?_, ?_, ?_, ?_⟩⟩
  · decide
  · exact ⟨recordIn 2 (.removed "A"), by simp [childRejected, passedOnAndLeft], "A", rfl, rfl⟩
  · decide
  · exact childless_of_childCount (by decide)
  · decide
  · exact ⟨recordIn 2 (.removed "A"), by simp [childOfAnother, passedOnAndLeft], "A", rfl, rfl⟩
  · decide
  · exact childless_of_childCount (by decide)
  · decide
  · exact ⟨recordIn 86000 (.removed "A"), by simp [childSilent], "A", rfl, rfl⟩
  · decide
  · exact childless_of_childCount (by decide)
  · decide +kernel
  · refine ⟨recordIn 16 (.removed (queueAt 0)), ?_, queueAt 0, rfl, rfl⟩
    exact List.mem_append_right _ (List.mem_map.2 ⟨0, by decide, rfl⟩)
  · decide +kernel
  · exact childless_of_childCount (by decide +kernel)

end MailTrace.Tracker
