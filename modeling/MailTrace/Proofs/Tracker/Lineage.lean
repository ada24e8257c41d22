import MailTrace.Proofs.Tracker.Changes

/-!
# Messages that were handed on outlive what became of them

A message that went on in another queue stays open as long as the one there is: it counts the
messages that were handed on from it, and it is closed when it left its queue and counts none. The
count may be too high, since a message can be handed on to a queue that it was handed on to before,
but never too low (`Linked`).

1. Whatever a record does keeps the links, unless it rejects a message (`Linked.take`).
2. So the way up from an open message ends at an open one without a parent, and a chain that is short
   enough is found whole (`chain_eq`).
3. Deliveries are told with the sender, the client, the size and the times of the root
   (`credited_delivery`), in every run in which no message is rejected or closed for its silence.
-/

namespace MailTrace.Tracker

open MailTrace.Time MailTrace.Net

/-! ## Links -/

/-- The message that the one under a key was handed on from. -/
def parentAt (entries : Entries) (key : QueueKey) : Option QueueKey :=
  (entries.get? key).bind (·.parent)

/-- How many open messages were handed on from the one under a key. -/
def childCount (entries : Entries) (key : QueueKey) : Nat :=
  entries.count fun _ e => e.parent = some key

/-- What every open message was handed on from is open, and no message counts fewer messages that
were handed on from it than there are. -/
structure Linked (entries : Entries) : Prop where
  parent_open : ∀ key p, parentAt entries key = some p → entries.contains p = true
  counted : ∀ key e, entries.get? key = some e → childCount entries key ≤ e.children

section Links

variable {entries entries' : Entries} {key p q : QueueKey} {e : Entry}

theorem parentAt_of_get? (h : entries.get? key = some e) : parentAt entries key = e.parent := by
  rw [parentAt, h, Option.bind_some]

/-- Messages are counted with and without the one under a key. -/
theorem childCount_eq_erase_add (entries : Entries) (q key : QueueKey) :
    childCount entries key =
      childCount (entries.erase q) key + if parentAt entries q = some key then 1 else 0 := by
  unfold childCount parentAt
  rw [Table.count_eq_erase_add _ entries q]
  cases entries.get? q <;> simp

/-- How the number changes when one message does. -/
theorem childCount_of_erase_eq (h : entries'.erase q = entries.erase q) (key : QueueKey) :
    childCount entries' key + (if parentAt entries q = some key then 1 else 0) =
      childCount entries key + if parentAt entries' q = some key then 1 else 0 := by
  rw [childCount_eq_erase_add entries' q, childCount_eq_erase_add entries q, h]
  omega

theorem get?_of_erase_eq (h : entries'.erase q = entries.erase q) (hk : key ≠ q) :
    entries'.get? key = entries.get? key := by
  have hkey := congrArg (Table.get? · key) h
  simpa only [Table.get?_erase, if_neg hk] using hkey

theorem contains_modify {f : Entry → Entry} (h : entries.contains key = true) :
    (entries.modify q f).contains key = true := by
  rw [Table.contains, Table.get?_modify]
  split
  · rwa [Option.isSome_map]
  · exact h

theorem linked_empty : Linked .empty where
  parent_open _ _ h := nomatch h
  counted _ _ h := nomatch h

theorem Linked.childCount_eq_zero (h : Linked entries) (hk : entries.get? key = none) :
    childCount entries key = 0 := by
  refine Nat.eq_zero_of_not_pos fun hpos => ?_
  obtain ⟨k, e, he, hp⟩ := Table.count_pos_iff.1 hpos
  have hopen := h.parent_open k key ((parentAt_of_get? he).trans (of_decide_eq_true hp))
  rw [Table.contains, hk] at hopen
  exact absurd hopen Bool.false_ne_true

/-- No open message was handed on from one that counts none. -/
theorem Linked.childCount_le_getD (h : Linked entries) (key : QueueKey) (time : Instant) :
    childCount entries key ≤ ((entries.get? key).getD (.new time)).children := by
  cases hk : entries.get? key with
  | none => exact Nat.le_of_eq (h.childCount_eq_zero hk)
  | some e => exact h.counted key e hk

/-- One message changes or is opened, and the links stay the same. -/
theorem Linked.of_parentAt_eq (h : Linked entries) (herase : entries'.erase q = entries.erase q)
    (hparent : parentAt entries' q = parentAt entries q)
    (hopen : entries.contains q = true → entries'.contains q = true)
    (hcount : ∀ e, entries'.get? q = some e → childCount entries q ≤ e.children) :
    Linked entries' := by
  have hchild (key : QueueKey) : childCount entries' key = childCount entries key := by
    have hkey := childCount_of_erase_eq herase key
    rw [hparent] at hkey
    omega
  have hopen' (key : QueueKey) (hk : entries.contains key = true) :
      entries'.contains key = true := by
    by_cases hq : key = q
    · exact hq ▸ hopen (hq ▸ hk)
    · rwa [Table.contains, get?_of_erase_eq herase hq]
  constructor
  · intro key p hp
    refine hopen' p (h.parent_open key p ?_)
    by_cases hq : key = q
    · rwa [hq, ← hparent, ← hq]
    · rwa [parentAt, ← get?_of_erase_eq herase hq]
  · intro key e he
    rw [hchild]
    by_cases hq : key = q
    · exact hq ▸ hcount e (hq ▸ he)
    · exact h.counted key e (get?_of_erase_eq herase hq ▸ he)

theorem Linked.modify (h : Linked entries) {f : Entry → Entry} (hparent : ∀ e, (f e).parent = e.parent)
    (hchildren : ∀ e, e.children ≤ (f e).children) : Linked (entries.modify q f) := by
  have hself : (entries.modify q f).get? q = (entries.get? q).map f := by
    rw [Table.get?_modify, if_pos rfl]
  refine h.of_parentAt_eq (Table.erase_modify ..) ?_ ?_ ?_
  · rw [parentAt, hself, parentAt]
    cases entries.get? q with
    | none => rfl
    | some e => exact hparent e
  · exact contains_modify
  · intro e he
    rw [hself] at he
    obtain ⟨e', he', rfl⟩ := Option.map_eq_some_iff.1 he
    exact Nat.le_trans (h.counted q e' he') (hchildren e')

theorem contains_touch_self (entries : Entries) (q : QueueKey) (time : Instant) (f : Entry → Entry) :
    (touch entries q time f).contains q = true :=
  Table.contains_iff.2 ⟨_, get?_touch_self ..⟩

/-- A message is opened or mentioned, and its links stay the same. -/
theorem Linked.touch_of_parent (h : Linked entries) {time : Instant} {f : Entry → Entry}
    (hparent : (f (((entries.get? q).getD (.new time)).seen time)).parent = parentAt entries q)
    (hchildren : ∀ e, (f e).children = e.children) : Linked (touch entries q time f) := by
  have hself := get?_touch_self entries q time f
  refine h.of_parentAt_eq (Table.erase_upsert ..) ?_ (fun _ => contains_touch_self ..) ?_
  · rw [parentAt_of_get? hself, hparent]
  · intro e he
    rw [hself] at he
    rw [← Option.some.inj he, hchildren]
    exact h.childCount_le_getD q time

theorem Linked.touch (h : Linked entries) {time : Instant} {f : Entry → Entry}
    (hparent : ∀ e, (f e).parent = e.parent) (hchildren : ∀ e, (f e).children = e.children) :
    Linked (touch entries q time f) := by
  refine h.touch_of_parent ?_ hchildren
  rw [hparent, parentAt]
  cases entries.get? q <;> rfl

/-! ## Handing on -/

theorem parent_bear (e : Entry) : (bear e).parent = e.parent := rfl

theorem parent_dropChildren (n : Nat) (e : Entry) : (e.dropChildren n).parent = e.parent := rfl

theorem parentAt_modify {f : Entry → Entry} (hf : ∀ e, (f e).parent = e.parent) (key : QueueKey) :
    parentAt (entries.modify q f) key = parentAt entries key := by
  unfold parentAt
  rw [Table.get?_modify]
  split
  · cases entries.get? key with
    | none => rfl
    | some e => exact hf e
  · rfl

theorem childCount_modify {f : Entry → Entry} (hf : ∀ e, (f e).parent = e.parent)
    (key : QueueKey) : childCount (entries.modify q f) key = childCount entries key := by
  have h := childCount_of_erase_eq (Table.erase_modify entries q f) key
  rw [parentAt_modify hf] at h
  omega

/-- What a message was handed on from stays open when another message changes that is now handed on
from an open one. -/
theorem Linked.contains_of_adopted (h : Linked entries) (hp : entries.contains p = true)
    (herase : entries'.erase q = entries.erase q) (hq : parentAt entries' q = some p)
    {r : QueueKey} (hr : parentAt entries' key = some r) : entries'.contains r = true := by
  have hopen : entries.contains r = true := by
    by_cases hk : key = q
    · rw [hk, hq] at hr
      rwa [← Option.some.inj hr]
    · rw [parentAt, get?_of_erase_eq herase hk] at hr
      exact h.parent_open key r hr
  by_cases hk : r = q
  · obtain ⟨e, he, -⟩ := Option.bind_eq_some_iff.1 hq
    exact Table.contains_iff.2 ⟨e, hk ▸ he⟩
  · rwa [Table.contains, get?_of_erase_eq herase hk]

/-- A message changes or is opened that is handed on from another one, and this one counts one more. -/
theorem Linked.bear_of_adopted (h : Linked entries) (hp : entries.contains p = true)
    (herase : entries'.erase q = entries.erase q) (hq : parentAt entries' q = some p)
    (hcount : ∀ e, entries'.get? q = some e → childCount entries q ≤ e.children) :
    Linked (entries'.modify p bear) := by
  have hbefore (key : QueueKey) (e : Entry) (he : entries'.get? key = some e) :
      childCount entries key ≤ e.children := by
    by_cases hk : key = q
    · exact hk ▸ hcount e (hk ▸ he)
    · exact h.counted key e (get?_of_erase_eq herase hk ▸ he)
  constructor
  · intro key r hr
    rw [parentAt_modify parent_bear] at hr
    exact contains_modify (h.contains_of_adopted hp herase hq hr)
  · intro key e he
    have hchange := childCount_of_erase_eq herase key
    rw [childCount_modify parent_bear]
    rw [Table.get?_modify] at he
    by_cases hk : key = p
    · rw [if_pos hk] at he
      obtain ⟨e', he', rfl⟩ := Option.map_eq_some_iff.1 he
      have hle := hbefore key e' he'
      rw [hq, if_pos (congrArg some hk.symm)] at hchange
      show _ ≤ e'.children + 1
      omega
    · rw [if_neg hk] at he
      have hle := hbefore key e he
      rw [hq, if_neg fun he => hk (Option.some.inj he).symm] at hchange
      omega

theorem Linked.handOff (h : Linked entries) {queue : String} {time : Instant} {lines : List LineRef}
    (hp : entries.contains p = true) : Linked (handOff entries p queue time lines) := by
  by_cases hself : (⟨p.host, queue⟩ : QueueKey) = p
  · rwa [handOff_self hself]
  · rw [handOff_eq hself]
    dsimp only
    split
    · -- the parent has counted this message before
      rename_i hlinked
      exact h.touch_of_parent hlinked.symm fun _ => rfl
    · have hadopted := get?_touch_self entries ⟨p.host, queue⟩ time (adopt p lines)
      refine h.bear_of_adopted hp (Table.erase_upsert ..) (parentAt_of_get? hadopted) fun e he => ?_
      rw [hadopted] at he
      rw [← Option.some.inj he]
      exact h.childCount_le_getD ⟨p.host, queue⟩ time

/-! ## Closing -/

/-- A message is closed that no other one was handed on from. -/
theorem Linked.erase (h : Linked entries) (hleaf : childCount entries q = 0) :
    Linked (entries.erase q) := by
  have hchild (key : QueueKey) : childCount (entries.erase q) key ≤ childCount entries key := by
    rw [childCount_eq_erase_add entries q key]
    exact Nat.le_add_right ..
  constructor
  · intro key r hr
    rw [parentAt, Table.get?_erase] at hr
    split at hr
    · cases hr
    · have hne : r ≠ q := by
        rintro rfl
        obtain ⟨e, he, hp⟩ := Option.bind_eq_some_iff.1 hr
        have hpos : 0 < childCount entries r :=
          Table.count_pos_iff.2 ⟨key, e, he, decide_eq_true hp⟩
        omega
      rw [Table.contains, Table.get?_erase, if_neg hne]
      exact h.parent_open key r hr
  · intro key e he
    rw [Table.get?_erase] at he
    split at he
    · cases he
    · exact Nat.le_trans (hchild key) (h.counted key e he)

/-- The message that the closed one was handed on from counts one fewer. -/
theorem Linked.erase_dropChildren (h : Linked entries) (hleaf : childCount entries q = 0)
    (hp : parentAt entries q = some p) :
    Linked ((entries.erase q).modify p (·.dropChildren 1)) := by
  have herased := h.erase hleaf
  constructor
  · intro key r hr
    rw [parentAt_modify (parent_dropChildren 1)] at hr
    exact contains_modify (herased.parent_open key r hr)
  · intro key e he
    rw [childCount_modify (parent_dropChildren 1)]
    rw [Table.get?_modify] at he
    split at he
    · rename_i hk
      obtain ⟨e', he', rfl⟩ := Option.map_eq_some_iff.1 he
      rw [hk, Table.get?_erase] at he'
      split at he'
      · cases he'
      · have hcounted := h.counted p e' he'
        have hcount := childCount_eq_erase_add entries q p
        rw [if_pos hp] at hcount
        show childCount (entries.erase q) key ≤ e'.children - 1
        rw [hk]
        omega
    · exact herased.counted key e he

theorem Linked.release (h : Linked entries) (n : Nat) (key : QueueKey) :
    Linked (release n entries key) := by
  induction n generalizing entries key with
  | zero => exact h
  | succ n ih =>
    rw [Tracker.release]
    split
    · exact h
    · rename_i e he
      dsimp only
      split
      · exact h
      · rename_i hleaf
        have hnone : childCount entries key = 0 := by
          have hcounted := h.counted key e he
          simp only [Bool.or_eq_true, decide_eq_true_eq, not_or] at hleaf
          omega
        split
        · exact h.erase hnone
        · rename_i p hp
          split
          · refine ih (h.erase_dropChildren hnone ?_) p
            rw [parentAt_of_get? he, hp]
          · exact h.erase hnone

/-! ## Records -/

theorem Linked.stand (h : Linked entries) {x : Address} {s : Standing} :
    Linked (stand entries key x s) :=
  h.modify (fun _ => rfl) fun _ => Nat.le_refl _

theorem Linked.attemptOpen (h : Linked entries) (hk : entries.contains key = true)
    {waiting : Option Deferral} {a : Attempt} {daemon : String} {line : LineRef} :
    Linked (attemptOpen entries key waiting a daemon line).1 := by
  have hstep := attemptOpen_step entries key waiting a daemon line
  generalize Tracker.attemptOpen entries key waiting a daemon line = out at hstep ⊢
  cases hstep with
  | putOff => exact h.stand
  | handedOff => exact h.stand.handOff (contains_modify hk)
  | settled => exact h.stand

theorem Linked.touch_id (h : Linked entries) {time : Instant} :
    Linked (Tracker.touch entries key time id) :=
  h.touch (fun _ => rfl) fun _ => rfl

theorem Linked.attempt (h : Linked entries) {host daemon : String} {a : Attempt} {line : LineRef} :
    Linked (attempt entries host daemon a line).1 := by
  have ht : Linked (Tracker.touch entries ⟨host, a.queue⟩ line.time id) := h.touch_id
  have hstep := attempt_step entries host daemon a line
  generalize Tracker.attempt entries host daemon a line = out at hstep ⊢
  cases hstep with
  | fresh => exact ht.attemptOpen (contains_touch_self ..)
  | handedOff => exact ht
  | replaced => exact ht
  | ignored => exact ht

theorem Linked.note (h : Linked entries) {r : Record} {queue : String} {f : Entry → Entry}
    (hf : Plain f) : Linked (note entries r queue f) :=
  h.touch (fun e => hf.parent e) fun e => hf.children e

theorem Linked.expire (h : Linked entries) {line : LineRef} :
    Linked (expire entries key line).1 := by
  show Linked (entries.modify key fun e => e.settle.active line.time)
  exact h.modify (fun _ => rfl) fun _ => Nat.le_refl _

theorem Linked.remove (h : Linked entries) {time : Instant} : Linked (remove entries key time).1 := by
  have hleft : Linked (entries.modify key fun e => { e.settle.active time with removed := true }) :=
    h.modify (fun _ => rfl) fun _ => Nat.le_refl _
  exact hleft.release maxDepth key

/-- A record keeps the links unless it rejects a message. -/
theorem Linked.take (h : Linked entries) {r : Record}
    (hr : ∀ queue text, r.payload ≠ .milterRejected queue text) : Linked (take entries r).1 := by
  have hstep := take_step entries r
  generalize Tracker.take entries r = out at hstep ⊢
  cases hstep with
  | note hf => exact h.note hf
  | noteBoth hf hg => exact (h.note hf).note hg
  | attempt => exact h.attempt
  | expired => exact h.expire
  | removed => exact h.remove
  | rejected hp => exact absurd hp (hr _ _)
  | relayed => exact h
  | nothing => exact h

end Links

/-! ## Runs -/

namespace State

/-- No record rejects a message, and no message is closed for its silence. -/
def Undisturbed (settings : Settings) : State → List Record → Prop
  | _, [] => True
  | s, r :: rs =>
    (∀ queue text, r.payload ≠ .milterRejected queue text) ∧
      (∀ key, (take s.entries r).1.contains key = true →
        (s.handle settings r).1.entries.contains key = true) ∧
      Undisturbed settings (s.handle settings r).1 rs

end State

section Undisturbed

variable {settings : Settings} {s : State} {r : Record} {rs more : List Record}

theorem prune_eq_self {timeout : Duration} {now : Instant} {entries : Entries}
    (h : ∀ key, entries.contains key = true →
      (prune timeout now entries).1.contains key = true) :
    prune timeout now entries = (entries, []) := by
  refine prune_of_active fun row hrow => ?_
  have hget := Table.mem_rows_iff.1 hrow
  have hkept := h row.1 (Table.contains_iff.2 ⟨_, hget⟩)
  simp only [prune, Table.contains, Table.get?_map, Table.get?_filter, hget, Option.isSome_map,
    Option.filter_some] at hkept
  cases hi : isIdle timeout now row.2 with
  | false => rfl
  | true => simp [hi] at hkept

/-- A record that closes no message for its silence does what it tells of and nothing else. -/
theorem handle_eq_take
    (h : ∀ key, (take s.entries r).1.contains key = true →
      (s.handle settings r).1.entries.contains key = true) :
    (s.handle settings r).1.entries = (take s.entries r).1 ∧
      (s.handle settings r).2 = (take s.entries r).2 := by
  rcases s.handle_cases settings r with he | ⟨he, hf⟩
  · exact he
  · rw [he] at h
    rw [he, hf, prune_eq_self h, List.append_nil]
    exact ⟨rfl, rfl⟩

theorem Linked.run (h : Linked s.entries) (hrs : s.Undisturbed settings rs) :
    Linked (s.run settings rs).1.entries := by
  induction rs generalizing s with
  | nil => exact h
  | cons r rs ih =>
    obtain ⟨hr, hkeep, hrest⟩ := hrs
    have hstep : Linked (s.handle settings r).1.entries := by
      rw [(handle_eq_take hkeep).1]
      exact h.take hr
    exact ih hstep hrest

theorem undisturbed_append :
    s.Undisturbed settings (rs ++ more) ↔
      s.Undisturbed settings rs ∧ (s.run settings rs).1.Undisturbed settings more := by
  induction rs generalizing s with
  | nil => exact (and_iff_right trivial).symm
  | cons r rs ih => simp only [List.cons_append, State.Undisturbed, State.run, ih, and_assoc]

end Undisturbed

/-! ## The way up -/

/-- The way up from a message ends after a number of steps at one that was not handed on. -/
inductive Ascends (entries : Entries) : QueueKey → Nat → QueueKey → Prop where
  | root {key : QueueKey} (h : parentAt entries key = none) : Ascends entries key 0 key
  | step {key p root : QueueKey} {n : Nat} (h : parentAt entries key = some p)
      (hp : Ascends entries p n root) : Ascends entries key (n + 1) root

section Ascends

variable {entries entries' : Entries} {key root root' : QueueKey} {n n' : Nat} {e : Entry}

theorem Ascends.unique (h : Ascends entries key n root) (h' : Ascends entries key n' root') :
    n = n' := by
  induction h generalizing n' with
  | root h =>
    cases h' with
    | root => rfl
    | step hp => rw [h] at hp; cases hp
  | step h hp ih =>
    cases h' with
    | root h' => rw [h] at h'; cases h'
    | step h' hp' =>
      rw [h] at h'
      obtain rfl := Option.some.inj h'
      rw [ih hp']

theorem Ascends.congr (h : Ascends entries key n root)
    (hparent : ∀ k, parentAt entries' k = parentAt entries k) : Ascends entries' key n root := by
  induction h with
  | root h => exact .root ((hparent _).trans h)
  | step h _ ih => exact .step ((hparent _).trans h) ih

/-- The way up from an open message goes over open messages only. -/
theorem Linked.contains_root (hl : Linked entries) (hk : entries.contains key = true)
    (h : Ascends entries key n root) : entries.contains root = true := by
  induction h with
  | root => exact hk
  | step h _ ih => exact ih (hl.parent_open _ _ h)

/-- Climbing finds the way up whole if it is short enough. -/
theorem climb_eq_append (hl : Linked entries) (hk : entries.contains key = true)
    (h : Ascends entries key n root) {fuel : Nat} (hn : n < fuel) {found : List QueueKey}
    (hfound : ∀ k ∈ found, ∃ m, n < m ∧ Ascends entries k m root) :
    ∃ above, climb entries fuel found key = above ++ key :: found ∧
      (above ++ [key]).head? = some root := by
  induction h generalizing fuel found with
  | @root key h =>
    obtain ⟨fuel, rfl⟩ := Nat.exists_eq_succ_of_ne_zero (Nat.ne_of_gt hn)
    obtain ⟨e, he⟩ := Table.contains_iff.1 hk
    have hnew : key ∉ found := fun hmem => by
      obtain ⟨m, hm, hm'⟩ := hfound key hmem
      exact absurd ((Ascends.root h).unique hm') (Nat.ne_of_lt hm)
    rw [parentAt_of_get? he] at h
    refine ⟨[], ?_, rfl⟩
    rw [climb, he]
    dsimp only
    rw [if_neg hnew, h]
    rfl
  | @step key p root n h hp ih =>
    obtain ⟨fuel, rfl⟩ := Nat.exists_eq_succ_of_ne_zero (Nat.ne_zero_of_lt hn)
    obtain ⟨e, he⟩ := Table.contains_iff.1 hk
    have hnew : key ∉ found := fun hmem => by
      obtain ⟨m, hm, hm'⟩ := hfound key hmem
      exact absurd ((Ascends.step h hp).unique hm') (Nat.ne_of_lt hm)
    have hfound' : ∀ k ∈ key :: found, ∃ m, n < m ∧ Ascends entries k m root := by
      intro k hmem
      rcases List.mem_cons.1 hmem with rfl | hmem
      · exact ⟨n + 1, Nat.lt_succ_self n, .step h hp⟩
      · obtain ⟨m, hm, hm'⟩ := hfound k hmem
        exact ⟨m, Nat.lt_of_succ_lt hm, hm'⟩
    obtain ⟨above, habove, hhead⟩ := ih (hl.parent_open key p h) (Nat.lt_of_succ_lt_succ hn) hfound'
    rw [parentAt_of_get? he] at h
    refine ⟨above ++ [p], ?_, ?_⟩
    · rw [climb, he]
      dsimp only
      rw [if_neg hnew, h]
      dsimp only
      rw [habove, List.append_assoc]
      rfl
    · rw [List.head?_append, hhead]
      rfl

/-- The keys of a message and of those above it, from the root on. -/
theorem chain_eq (hl : Linked entries) (hk : entries.contains key = true)
    (h : Ascends entries key n root) (hn : n < maxDepth) :
    ∃ above, chain entries key = above ++ [key] ∧ (above ++ [key]).head? = some root :=
  climb_eq_append hl hk h hn fun _ hmem => absurd hmem List.not_mem_nil

end Ascends

/-! ## Credit -/

/-- A delivery is told with what is known of the root of its message, and with what is known of the
message itself where nothing is known of the root. -/
structure Credit (root own : Entry) (rootKey : QueueKey) (d : Delivery) : Prop where
  queuedTime : d.queuedTime = min root.firstSeen d.firstAttemptTime
  clientHost : d.clientHost = root.clientHost
  clientIp : d.clientIp = root.clientIp
  size : d.size = root.size
  recipients : d.recipients = root.recipientCount
  sender : d.sender = (root.sender.or own.sender).getD .null
  messageId : d.messageId = root.messageId.or own.messageId
  originQueue : d.originQueue =
    if rootKey = ⟨d.host, d.queue⟩ then own.originQueue else some rootKey.queue

/-- A delivery is credited to an open message as the root of its own, which is open as well. -/
def Credited (entries : Entries) (rootKey : QueueKey) (d : Delivery) : Prop :=
  ∃ root own, entries.get? rootKey = some root ∧ entries.get? ⟨d.host, d.queue⟩ = some own ∧
    Credit root own rootKey d

section Credit

variable {entries : Entries} {key rootKey : QueueKey} {n : Nat} {d : Delivery}

/-- A delivery of a short enough chain is credited to its root. -/
theorem credited_delivery (hl : Linked entries) (hk : entries.contains key = true)
    (h : Ascends entries key n rootKey) (hn : n < maxDepth) (a : Attempt) (status : Status)
    (daemon : String) (first last : Instant) (lines : List LineRef) :
    Credited entries rootKey (delivery entries key a status daemon first last lines) := by
  obtain ⟨above, hchain, hhead⟩ := chain_eq hl hk h hn
  obtain ⟨root, hroot⟩ := Table.contains_iff.1 (hl.contains_root hk h)
  obtain ⟨own, hown⟩ := Table.contains_iff.1 hk
  have hfirst : ((chain entries key).filterMap entries.get?).head? = some root := by
    obtain ⟨rest, hrest⟩ := List.head?_eq_some_iff.1 hhead
    rw [hchain, hrest, List.filterMap_cons, hroot]
    rfl
  have hlast : ((chain entries key).filterMap entries.get?).getLast? = some own := by
    rw [hchain, List.filterMap_append, List.filterMap_cons, hown]
    exact List.getLast?_concat
  have hkeys : (chain entries key).head? = some rootKey := hchain ▸ hhead
  refine ⟨root, own, hroot, hown, ?_⟩
  unfold delivery
  dsimp only
  rw [hfirst, hlast, hkeys]
  exact ⟨rfl, rfl, rfl, rfl, rfl, rfl, rfl, rfl⟩

/-- A delivery is one of the message under a key. -/
def IsDeliveryOf (entries : Entries) (key : QueueKey) (d : Delivery) : Prop :=
  ∃ a status daemon first last lines, d = delivery entries key a status daemon first last lines

theorem Linked.credited (hl : Linked entries) (hk : entries.contains key = true)
    (hd : IsDeliveryOf entries key d) (h : Ascends entries ⟨d.host, d.queue⟩ n rootKey)
    (hn : n < maxDepth) : Credited entries rootKey d := by
  obtain ⟨a, status, daemon, first, last, lines, rfl⟩ := hd
  exact credited_delivery hl hk h hn ..

/-- How recipients stand has no influence on the credit. -/
theorem Credited.of_stand {x : Address} {s : Standing}
    (h : Credited (stand entries key x s) rootKey d) :
    Credited entries rootKey d := by
  have hentry : ∀ k e', (stand entries key x s).get? k = some e' →
      ∃ e recipients, entries.get? k = some e ∧ e' = { e with recipients } := by
    intro k e' he'
    rw [Table.get?_modify] at he'
    split at he'
    · obtain ⟨e, he, rfl⟩ := Option.map_eq_some_iff.1 he'
      exact ⟨e, _, he, rfl⟩
    · exact ⟨e', e'.recipients, he', rfl⟩
  obtain ⟨root', own', hroot', hown', hc⟩ := h
  obtain ⟨root, _, hroot, rfl⟩ := hentry _ _ hroot'
  obtain ⟨own, _, hown, rfl⟩ := hentry _ _ hown'
  exact ⟨root, own, hroot, hown, hc.queuedTime, hc.clientHost, hc.clientIp, hc.size, hc.recipients,
    hc.sender, hc.messageId, hc.originQueue⟩

theorem contains_of_mem_pending {w : Deferral}
    (hw : w ∈ ((entries.get? key).map (·.pending)).getD []) : entries.contains key = true := by
  rw [Table.contains]
  cases he : entries.get? key with
  | none => rw [he] at hw; exact absurd hw List.not_mem_nil
  | some e => rfl

theorem isDeliveryOf_of_mem_flush {f : Finding} (hf : f ∈ flush entries key)
    (hd : f.delivery? = some d) : entries.contains key = true ∧ IsDeliveryOf entries key d := by
  obtain ⟨w, hw, rfl⟩ := List.mem_map.1 hf
  exact ⟨contains_of_mem_pending hw, _, _, _, _, _, _, (Option.some.inj hd).symm⟩

theorem isDeliveryOf_of_mem_expire {line : LineRef} {f : Finding}
    (hf : f ∈ (expire entries key line).2) (hd : f.delivery? = some d) :
    entries.contains key = true ∧ IsDeliveryOf entries key d := by
  obtain ⟨w, hw, hf⟩ := List.mem_flatMap.1 hf
  refine ⟨contains_of_mem_pending hw, ?_⟩
  rcases List.mem_cons.1 hf with rfl | hf
  · exact ⟨_, _, _, _, _, _, (Option.some.inj hd).symm⟩
  · rw [List.mem_singleton.1 hf] at hd
    exact ⟨_, _, _, _, _, _, (Option.some.inj hd).symm⟩

theorem isDeliveryOf_of_mem_attemptOpen {waiting : Option Deferral} {a : Attempt} {daemon : String}
    {line : LineRef} {f : Finding} (hf : f ∈ (attemptOpen entries key waiting a daemon line).2)
    (hd : f.delivery? = some d) : IsDeliveryOf (stand entries key a.recipient .done) key d := by
  have hstep := attemptOpen_step entries key waiting a daemon line
  generalize attemptOpen entries key waiting a daemon line = out at hstep hf
  cases hstep with
  | putOff => exact absurd hf List.not_mem_nil
  | handedOff => exact absurd hf List.not_mem_nil
  | settled =>
    rcases List.mem_append.1 hf with hf | hf
    · obtain ⟨w, -, rfl⟩ := Option.map_eq_some_iff.1 (Option.mem_toList.1 hf)
      exact ⟨_, _, _, _, _, _, (Option.some.inj hd).symm⟩
    · rw [List.mem_singleton.1 hf] at hd
      exact ⟨_, _, _, _, _, _, (Option.some.inj hd).symm⟩

/-- The open messages as a record finds them, with the one that it tells an attempt of mentioned. -/
def seenBy (entries : Entries) (r : Record) : Entries :=
  match r.payload with
  | .attempt a => touch entries ⟨r.header.host, a.queue⟩ r.time id
  | _ => entries

theorem parentAt_touch_id (entries : Entries) (q : QueueKey) (time : Instant) (key : QueueKey) :
    parentAt (touch entries q time id) key = parentAt entries key := by
  unfold parentAt
  rw [get?_touch]
  split
  · rename_i hk
    rw [hk]
    cases entries.get? q <;> rfl
  · rfl

/-- The result of an attempt is credited to the root as the attempt finds it. -/
theorem credited_attempt (hl : Linked entries) {host daemon : String} {a : Attempt} {line : LineRef}
    {f : Finding} (hf : f ∈ (attempt entries host daemon a line).2) (hd : f.delivery? = some d)
    (h : Ascends entries ⟨d.host, d.queue⟩ n rootKey) (hn : n < maxDepth) :
    Credited (touch entries ⟨host, a.queue⟩ line.time id) rootKey d := by
  have ht : Linked (touch entries ⟨host, a.queue⟩ line.time id) := hl.touch_id
  have hopen := contains_touch_self entries ⟨host, a.queue⟩ line.time id
  have hup := h.congr (parentAt_touch_id entries ⟨host, a.queue⟩ line.time)
  have hstep := attempt_step entries host daemon a line
  generalize attempt entries host daemon a line = out at hstep hf
  generalize touch entries ⟨host, a.queue⟩ line.time id = touched at ht hopen hup hstep ⊢
  cases hstep with
  | fresh =>
    have hdone : Linked (stand touched ⟨host, a.queue⟩ a.recipient .done) := ht.stand
    have hparent (k : QueueKey) :
        parentAt (stand touched ⟨host, a.queue⟩ a.recipient .done) k = parentAt touched k :=
      parentAt_modify (f := (·.setStanding a.recipient .done)) (fun _ => rfl) k
    exact (hdone.credited (contains_modify hopen) (isDeliveryOf_of_mem_attemptOpen hf hd)
      (hup.congr hparent) hn).of_stand
  | handedOff => exact absurd hf List.not_mem_nil
  | replaced =>
    rw [List.mem_singleton.1 hf] at hd
    exact ht.credited hopen ⟨_, _, _, _, _, _, (Option.some.inj hd).symm⟩ hup hn
  | ignored => exact absurd hf List.not_mem_nil

theorem credited_take (hl : Linked entries) {r : Record} {f : Finding}
    (hf : f ∈ (take entries r).2) (hd : f.delivery? = some d)
    (h : Ascends entries ⟨d.host, d.queue⟩ n rootKey) (hn : n < maxDepth) :
    Credited (seenBy entries r) rootKey d := by
  have hstep := take_step entries r
  generalize take entries r = out at hstep hf
  cases hstep with
  | note => exact absurd hf List.not_mem_nil
  | noteBoth => exact absurd hf List.not_mem_nil
  | attempt ha =>
    rw [seenBy, ha]
    exact credited_attempt hl hf hd h hn
  | expired he =>
    obtain ⟨hopen, hdelivery⟩ := isDeliveryOf_of_mem_expire hf hd
    rw [seenBy, he]
    exact hl.credited hopen hdelivery h hn
  | removed hq =>
    obtain ⟨hopen, hdelivery⟩ := isDeliveryOf_of_mem_flush hf hd
    rw [seenBy, hq]
    exact hl.credited hopen hdelivery h hn
  | rejected => exact absurd hf List.not_mem_nil
  | relayed =>
    rw [List.mem_singleton.1 hf] at hd
    cases hd
  | nothing => exact absurd hf List.not_mem_nil

theorem credited_closeAll {s : State} (hl : Linked s.entries) {f : Finding} (hf : f ∈ s.closeAll.2)
    (hd : f.delivery? = some d) (h : Ascends s.entries ⟨d.host, d.queue⟩ n rootKey)
    (hn : n < maxDepth) : Credited s.entries rootKey d := by
  obtain ⟨key, -, hf⟩ := List.mem_flatMap.1 hf
  obtain ⟨hopen, hdelivery⟩ := isDeliveryOf_of_mem_flush hf hd
  exact hl.credited hopen hdelivery h hn

end Credit

/-- **Ancestors outlive their descendants.** In a run in which no message is rejected or closed for its
silence, the links hold after every record, and whatever is told of a message whose way up is short
enough, by a record or when everything is closed, is credited to the root. -/
theorem ancestors_outlive (settings : Settings) (rs : List Record)
    (h : State.empty.Undisturbed settings rs) :
    (∀ before rest, rs = before ++ rest → Linked (State.empty.run settings before).1.entries) ∧
      (∀ before r rest, rs = before ++ r :: rest →
        let s := (State.empty.run settings before).1
        ∀ f ∈ (s.handle settings r).2, ∀ d, f.delivery? = some d → ∀ n root, n < maxDepth →
          Ascends s.entries ⟨d.host, d.queue⟩ n root → Credited (seenBy s.entries r) root d) ∧
      let s := (State.empty.run settings rs).1
      ∀ f ∈ s.closeAll.2, ∀ d, f.delivery? = some d → ∀ n root, n < maxDepth →
        Ascends s.entries ⟨d.host, d.queue⟩ n root → Credited s.entries root d := by
  have hlinked {before rest : List Record} (he : rs = before ++ rest) :
      Linked (State.empty.run settings before).1.entries := by
    subst he
    exact Linked.run linked_empty (undisturbed_append.1 h).1
  refine ⟨fun before rest he => hlinked he, ?_, ?_⟩
  · intro before r rest he s f hf d hd n root hn hup
    have hrest : s.Undisturbed settings (r :: rest) := (undisturbed_append.1 (he ▸ h)).2
    rw [(handle_eq_take hrest.2.1).2] at hf
    exact credited_take (hlinked he) hf hd hup hn
  · intro s f hf d hd n root hn hup
    exact credited_closeAll (hlinked (List.append_nil rs).symm) hf hd hup hn

/-- A record of a second. -/
def recordIn (second : Int) (payload : Payload) : Record :=
  ⟨.ofSecond second, default, payload, "", default⟩

/-- An attempt that succeeds for a recipient of a message in a queue, which a content filter on this
host may have queued again. -/
def sentTo (queue : String) (requeued : Option Requeued) : Payload :=
  .attempt { queue, recipient := ⟨"user", "example.com"⟩, origRecipient := none, relay := .none
             delay := default, delays := default, dsn := "", status := .sent, extraMessage := ""
             requeued }

/-- A message is accepted in the queue A, goes on in the queue B and leaves the queue A. -/
def filtered : List Record :=
  [recordIn 1 (.accepted "A" ⟨"client", none⟩),
    recordIn 2 (sentTo "A" (some ⟨250, "2.0.0", .v4 127 0 0 1, 25, "B"⟩)),
    recordIn 3 (.removed "A")]

/-- The result in the queue B is credited to the message in the queue A, which left its queue. -/
theorem ancestors_outlive_filtered :
    State.empty.Undisturbed .default (filtered ++ [recordIn 4 (sentTo "B" none)]) ∧
      ∃ d, .delivery d ∈ ((State.empty.run .default filtered).1.handle .default
          (recordIn 4 (sentTo "B" none))).2 ∧
        d.queue = "B" ∧ Credited (seenBy (State.empty.run .default filtered).1.entries
          (recordIn 4 (sentTo "B" none))) ⟨"", "A"⟩ d := by
  have hrun : State.empty.Undisturbed .default (filtered ++ [recordIn 4 (sentTo "B" none)]) :=
    ⟨nofun, fun _ h => h, nofun, fun _ h => h, nofun, fun _ h => h, nofun, fun _ h => h, trivial⟩
  refine ⟨hrun, _, List.mem_singleton_self _, rfl, ?_⟩
  refine (ancestors_outlive .default _ hrun).2.1 filtered _ [] rfl _ (List.mem_singleton_self _) _ rfl
    1 ⟨"", "A"⟩ (by decide) (.step (by rfl) (.root (by rfl)))

end MailTrace.Tracker
