import MailTrace.Proofs.Tracker.Changes

/-!
# Messages that have nothing to do with each other

All open messages are kept in one table, and closing or crediting one may walk to others. Here the
keys are parted in two, those of `K` and the rest, and a record is said to be inside of `K` if all keys
that it mentions are (`Record.keys`).

1. No link crosses from one part to the other (`Within`), so the way up from a message inside of `K`
   can be seen in the table cut down to `K` (`climb_only`), and so can its deliveries.
2. A record inside of `K` changes nothing outside (`Confined`), and what it does inside and tells is
   what it does to the cut table and tells there (`take_only`).
3. As long as no message falls silent, records of unrelated messages can be told apart in every run
   over both (`Apart`, `apart_of_unrelated`).
-/

namespace MailTrace

open MailTrace.Time

/-- The queue ids that are mentioned: that of the message, that of a bounce made from it, and that
under which it goes on. -/
def Payload.queues : Payload → List String
  | .attempt a => a.queue :: a.handOff?.toList
  | .bounceCreated queue child => [queue, child]
  | p => p.queue?.toList

/-- The keys that a record mentions. -/
def Record.keys (r : Record) : List QueueKey := r.payload.queues.map fun q => ⟨r.header.host, q⟩

namespace Tracker

variable {K : QueueKey → Bool} {entries entries' : Entries} {key p : QueueKey} {queue : String}
  {time : Instant} {f : Entry → Entry} {lines : List LineRef} {n : Nat}

/-! ## Links -/

/-- No link goes from a message under a key of `K` to one under another key, or back. -/
def Within (K : QueueKey → Bool) (entries : Entries) : Prop :=
  Every (fun key e => ∀ p, e.parent = some p → K p = K key) entries

theorem within_empty : Within K .empty := every_empty

theorem Within.not (h : Within K entries) : Within (fun k => !K k) entries := by
  intro key e he p hp
  show (!K p) = !K key
  rw [h key e he p hp]

theorem Within.parent (h : Within K entries) {e : Entry} (he : entries.get? key = some e)
    (hp : e.parent = some p) (hk : K key = true) : K p = true := by
  rw [h key e he p hp, hk]

theorem Within.touch (h : Within K entries) (hf : ∀ e, (f e).parent = e.parent) :
    Within K (touch entries key time f) := by
  refine Every.touch h (fun p hp => by cases hp) fun e he p hp => he p ?_
  rwa [hf] at hp

theorem Within.modify (h : Within K entries) (hf : ∀ e, (f e).parent = e.parent) :
    Within K (entries.modify key f) :=
  Every.modify h fun e he p hp => he p (hf e ▸ hp)

theorem Within.handOff (h : Within K entries) (hc : K ⟨p.host, queue⟩ = K p) :
    Within K (handOff entries p queue time lines) := by
  refine Every.handOff h (fun r hr => by cases hr) (fun e _ r hr => ?_) fun e he r hr => he r hr
  rw [← Option.some.inj hr, hc]

theorem Within.shrunk (h : Within K entries) (hs : Shrunk entries entries') : Within K entries' :=
  Every.shrunk h hs fun _ _ _ he p hp => he p hp

/-! ## The way up -/

theorem climb_only (h : Within K entries) (n : Nat) (found : List QueueKey) (hk : K key = true) :
    climb (entries.only K) n found key = climb entries n found key := by
  induction n generalizing found key with
  | zero => rfl
  | succ n ih =>
    rw [climb, climb, Table.get?_only_of_mem hk]
    cases he : entries.get? key with
    | none => rfl
    | some e =>
      dsimp only
      split
      · rfl
      · cases hp : e.parent with
        | none => rfl
        | some p => exact ih (key :: found) (h.parent he hp hk)

theorem mem_climb (h : Within K entries) {found : List QueueKey}
    (hfound : ∀ k ∈ found, K k = true) (hk : K key = true) :
    ∀ k ∈ climb entries n found key, K k = true := by
  induction n generalizing found key with
  | zero => exact hfound
  | succ n ih =>
    rw [climb]
    cases he : entries.get? key with
    | none => exact hfound
    | some e =>
      have hmore : ∀ k ∈ key :: found, K k = true := by
        intro k hmem
        rcases List.mem_cons.1 hmem with rfl | hmem
        · exact hk
        · exact hfound k hmem
      dsimp only
      split
      · exact hfound
      · cases hp : e.parent with
        | none => exact hmore
        | some p => exact ih hmore (h.parent he hp hk)

theorem chain_only (h : Within K entries) (hk : K key = true) :
    chain (entries.only K) key = chain entries key :=
  climb_only h maxDepth [] hk

theorem delivery_only (h : Within K entries) (hk : K key = true) :
    delivery (entries.only K) key = delivery entries key := by
  have hancestors : (chain entries key).filterMap (entries.only K).get? =
      (chain entries key).filterMap entries.get? :=
    List.filterMap_congr fun k hmem =>
      Table.get?_only_of_mem (mem_climb h (fun _ hm => absurd hm List.not_mem_nil) hk k hmem)
  funext a status daemon first last lines
  unfold delivery
  dsimp only
  rw [chain_only h hk, hancestors]

theorem summary_only (h : Within K entries) (hk : K key = true) :
    summary (entries.only K) key = summary entries key := by
  funext d
  unfold summary
  rw [delivery_only h hk]

theorem final_only (h : Within K entries) (hk : K key = true) :
    final (entries.only K) key = final entries key := by
  funext a daemon line
  unfold final
  rw [delivery_only h hk]

theorem expiry_only (h : Within K entries) (hk : K key = true) :
    expiry (entries.only K) key = expiry entries key := by
  funext line d
  unfold expiry
  rw [summary_only h hk, delivery_only h hk]

theorem flush_only (h : Within K entries) (hk : K key = true) :
    flush (entries.only K) key = flush entries key := by
  unfold flush
  rw [summary_only h hk, Table.get?_only_of_mem hk]

/-! ## Changes inside -/

theorem touch_only (hk : K key = true) :
    touch (entries.only K) key time f = (touch entries key time f).only K :=
  (Table.only_upsert hk ..).symm

theorem modify_only : (entries.only K).modify key f = (entries.modify key f).only K :=
  (Table.only_modify ..).symm

theorem handOff_only (hc : K ⟨p.host, queue⟩ = true) :
    handOff (entries.only K) p queue time lines = (handOff entries p queue time lines).only K := by
  by_cases hself : (⟨p.host, queue⟩ : QueueKey) = p
  · rw [handOff_self hself, handOff_self hself]
  · rw [handOff_eq hself, handOff_eq hself, touch_only hc, Table.get?_only_of_mem hc]
    dsimp only
    split
    · rfl
    · exact modify_only

theorem release_only (h : Within K entries) (n : Nat) (hk : K key = true) :
    release n (entries.only K) key = (release n entries key).only K := by
  induction n generalizing entries key with
  | zero => rfl
  | succ n ih =>
    rw [release, release, Table.get?_only_of_mem hk]
    cases he : entries.get? key with
    | none => rfl
    | some e =>
      dsimp only
      split
      · rfl
      · rw [← Table.only_erase]
        cases hp : e.parent with
        | none => rfl
        | some p =>
          have hkp := h.parent he hp hk
          dsimp only
          rw [Table.contains, Table.get?_only_of_mem hkp, ← Table.contains]
          split
          · rw [modify_only]
            exact ih ((h.shrunk (shrunk_erase entries key)).modify fun _ => rfl) hkp
          · rfl

/-! ## Nothing changes outside -/

/-- All that was changed is inside of `K`, and still no link crosses. -/
structure Confined (K : QueueKey → Bool) (entries entries' : Entries) : Prop where
  within : Within K entries'
  outside : (entries'.only fun k => !K k) = entries.only fun k => !K k

theorem Within.confined (h : Within K entries) : Confined K entries entries := ⟨h, rfl⟩

theorem Confined.trans {entries'' : Entries} (h₁ : Confined K entries entries')
    (h₂ : Confined K entries' entries'') : Confined K entries entries'' :=
  ⟨h₂.within, h₂.outside.trans h₁.outside⟩

theorem confined_touch (h : Within K entries) (hk : K key = true)
    (hf : ∀ e, (f e).parent = e.parent) : Confined K entries (touch entries key time f) where
  within := h.touch hf
  outside := Table.only_upsert_of_not_mem (by simp [hk]) ..

theorem confined_modify (h : Within K entries) (hk : K key = true)
    (hf : ∀ e, (f e).parent = e.parent) : Confined K entries (entries.modify key f) where
  within := h.modify hf
  outside := Table.only_modify_of_not_mem (by simp [hk]) ..

theorem confined_erase (h : Within K entries) (hk : K key = true) :
    Confined K entries (entries.erase key) where
  within := h.shrunk (shrunk_erase entries key)
  outside := Table.only_erase_of_not_mem (by simp [hk]) _

theorem confined_handOff (h : Within K entries) (hp : K p = true) (hc : K ⟨p.host, queue⟩ = true) :
    Confined K entries (handOff entries p queue time lines) where
  within := h.handOff (hc.trans hp.symm)
  outside := by
    by_cases hself : (⟨p.host, queue⟩ : QueueKey) = p
    · rw [handOff_self hself]
    · have hadopted : ((touch entries ⟨p.host, queue⟩ time (adopt p lines)).only fun k => !K k) =
          entries.only fun k => !K k := Table.only_upsert_of_not_mem (by simp [hc]) ..
      rw [handOff_eq hself]
      dsimp only
      split
      · exact hadopted
      · rw [Table.only_modify_of_not_mem (by simp [hp]), hadopted]

theorem confined_release (h : Within K entries) (n : Nat) (hk : K key = true) :
    Confined K entries (release n entries key) := by
  induction n generalizing entries key with
  | zero => exact h.confined
  | succ n ih =>
    rw [release]
    cases he : entries.get? key with
    | none => exact h.confined
    | some e =>
      have herase := confined_erase h hk
      dsimp only
      split
      · exact h.confined
      · cases hp : e.parent with
        | none => exact herase
        | some p =>
          have hkp := h.parent he hp hk
          dsimp only
          split
          · have hdrop := herase.trans
              (confined_modify (f := (·.dropChildren 1)) herase.within hkp fun _ => rfl)
            exact hdrop.trans (ih hdrop.within hkp)
          · exact herase

/-! ## Records inside -/

section Attempt

variable {a : Attempt} {daemon host : String} {line : LineRef} {waiting : Option Deferral}

theorem attemptOpen_only (h : Within K entries) (hk : K key = true)
    (hc : ∀ child ∈ a.handOff?, K ⟨key.host, child⟩ = true) :
    attemptOpen (entries.only K) key waiting a daemon line =
      ((attemptOpen entries key waiting a daemon line).1.only K,
        (attemptOpen entries key waiting a daemon line).2) := by
  have hstand (s : Standing) : Within K (stand entries key a.recipient s) := h.modify fun _ => rfl
  unfold attemptOpen
  simp only [modify_only]
  split
  · rfl
  · cases ha : a.handOff? with
    | some child =>
      dsimp only
      rw [handOff_only (hc child ha)]
    | none =>
      dsimp only
      rw [summary_only (hstand .done) hk, final_only (hstand .done) hk]

theorem confined_attemptOpen (h : Within K entries) (hk : K key = true)
    (hc : ∀ child ∈ a.handOff?, K ⟨key.host, child⟩ = true) :
    Confined K entries (attemptOpen entries key waiting a daemon line).1 := by
  have hstand (s : Standing) : Confined K entries (stand entries key a.recipient s) :=
    confined_modify h hk fun _ => rfl
  have hstep := attemptOpen_step entries key waiting a daemon line
  generalize attemptOpen entries key waiting a daemon line = out at hstep ⊢
  cases hstep with
  | putOff => exact hstand _
  | handedOff _ hchild =>
    exact (hstand .handedOff).trans (confined_handOff (hstand .handedOff).within hk (hc _ hchild))
  | settled => exact hstand .done

theorem attempt_only (h : Within K entries) (hk : K ⟨host, a.queue⟩ = true)
    (hc : ∀ child ∈ a.handOff?, K ⟨host, child⟩ = true) :
    attempt (entries.only K) host daemon a line =
      ((attempt entries host daemon a line).1.only K, (attempt entries host daemon a line).2) := by
  have htouch : Within K (touch entries ⟨host, a.queue⟩ line.time id) := h.touch fun _ => rfl
  unfold attempt
  dsimp only
  rw [touch_only hk]
  generalize touch entries ⟨host, a.queue⟩ line.time id = touched at htouch ⊢
  rw [Table.get?_only_of_mem hk]
  split
  · exact attemptOpen_only htouch hk hc
  · exact attemptOpen_only htouch hk hc
  · rfl
  · rw [final_only htouch hk]
    split <;> rfl

theorem confined_attempt (h : Within K entries) (hk : K ⟨host, a.queue⟩ = true)
    (hc : ∀ child ∈ a.handOff?, K ⟨host, child⟩ = true) :
    Confined K entries (attempt entries host daemon a line).1 := by
  have htouch : Confined K entries (touch entries ⟨host, a.queue⟩ line.time id) :=
    confined_touch h hk fun _ => rfl
  have hstep := attempt_step entries host daemon a line
  generalize attempt entries host daemon a line = out at hstep ⊢
  cases hstep with
  | fresh => exact htouch.trans (confined_attemptOpen htouch.within hk hc)
  | handedOff => exact htouch
  | replaced => exact htouch
  | ignored => exact htouch

end Attempt

theorem expire_only (h : Within K entries) (hk : K key = true) (line : LineRef) :
    expire (entries.only K) key line =
      ((expire entries key line).1.only K, (expire entries key line).2) := by
  unfold expire
  rw [Table.get?_only_of_mem hk, expiry_only h hk, modify_only]

theorem remove_only (h : Within K entries) (hk : K key = true) (time : Instant) :
    remove (entries.only K) key time =
      ((remove entries key time).1.only K, (remove entries key time).2) := by
  have hleft : Within K (entries.modify key fun e => { e.settle.active time with removed := true }) :=
    h.modify fun _ => rfl
  unfold remove
  dsimp only
  rw [modify_only, release_only hleft maxDepth hk, flush_only h hk]

theorem confined_remove (h : Within K entries) (hk : K key = true) (time : Instant) :
    Confined K entries (remove entries key time).1 := by
  have hleft : Confined K entries
      (entries.modify key fun e => { e.settle.active time with removed := true }) :=
    confined_modify h hk fun _ => rfl
  exact hleft.trans (confined_release hleft.within maxDepth hk)

section Take

variable {r : Record}

theorem mem_queues (hr : ∀ k ∈ r.keys, K k = true) :
    ∀ q ∈ r.payload.queues, K ⟨r.header.host, q⟩ = true :=
  fun _ hq => hr _ (List.mem_map_of_mem hq)

/-- A record does to the table cut down to its part what it does to all open messages, and tells the
same. -/
theorem take_only (h : Within K entries) (hr : ∀ k ∈ r.keys, K k = true) :
    take (entries.only K) r = ((take entries r).1.only K, (take entries r).2) := by
  have hq := mem_queues hr
  unfold take
  cases hp : r.payload <;> rw [hp] at hq <;> dsimp only
  case accepted queue _ => rw [touch_only (hq queue List.mem_cons_self)]
  case pickup p => rw [touch_only (hq p.queue List.mem_cons_self)]
  case messageId m => rw [touch_only (hq m.queue List.mem_cons_self)]
  case queued q => rw [touch_only (hq q.queue List.mem_cons_self)]
  case bounceCreated queue child =>
    rw [touch_only (hq queue List.mem_cons_self),
      touch_only (hq child (List.mem_cons_of_mem _ List.mem_cons_self))]
  case attempt a =>
    exact attempt_only h (hq a.queue List.mem_cons_self) fun child hc =>
      hq child (List.mem_cons_of_mem _ (Option.mem_toList.2 hc))
  case expired e => exact expire_only h (hq e.queue List.mem_cons_self) r.ref
  case removed queue => exact remove_only h (hq queue List.mem_cons_self) r.time
  case milterRejected => rw [Table.only_erase]

/-- A record changes nothing but what is in its part. -/
theorem confined_take (h : Within K entries) (hr : ∀ k ∈ r.keys, K k = true) :
    Confined K entries (take entries r).1 := by
  have hq := mem_queues hr
  unfold take
  cases hp : r.payload <;> rw [hp] at hq <;> dsimp only
  case accepted queue _ => exact confined_touch h (hq queue List.mem_cons_self) fun _ => rfl
  case pickup p => exact confined_touch h (hq p.queue List.mem_cons_self) fun _ => rfl
  case messageId m =>
    refine confined_touch h (hq m.queue List.mem_cons_self) fun e => ?_
    split <;> rfl
  case queued q => exact confined_touch h (hq q.queue List.mem_cons_self) fun _ => rfl
  case bounceCreated queue child =>
    have hnoted : Confined K entries
        (touch entries ⟨r.header.host, queue⟩ r.time fun e => (id e).addLine r.ref) :=
      confined_touch h (hq queue List.mem_cons_self) fun _ => rfl
    exact hnoted.trans (confined_touch hnoted.within
      (hq child (List.mem_cons_of_mem _ List.mem_cons_self)) fun _ => rfl)
  case attempt a =>
    exact confined_attempt h (hq a.queue List.mem_cons_self) fun child hc =>
      hq child (List.mem_cons_of_mem _ (Option.mem_toList.2 hc))
  case expired e =>
    exact confined_modify (f := fun e => e.settle.active r.time) h (hq e.queue List.mem_cons_self)
      fun _ => rfl
  case removed queue => exact confined_remove h (hq queue List.mem_cons_self) r.time
  case milterRejected queue _ => exact confined_erase h (hq queue List.mem_cons_self)
  all_goals exact h.confined

end Take

/-! ## No message falls silent -/

/-- A message was active at most a timeout before every one of some moments. -/
def Lively (timeout : Duration) (times : List Instant) (e : Entry) : Prop :=
  ∀ t ∈ times, t - e.lastActivity ≤ (timeout : Int)

section Lively

variable {timeout : Duration} {times : List Instant} {e e' : Entry} {r : Record}

theorem Lively.of_le (h : Lively timeout times e) (hle : e.lastActivity ≤ e'.lastActivity) :
    Lively timeout times e' := fun t ht => Int.le_trans (Int.sub_le_sub_left hle t) (h t ht)

/-- No message falls silent at one of the moments. -/
abbrev AllLively (timeout : Duration) (times : List Instant) (entries : Entries) : Prop :=
  Every (fun _ => Lively timeout times) entries

theorem AllLively.prune_eq (h : AllLively timeout times entries) {now : Instant}
    (hnow : now ∈ times) : prune timeout now entries = (entries, []) := by
  refine prune_of_active fun row hrow => decide_eq_false (Int.not_lt.2 ?_)
  exact h row.1 row.2 (Table.mem_rows_iff.1 hrow) now hnow

theorem AllLively.only (h : AllLively timeout times entries) :
    AllLively timeout times (entries.only K) := by
  intro key e he
  rw [Table.get?_only] at he
  split at he
  · exact h key e he
  · cases he

theorem AllLively.touch (h : AllLively timeout times entries)
    (hnew : Lively timeout times (.new time)) (hf : ∀ e, (f e).lastActivity = e.lastActivity) :
    AllLively timeout times (touch entries key time f) :=
  Every.touch h hnew fun e he => he.of_le <| by
    rw [hf]
    exact Int.le_max_left ..

theorem AllLively.modify (h : AllLively timeout times entries)
    (hf : ∀ e, e.lastActivity ≤ (f e).lastActivity) :
    AllLively timeout times (entries.modify key f) :=
  Every.modify h fun e he => he.of_le (hf e)

theorem AllLively.handOff (h : AllLively timeout times entries)
    (hnew : Lively timeout times (.new time)) :
    AllLively timeout times (handOff entries p queue time lines) :=
  Every.handOff h hnew (fun _ he => he.of_le (Int.le_max_left ..)) fun _ he =>
    he.of_le (Int.le_refl _)

theorem AllLively.shrunk (h : AllLively timeout times entries) (hs : Shrunk entries entries') :
    AllLively timeout times entries' :=
  Every.shrunk h hs fun _ _ _ he => he.of_le (Int.le_refl _)

theorem AllLively.attempt (h : AllLively timeout times entries) {host daemon : String} {a : Attempt}
    {line : LineRef} (hnew : Lively timeout times (.new line.time)) :
    AllLively timeout times (attempt entries host daemon a line).1 := by
  have htouch : AllLively timeout times (Tracker.touch entries ⟨host, a.queue⟩ line.time id) :=
    h.touch hnew fun _ => rfl
  have hstep := attempt_step entries host daemon a line
  generalize Tracker.attempt entries host daemon a line = out at hstep ⊢
  generalize Tracker.touch entries ⟨host, a.queue⟩ line.time id = touched at htouch hstep
  cases hstep with
  | @fresh waiting =>
    have hstand (s : Standing) : AllLively timeout times (stand touched ⟨host, a.queue⟩ a.recipient s) :=
      htouch.modify fun _ => Int.le_refl _
    have hopen := attemptOpen_step touched ⟨host, a.queue⟩ waiting a daemon line
    generalize attemptOpen touched ⟨host, a.queue⟩ waiting a daemon line = out at hopen ⊢
    cases hopen with
    | putOff => exact hstand _
    | handedOff => exact (hstand .handedOff).handOff hnew
    | settled => exact hstand .done
  | handedOff => exact htouch
  | replaced => exact htouch
  | ignored => exact htouch

theorem AllLively.note (h : AllLively timeout times entries) (hnew : Lively timeout times (.new r.time))
    (hf : Plain f) : AllLively timeout times (note entries r queue f) :=
  h.touch hnew fun e => hf.lastActivity e

theorem AllLively.take (h : AllLively timeout times entries)
    (hnew : Lively timeout times (.new r.time)) : AllLively timeout times (take entries r).1 := by
  have hstep := take_step entries r
  generalize Tracker.take entries r = out at hstep ⊢
  cases hstep with
  | note hf => exact h.note hnew hf
  | noteBoth hf hg => exact (h.note hnew hf).note hnew hg
  | attempt => exact h.attempt hnew
  | expired => exact h.modify fun e => Int.le_max_left ..
  | @removed queue =>
    have hleft : AllLively timeout times (entries.modify ⟨r.header.host, queue⟩ fun e =>
        { e.settle.active r.time with removed := true }) := h.modify fun e => Int.le_max_left ..
    exact hleft.shrunk (shrunk_release _ _ _)
  | rejected => exact h.shrunk (shrunk_erase _ _)
  | relayed => exact h
  | nothing => exact h

end Lively

/-! ## Labelled records -/

/-- What bears a label, in order. -/
def part {α : Type} (b : Bool) (xs : List (Bool × α)) : List α := (xs.filter (·.1 = b)).map (·.2)

/-- What labelled records tell, under their labels. -/
def State.tell (settings : Settings) : State → List (Bool × Record) → List (Bool × Finding)
  | _, [] => []
  | s, (b, r) :: rs =>
    (s.handle settings r).2.map (b, ·) ++ tell settings (s.handle settings r).1 rs

section Part

variable {α : Type} {b c : Bool}

theorem part_append (xs ys : List (Bool × α)) : part b (xs ++ ys) = part b xs ++ part b ys := by
  simp [part, List.filter_append]

theorem part_map_same (xs : List α) : part b (xs.map (b, ·)) = xs := by
  simp [part, List.filter_map, Function.comp_def]

theorem part_map_of_ne (h : c ≠ b) (xs : List α) : part b (xs.map (c, ·)) = [] := by
  simp [part, List.filter_map, Function.comp_def, h]

end Part

/-! ## Runs -/

/-- Records under different labels mention different keys. -/
def Unrelated (mixed : List (Bool × Record)) : Prop :=
  ∀ p ∈ mixed, ∀ q ∈ mixed, p.1 ≠ q.1 → ∀ k ∈ p.2.keys, k ∉ q.2.keys

/-- Whatever is told in a run over labelled records is told as if those under each label came alone,
and so is what is told when everything is closed. -/
structure Apart (settings : Settings) (mixed : List (Bool × Record)) : Prop where
  all : (State.empty.tell settings mixed).map (·.2) =
    (State.empty.run settings (mixed.map (·.2))).2
  told : ∀ b, part b (State.empty.tell settings mixed) =
    (State.empty.run settings (part b mixed)).2
  closing : (State.empty.run settings (mixed.map (·.2))).1.closeAll.2.Perm
    ((State.empty.run settings (part true mixed)).1.closeAll.2 ++
      (State.empty.run settings (part false mixed)).1.closeAll.2)

/-- The open messages of a state in a part are all that another state has, and none falls silent at
some moments. -/
structure Follows (K : QueueKey → Bool) (settings : Settings) (times : List Instant) (s s' : State) :
    Prop where
  within : Within K s.entries
  lively : AllLively settings.idleTimeout times s.entries
  entries : s'.entries = s.entries.only K

section Runs

variable {settings : Settings} {times : List Instant} {s s' : State} {r : Record} {b : Bool}
  {mixed : List (Bool × Record)}

theorem map_snd_tell (settings : Settings) (s : State) (mixed : List (Bool × Record)) :
    (s.tell settings mixed).map (·.2) = (s.run settings (mixed.map (·.2))).2 := by
  induction mixed generalizing s with
  | nil => rfl
  | cons p mixed ih => simp [State.tell, State.run, ih, Function.comp_def]

theorem AllLively.handle_eq (h : AllLively settings.idleTimeout times s.entries)
    (hr : r.time ∈ times) (hnew : Lively settings.idleTimeout times (.new r.time)) :
    (s.handle settings r).1.entries = (Tracker.take s.entries r).1 ∧
      (s.handle settings r).2 = (Tracker.take s.entries r).2 := by
  rcases s.handle_cases settings r with he | ⟨he, hf⟩
  · exact he
  · have htake : AllLively settings.idleTimeout times (Tracker.take s.entries r).1 := h.take hnew
    rw [he, hf, htake.prune_eq hr, List.append_nil]
    exact ⟨rfl, rfl⟩

theorem Follows.handle_inside (h : Follows K settings times s s') (hr : r.time ∈ times)
    (hnew : Lively settings.idleTimeout times (.new r.time)) (hk : ∀ k ∈ r.keys, K k = true) :
    Follows K settings times (s.handle settings r).1 (s'.handle settings r).1 ∧
      (s'.handle settings r).2 = (s.handle settings r).2 := by
  have hlively' : AllLively settings.idleTimeout times s'.entries := h.entries ▸ h.lively.only
  obtain ⟨he, hf⟩ := h.lively.handle_eq hr hnew
  obtain ⟨he', hf'⟩ := hlively'.handle_eq hr hnew
  rw [h.entries, take_only h.within hk] at he' hf'
  refine ⟨⟨?_, ?_, ?_⟩, hf'.trans hf.symm⟩
  · rw [he]
    exact (confined_take h.within hk).within
  · rw [he]
    exact h.lively.take hnew
  · rw [he', he]

theorem Follows.handle_outside (h : Follows K settings times s s') (hr : r.time ∈ times)
    (hnew : Lively settings.idleTimeout times (.new r.time)) (hk : ∀ k ∈ r.keys, K k = false) :
    Follows K settings times (s.handle settings r).1 s' := by
  have hconfined : Confined (fun k => !K k) s.entries (Tracker.take s.entries r).1 :=
    confined_take h.within.not fun k hmem => by simp [hk k hmem]
  obtain ⟨he, -⟩ := h.lively.handle_eq hr hnew
  have hwithin := hconfined.within.not
  have houtside := hconfined.outside
  simp only [Bool.not_not] at hwithin houtside
  constructor
  · rwa [he]
  · rw [he]
    exact h.lively.take hnew
  · rw [he, houtside, h.entries]

/-- The run over the records under one label follows the run over all. -/
theorem Follows.run (h : Follows K settings times s s')
    (hspan : ∀ t ∈ times, ∀ u ∈ times, t - u ≤ (settings.idleTimeout : Int))
    (htimes : ∀ p ∈ mixed, p.2.time ∈ times)
    (hlabel : ∀ p ∈ mixed, ∀ k ∈ p.2.keys, K k = (p.1 == b)) :
    Follows K settings times (s.run settings (mixed.map (·.2))).1
        (s'.run settings (part b mixed)).1 ∧
      part b (s.tell settings mixed) = (s'.run settings (part b mixed)).2 := by
  induction mixed generalizing s s' with
  | nil => exact ⟨h, rfl⟩
  | cons p mixed ih =>
    obtain ⟨c, r⟩ := p
    have hr : r.time ∈ times := htimes (c, r) List.mem_cons_self
    have hnew : Lively settings.idleTimeout times (.new r.time) := fun t ht => hspan t ht _ hr
    have hkeys := hlabel (c, r) List.mem_cons_self
    have htimes' := fun p hp => htimes p (List.mem_cons_of_mem _ hp)
    have hlabel' := fun p hp => hlabel p (List.mem_cons_of_mem _ hp)
    rw [State.tell, part_append]
    by_cases hc : c = b
    · subst hc
      obtain ⟨hstep, htold⟩ := h.handle_inside hr hnew fun k hk => by simp [hkeys k hk]
      obtain ⟨hrest, hmore⟩ := ih hstep htimes' hlabel'
      have hpart : part c ((c, r) :: mixed) = r :: part c mixed := by simp [part]
      rw [hpart, part_map_same, hmore, ← htold]
      exact ⟨hrest, rfl⟩
    · obtain ⟨hrest, hmore⟩ := ih (h.handle_outside hr hnew fun k hk => by simp [hkeys k hk, hc])
        htimes' hlabel'
      have hpart : part b ((c, r) :: mixed) = part b mixed := by simp [part, hc]
      rw [hpart, part_map_of_ne hc, hmore]
      exact ⟨hrest, rfl⟩

/-- What is told when everything is closed is told of the messages in either part. -/
theorem closeAll_perm (h : Within K s.entries) {s₁ s₂ : State} (h₁ : s₁.entries = s.entries.only K)
    (h₂ : s₂.entries = s.entries.only fun k => !K k) :
    s.closeAll.2.Perm (s₁.closeAll.2 ++ s₂.closeAll.2) := by
  have hpart {J : QueueKey → Bool} (hJ : Within J s.entries) {s' : State}
      (h' : s'.entries = s.entries.only J) :
      s'.closeAll.2 = (s.entries.only J).keys.flatMap (flush s.entries) := by
    rw [State.closeAll, h']
    refine List.flatMap_congr fun k hk => flush_only hJ ?_
    obtain ⟨row, hrow, rfl⟩ := List.mem_map.1 hk
    exact (List.mem_filter.1 hrow).2
  rw [hpart h h₁, hpart h.not h₂, ← List.flatMap_append]
  refine List.Perm.flatMap_right _ ?_
  unfold Table.keys
  rw [← List.map_append]
  exact ((Table.rows_only_perm K s.entries).map _).symm

theorem apart_of_label {K : QueueKey → Bool}
    (hspan : ∀ p ∈ mixed, ∀ q ∈ mixed, p.2.time - q.2.time ≤ (settings.idleTimeout : Int))
    (hlabel : ∀ p ∈ mixed, ∀ k ∈ p.2.keys, K k = p.1) : Apart settings mixed := by
  have hspan' : ∀ t ∈ mixed.map (·.2.time), ∀ u ∈ mixed.map (·.2.time),
      t - u ≤ (settings.idleTimeout : Int) := by
    intro t ht u hu
    obtain ⟨p, hp, rfl⟩ := List.mem_map.1 ht
    obtain ⟨q, hq, rfl⟩ := List.mem_map.1 hu
    exact hspan p hp q hq
  have hstart (J : QueueKey → Bool) :
      Follows J settings (mixed.map (·.2.time)) .empty .empty := ⟨within_empty, every_empty, rfl⟩
  have hrun (b : Bool) (J : QueueKey → Bool) (hJ : ∀ k, J k = (K k == b)) :=
    (hstart J).run (b := b) hspan' (fun p hp => List.mem_map_of_mem hp) fun p hp k hk => by
      rw [hJ, hlabel p hp k hk]
  obtain ⟨htrue, htold⟩ := hrun true K fun k => by simp
  obtain ⟨hfalse, htold'⟩ := hrun false (fun k => !K k) fun k => by simp
  refine ⟨map_snd_tell .., fun b => ?_, closeAll_perm htrue.within htrue.entries hfalse.entries⟩
  cases b with
  | true => exact htold
  | false => exact htold'

theorem apart_of_unrelated
    (hspan : ∀ p ∈ mixed, ∀ q ∈ mixed, p.2.time - q.2.time ≤ (settings.idleTimeout : Int))
    (h : Unrelated mixed) : Apart settings mixed := by
  refine apart_of_label (K := fun k => decide (k ∈ (part true mixed).flatMap Record.keys)) hspan ?_
  intro p hp k hk
  have hmem : k ∈ (part true mixed).flatMap Record.keys ↔ p.1 = true := by
    simp only [List.mem_flatMap, part, List.mem_map, List.mem_filter, decide_eq_true_eq]
    constructor
    · rintro ⟨r, ⟨q, ⟨hq, hlabel⟩, rfl⟩, hkq⟩
      by_contra hne
      exact h p hp q hq (by rwa [hlabel]) k hk hkq
    · intro hlabel
      exact ⟨p.2, ⟨p, ⟨hp, hlabel⟩, rfl⟩, hk⟩
  simp [hmem]

theorem host_of_mem_keys {k : QueueKey} (hk : k ∈ r.keys) : k.host = r.header.host := by
  obtain ⟨q, -, rfl⟩ := List.mem_map.1 hk
  rfl

theorem unrelated_of_hosts
    (h : ∀ p ∈ mixed, ∀ q ∈ mixed, p.1 ≠ q.1 → p.2.header.host ≠ q.2.header.host) :
    Unrelated mixed := by
  intro p hp q hq hne k hkp hkq
  exact h p hp q hq hne ((host_of_mem_keys hkp).symm.trans (host_of_mem_keys hkq))

end Runs

/-- **Isolation.** As long as no two records are further apart than the idle timeout, records that
mention different keys have no influence on what the others tell, however they are mixed. Records of
different hosts mention different keys, whichever queue ids they name. -/
theorem unrelated_runs_apart (settings : Settings) (mixed : List (Bool × Record))
    (hspan : ∀ p ∈ mixed, ∀ q ∈ mixed, p.2.time - q.2.time ≤ (settings.idleTimeout : Int)) :
    (Unrelated mixed → Apart settings mixed) ∧
      ((∀ p ∈ mixed, ∀ q ∈ mixed, p.1 ≠ q.1 → p.2.header.host ≠ q.2.header.host) →
        Apart settings mixed) :=
  ⟨apart_of_unrelated hspan, fun h => apart_of_unrelated hspan (unrelated_of_hosts h)⟩

/-- A record of a host in a second. -/
def recordOf (host : String) (second : Int) (payload : Payload) : Record where
  time := .ofSecond second
  header := { (default : Header) with host }
  payload
  line := ""
  location := default

/-- An attempt at a recipient of the message in the queue A. -/
def attemptAtA (status : Status) : Payload :=
  .attempt
    { queue := "A", recipient := ⟨"user", "example.com"⟩, origRecipient := none, relay := .none
      delay := default, delays := default, dsn := "", status, extraMessage := "", requeued := none }

/-- Two hosts use the queue id A at the same time. One message is sent, the other put off. -/
def sameQueue : List (Bool × Record) :=
  [(true, recordOf "mx1" 1 (.pickup ⟨"A", 0, ⟨"alice", "example.com"⟩⟩)),
    (false, recordOf "mx2" 2 (.pickup ⟨"A", 0, ⟨"bob", "example.com"⟩⟩)),
    (false, recordOf "mx2" 3 (attemptAtA .deferred)),
    (true, recordOf "mx1" 4 (attemptAtA .sent))]

theorem sameQueue_apart :
    (∀ p ∈ sameQueue, ∀ q ∈ sameQueue,
        p.2.time - q.2.time ≤ (Settings.default.idleTimeout : Int)) ∧
      (∀ p ∈ sameQueue, ∀ q ∈ sameQueue, p.1 ≠ q.1 → p.2.header.host ≠ q.2.header.host) ∧
      Unrelated sameQueue ∧ Apart .default sameQueue ∧
      ((State.empty.run .default (part true sameQueue)).2.filterMap (·.delivery?)).map (·.sender) =
        [⟨"alice", "example.com"⟩] := by
  have hspan : ∀ p ∈ sameQueue, ∀ q ∈ sameQueue,
      p.2.time - q.2.time ≤ (Settings.default.idleTimeout : Int) := by decide
  have hhosts : ∀ p ∈ sameQueue, ∀ q ∈ sameQueue, p.1 ≠ q.1 →
      p.2.header.host ≠ q.2.header.host := by decide
  exact ⟨hspan, hhosts, unrelated_of_hosts hhosts,
    (unrelated_runs_apart .default sameQueue hspan).2 hhosts, by rfl⟩

end Tracker

end MailTrace
