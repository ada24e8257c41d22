import MailTrace.Proofs.Rows
import MailTrace.Tracker.State

/-!
# What becomes of open messages

A record mentions messages and thereby opens or changes them, or it closes some. Here it is said once
for each operation what it does to the message under a key, so that a property of every open message
(`Every`) is carried through a record, and from there through a run (`State.run_induction`).
-/

namespace MailTrace.Tracker

open MailTrace.Time

/-- The delivery that a finding tells of. -/
def Finding.delivery? : Finding → Option Delivery
  | .delivery d | .replacement d => some d
  | .relayedBounce _ => none

/-! ## Every open message -/

/-- Every open message has a property. -/
def Every (P : QueueKey → Entry → Prop) (entries : Entries) : Prop :=
  ∀ key e, entries.get? key = some e → P key e

section Every

variable {P : QueueKey → Entry → Prop} {entries : Entries} {key : QueueKey} {time : Instant}
  {f : Entry → Entry}

theorem every_empty : Every P .empty := fun _ _ h => nomatch h

theorem get?_touch (entries : Entries) (key : QueueKey) (time : Instant) (f : Entry → Entry)
    (k : QueueKey) :
    (touch entries key time f).get? k =
      if k = key then some (f (((entries.get? key).getD (.new time)).seen time))
      else entries.get? k :=
  Table.get?_upsert ..

theorem get?_touch_self (entries : Entries) (key : QueueKey) (time : Instant) (f : Entry → Entry) :
    (touch entries key time f).get? key =
      some (f (((entries.get? key).getD (.new time)).seen time)) := by
  rw [get?_touch, if_pos rfl]

theorem get?_touch_of_ne {k : QueueKey} (h : k ≠ key) :
    (touch entries key time f).get? k = entries.get? k := by
  rw [get?_touch, if_neg h]

theorem Every.getD (h : Every P entries) (hnew : P key (.new time)) :
    P key ((entries.get? key).getD (.new time)) := by
  cases hk : entries.get? key with
  | none => exact hnew
  | some e => exact h key e hk

theorem Every.touch (h : Every P entries) (hnew : P key (.new time))
    (hf : ∀ e, P key e → P key (f (e.seen time))) : Every P (touch entries key time f) := by
  intro k e he
  rw [get?_touch] at he
  split at he
  · rename_i hk
    subst hk
    exact Option.some.inj he ▸ hf _ (h.getD hnew)
  · exact h k e he

theorem Every.modify (h : Every P entries) (hf : ∀ e, P key e → P key (f e)) :
    Every P (entries.modify key f) := by
  intro k e he
  rw [Table.get?_modify] at he
  split at he
  · rename_i hk
    obtain ⟨e', he', rfl⟩ := Option.map_eq_some_iff.1 he
    exact hk ▸ hf e' (hk ▸ h k e' he')
  · exact h k e he

end Every

/-! ## Handing on -/

/-- What a message becomes that another one goes on in. -/
def adopt (parent : QueueKey) (lines : List LineRef) (e : Entry) : Entry :=
  { e with parent := some parent, lines := e.lines ++ lines }

/-- What a message becomes that goes on in another queue. -/
def bear (e : Entry) : Entry := { e with children := e.children + 1 }

/-- The message that another one goes on in is opened or mentioned and gets its lines. The one that
went on counts it, unless it did so before. -/
theorem handOff_eq {parent : QueueKey} {queue : String} (h : (⟨parent.host, queue⟩ : QueueKey) ≠ parent)
    (entries : Entries) (time : Instant) (lines : List LineRef) :
    handOff entries parent queue time lines =
      let adopted := touch entries ⟨parent.host, queue⟩ time (adopt parent lines)
      if ((entries.get? ⟨parent.host, queue⟩).bind (·.parent)) = some parent then adopted
      else adopted.modify parent bear := by
  rw [handOff, if_neg h]
  rfl

theorem handOff_self {parent : QueueKey} {queue : String}
    (h : (⟨parent.host, queue⟩ : QueueKey) = parent) (entries : Entries) (time : Instant)
    (lines : List LineRef) : handOff entries parent queue time lines = entries := by
  rw [handOff, if_pos h]

theorem Every.handOff {P : QueueKey → Entry → Prop} {entries : Entries} {parent : QueueKey}
    {queue : String} {time : Instant} {lines : List LineRef} (h : Every P entries)
    (hnew : P ⟨parent.host, queue⟩ (.new time))
    (hadopt : ∀ e, P ⟨parent.host, queue⟩ e →
      P ⟨parent.host, queue⟩ (adopt parent lines (e.seen time)))
    (hbear : ∀ e, P parent e → P parent (bear e)) :
    Every P (handOff entries parent queue time lines) := by
  by_cases hself : (⟨parent.host, queue⟩ : QueueKey) = parent
  · rwa [handOff_self hself]
  · rw [handOff_eq hself]
    have ht := h.touch hnew hadopt
    dsimp only
    split
    · exact ht
    · exact ht.modify hbear

/-! ## Closing -/

@[simp] theorem dropChildren_zero (e : Entry) : e.dropChildren 0 = e := rfl

@[simp] theorem dropChildren_dropChildren (e : Entry) (m n : Nat) :
    (e.dropChildren m).dropChildren n = e.dropChildren (m + n) := by
  simp only [Entry.dropChildren, Nat.sub_sub]

/-- Messages were closed, and those that stay open may count fewer that were handed on from them. -/
def Shrunk (entries entries' : Entries) : Prop :=
  ∀ key, entries'.get? key = none ∨
    ∃ n, entries'.get? key = (entries.get? key).map (·.dropChildren n)

theorem Shrunk.refl (entries : Entries) : Shrunk entries entries := fun key =>
  .inr ⟨0, by simp⟩

theorem Shrunk.trans {a b c : Entries} (h₁ : Shrunk a b) (h₂ : Shrunk b c) : Shrunk a c := by
  intro key
  rcases h₂ key with h | ⟨n, h⟩
  · exact .inl h
  · rcases h₁ key with h' | ⟨m, h'⟩
    · exact .inl (by rw [h, h', Option.map_none])
    · refine .inr ⟨m + n, ?_⟩
      rw [h, h', Option.map_map]
      congr 1
      funext e
      exact dropChildren_dropChildren e m n

theorem shrunk_erase (entries : Entries) (key : QueueKey) : Shrunk entries (entries.erase key) := by
  intro k
  rw [Table.get?_erase]
  split
  · exact .inl rfl
  · exact .inr ⟨0, by simp⟩

theorem shrunk_modify_dropChildren (entries : Entries) (key : QueueKey) (n : Nat) :
    Shrunk entries (entries.modify key (·.dropChildren n)) := by
  intro k
  rw [Table.get?_modify]
  split
  · exact .inr ⟨n, rfl⟩
  · exact .inr ⟨0, by simp⟩

theorem shrunk_release (n : Nat) (entries : Entries) (key : QueueKey) :
    Shrunk entries (release n entries key) := by
  induction n generalizing entries key with
  | zero => exact .refl entries
  | succ n ih =>
    rw [release]
    split
    · exact .refl entries
    · dsimp only
      split
      · exact .refl entries
      · split
        · exact shrunk_erase entries key
        · split
          · exact ((shrunk_erase entries key).trans
              (shrunk_modify_dropChildren _ _ 1)).trans (ih _ _)
          · exact shrunk_erase entries key

/-- What a message becomes that leaves its queue. -/
def leave (time : Instant) (e : Entry) : Entry := { e.settle.active time with removed := true }

theorem remove_eq (entries : Entries) (k : QueueKey) (time : Instant) :
    (remove entries k time).1 = release maxDepth (entries.modify k (leave time)) k := rfl

theorem shrunk_prune (timeout : Duration) (now : Instant) (entries : Entries) :
    Shrunk entries (prune timeout now entries).1 := by
  intro key
  simp only [prune, Table.get?_map, Table.get?_filter]
  cases entries.get? key with
  | none => exact .inl rfl
  | some e =>
    by_cases hi : isIdle timeout now e = true
    · exact .inl (by simp [Option.filter_some, hi])
    · exact .inr ⟨_, by simp [Option.filter_some, hi]; rfl⟩

/-- If no message is silent, none is closed. -/
theorem prune_of_active {timeout : Duration} {now : Instant} {entries : Entries}
    (h : ∀ row ∈ entries.rows, isIdle timeout now row.2 = false) :
    prune timeout now entries = (entries, []) := by
  have hidle : (entries.rows.filter fun row => isIdle timeout now row.2) = [] :=
    List.filter_eq_nil_iff.2 fun row hrow => by simp [h row hrow]
  have hrest : (entries.rows.filter fun row => !isIdle timeout now row.2) = entries.rows :=
    List.filter_eq_self.2 fun row hrow => by simp [h row hrow]
  obtain ⟨rows, hnodup⟩ := entries
  simp only at hidle hrest
  simp [prune, hidle, Table.filter, Table.map, hrest]

theorem Every.shrunk {P : QueueKey → Entry → Prop} {entries entries' : Entries}
    (h : Every P entries) (hs : Shrunk entries entries')
    (hP : ∀ key e n, P key e → P key (e.dropChildren n)) : Every P entries' := by
  intro key e he
  rcases hs key with hk | ⟨n, hk⟩
  · rw [hk] at he
    cases he
  · rw [hk] at he
    obtain ⟨e', he', rfl⟩ := Option.map_eq_some_iff.1 he
    exact hP key e' n (h key e' he')

/-! ## Attempts -/

/-- How a recipient of a message stands, if one is known. -/
def standingAt (entries : Entries) (key : QueueKey) (x : Address) : Option Standing :=
  (entries.get? key).bind (·.standing? x)

/-- A recipient of a message stands in a new way. -/
abbrev stand (entries : Entries) (key : QueueKey) (x : Address) (s : Standing) : Entries :=
  entries.modify key (·.setStanding x s)

/-- What comes of an attempt at a recipient who waits or is new. -/
inductive OpenStep (entries : Entries) (key : QueueKey) (waiting : Option Deferral) (a : Attempt)
    (daemon : String) (line : LineRef) : Entries × List Finding → Prop where
  | putOff (hs : a.status = .deferred) :
      OpenStep entries key waiting a daemon line
        (stand entries key a.recipient (.pending (.extend waiting a daemon line)), [])
  | handedOff {child : String} (hs : a.status ≠ .deferred) (hc : a.handOff? = some child) :
      OpenStep entries key waiting a daemon line
        (handOff (stand entries key a.recipient .handedOff) key child line.time
          ((waiting.map (·.lines)).getD [] ++ [line]), [])
  | settled (hs : a.status ≠ .deferred) (hc : a.handOff? = none) :
      OpenStep entries key waiting a daemon line
        (stand entries key a.recipient .done,
          (waiting.map (summary (stand entries key a.recipient .done) key)).toList ++
            [.delivery (final (stand entries key a.recipient .done) key a daemon line)])

theorem attemptOpen_step (entries : Entries) (key : QueueKey) (waiting : Option Deferral)
    (a : Attempt) (daemon : String) (line : LineRef) :
    OpenStep entries key waiting a daemon line (attemptOpen entries key waiting a daemon line) := by
  unfold attemptOpen
  dsimp only
  split
  · rename_i hs
    exact .putOff hs
  · rename_i hs
    split
    · rename_i hc
      exact .handedOff hs hc
    · rename_i hc
      exact .settled hs hc

/-- What comes of an attempt, once the message is mentioned. -/
inductive AttemptStep (touched : Entries) (key : QueueKey) (a : Attempt) (daemon : String)
    (line : LineRef) : Entries × List Finding → Prop where
  | fresh {waiting : Option Deferral}
      (hw : standingAt touched key a.recipient = waiting.map .pending) :
      AttemptStep touched key a daemon line (attemptOpen touched key waiting a daemon line)
  | handedOff (h : standingAt touched key a.recipient = some .handedOff) :
      AttemptStep touched key a daemon line (touched, [])
  | replaced (h : standingAt touched key a.recipient = some .done) (hs : a.status ≠ .deferred)
      (hc : a.handOff? = none) :
      AttemptStep touched key a daemon line
        (touched, [.replacement (final touched key a daemon line)])
  | ignored (h : standingAt touched key a.recipient = some .done)
      (hn : a.status ≠ .deferred → a.handOff?.isSome = true) :
      AttemptStep touched key a daemon line (touched, [])

theorem attempt_step (entries : Entries) (host daemon : String) (a : Attempt) (line : LineRef) :
    AttemptStep (touch entries ⟨host, a.queue⟩ line.time id) ⟨host, a.queue⟩ a daemon line
      (attempt entries host daemon a line) := by
  unfold attempt
  dsimp only
  generalize touch entries ⟨host, a.queue⟩ line.time id = touched
  split
  · rename_i h
    exact .fresh h
  · rename_i d h
    exact .fresh h
  · rename_i h
    exact .handedOff h
  · rename_i h
    rw [Status.isFinal]
    split
    · rename_i hfinal
      rw [Bool.and_eq_true, bne_iff_ne, Option.isNone_iff_eq_none] at hfinal
      exact .replaced h hfinal.1 hfinal.2
    · rename_i hfinal
      refine .ignored h fun hs => ?_
      rw [Bool.and_eq_true, bne_iff_ne, not_and] at hfinal
      rw [← Option.not_isNone, Bool.not_eq_true']
      exact Bool.eq_false_iff.2 (hfinal hs)

/-! ## Records -/

/-- A change of a message that leaves its lines, its recipients, its links and its last activity
alone, and does not take it out of its queue. -/
structure Plain (f : Entry → Entry) : Prop where
  lastActivity : ∀ e, (f e).lastActivity = e.lastActivity := by intro; rfl
  lines : ∀ e, (f e).lines = e.lines := by intro; rfl
  recipients : ∀ e, (f e).recipients = e.recipients := by intro; rfl
  parent : ∀ e, (f e).parent = e.parent := by intro; rfl
  children : ∀ e, (f e).children = e.children := by intro; rfl
  removed : ∀ e, (f e).removed = e.removed := by intro; rfl

/-- A record is one of a message, of which it tells something. -/
def note (entries : Entries) (r : Record) (queue : String) (f : Entry → Entry) : Entries :=
  touch entries ⟨r.header.host, queue⟩ r.time fun e => (f e).addLine r.ref

/-- What comes of a record. -/
inductive TakeStep (entries : Entries) (r : Record) : Entries × List Finding → Prop where
  | note {queue : String} {f : Entry → Entry} (hf : Plain f) :
      TakeStep entries r (note entries r queue f, [])
  | noteBoth {queue child : String} {f g : Entry → Entry} (hf : Plain f) (hg : Plain g) :
      TakeStep entries r (Tracker.note (Tracker.note entries r queue f) r child g, [])
  | attempt {a : Attempt} (h : r.payload = .attempt a) :
      TakeStep entries r (attempt entries r.header.host r.header.daemonName a r.ref)
  | expired {e : MessageExpired} (h : r.payload = .expired e) :
      TakeStep entries r (expire entries ⟨r.header.host, e.queue⟩ r.ref)
  | removed {queue : String} (h : r.payload = .removed queue) :
      TakeStep entries r (remove entries ⟨r.header.host, queue⟩ r.time)
  | rejected {queue text : String} (h : r.payload = .milterRejected queue text) :
      TakeStep entries r (entries.erase ⟨r.header.host, queue⟩, [])
  | relayed {b : RelayedBounce} (h : r.payload = .relayedBounce b) :
      TakeStep entries r (entries, [.relayedBounce (b.report r.ref)])
  | nothing : TakeStep entries r (entries, [])

theorem plain_id : Plain id := {}

theorem take_step (entries : Entries) (r : Record) : TakeStep entries r (take entries r) := by
  unfold take
  dsimp only
  split
  case h_1 => exact .note {}
  case h_2 => exact .note {}
  case h_3 => constructor; constructor <;> intro e <;> split <;> rfl
  case h_4 => exact .note {}
  case h_5 => exact .noteBoth plain_id {}
  case h_6 h => exact .attempt h
  case h_7 h => exact .expired h
  case h_8 h => exact .removed h
  case h_9 h => exact .rejected h
  case h_10 h => exact .relayed h
  all_goals exact .nothing

/-! ## Runs -/

namespace State

/-- A record does what it tells of, and silent messages may be closed after that. -/
theorem handle_cases (settings : Settings) (s : State) (r : Record) :
    ((s.handle settings r).1.entries = (take s.entries r).1 ∧
        (s.handle settings r).2 = (take s.entries r).2) ∨
      ((s.handle settings r).1.entries =
          (prune settings.idleTimeout r.time (take s.entries r).1).1 ∧
        (s.handle settings r).2 = (take s.entries r).2 ++
          (prune settings.idleTimeout r.time (take s.entries r).1).2) := by
  simp only [handle, pruneIfDue]
  split
  · exact .inl ⟨rfl, List.append_nil _⟩
  · exact .inr ⟨rfl, rfl⟩

theorem run_append (settings : Settings) (s : State) (before rs : List Record) :
    s.run settings (before ++ rs) =
      (((s.run settings before).1.run settings rs).1,
        (s.run settings before).2 ++ ((s.run settings before).1.run settings rs).2) := by
  induction before generalizing s with
  | nil => rfl
  | cons r before ih =>
    simp only [List.cons_append, run]
    rw [ih]
    simp [List.append_assoc]

theorem run_concat (settings : Settings) (s : State) (rs : List Record) (r : Record) :
    s.run settings (rs ++ [r]) =
      (((s.run settings rs).1.handle settings r).1,
        (s.run settings rs).2 ++ ((s.run settings rs).1.handle settings r).2) := by
  rw [run_append]
  simp [run]

/-- What every record keeps, a run keeps. -/
theorem run_induction {settings : Settings} {I : State → Prop} {s : State} {rs : List Record}
    (h : I s) (hstep : ∀ s r, r ∈ rs → I s → I (s.handle settings r).1) :
    I (s.run settings rs).1 := by
  induction rs generalizing s with
  | nil => exact h
  | cons r rs ih =>
    exact ih (hstep s r List.mem_cons_self h) fun s r hr => hstep s r (List.mem_cons_of_mem _ hr)

/-- A finding of a run is one of a record of it. -/
theorem mem_run {settings : Settings} {s : State} {rs : List Record} {f : Finding} :
    f ∈ (s.run settings rs).2 ↔
      ∃ before r rest, rs = before ++ r :: rest ∧
        f ∈ ((s.run settings before).1.handle settings r).2 := by
  induction rs generalizing s with
  | nil => simp [run]
  | cons r rs ih =>
    simp only [run, List.mem_append, ih]
    constructor
    · rintro (hf | ⟨before, r', rest, rfl, hf⟩)
      · exact ⟨[], r, rs, rfl, hf⟩
      · exact ⟨r :: before, r', rest, rfl, hf⟩
    · rintro ⟨before, r', rest, he, hf⟩
      cases before with
      | nil =>
        obtain ⟨rfl, -⟩ := List.cons.inj he
        exact .inl hf
      | cons b before =>
        obtain ⟨rfl, rfl⟩ := List.cons.inj he
        exact .inr ⟨before, r', rest, rfl, hf⟩

end State

end MailTrace.Tracker
