import MailTrace.Proofs.Tracker.Emission
import MailTrace.Proofs.Tracker.Lineage
import MailTrace.Tracker.Closing

/-!
# Closing messages one after the other

Silent messages are closed in a loop, and so is what is open at the end. Every step changes what the
later ones find: recipients no longer wait, a message is gone, another one counts one fewer. Still the
order of the steps makes no difference.

1. What is told of a message depends neither on how recipients stand nor on counts
   (`delivery_eq_of_bare`), so settling one message leaves what is told of the others alone
   (`settleEach_eq`).
2. Closing messages one after the other takes from each one that stays as many as were handed on from
   it, whether these are closed before others or after them (`foldl_closeOne`).
3. Hence both loops come to what `State.pruneIfDue` and `State.closeAll` come to, up to the order of
   messages (`sameClosing_pruneEach`, `sameClosing_closeEach`).
-/

namespace MailTrace.Tracker

open MailTrace.Time

/-! ## What is told of a message -/

/-- A message without what no delivery tells of: its recipients and how many were handed on from it. -/
def Entry.bare (e : Entry) : Entry := { e with recipients := .empty, children := 0 }

section Bare

variable {entries entries' : Entries} {key q : QueueKey}

theorem bind_of_bare {α : Type} {o o' : Option Entry} (h : o'.map Entry.bare = o.map Entry.bare)
    {f : Entry → Option α} (hf : ∀ e, f e.bare = f e) : o'.bind f = o.bind f := by
  have hbare : ∀ o : Option Entry, o.bind f = (o.map Entry.bare).bind f := fun o => by
    cases o with
    | none => rfl
    | some e => exact (hf e).symm
  rw [hbare o', hbare o, h]

theorem map_of_bare {α : Type} {o o' : Option Entry} (h : o'.map Entry.bare = o.map Entry.bare)
    {f : Entry → α} (hf : ∀ e, f e.bare = f e) : o'.map f = o.map f := by
  rw [Option.map_eq_bind, Option.map_eq_bind]
  exact bind_of_bare h fun e => congrArg some (hf e)

theorem climb_of_bare (h : ∀ k, (entries'.get? k).map Entry.bare = (entries.get? k).map Entry.bare)
    (n : Nat) (found : List QueueKey) (key : QueueKey) :
    climb entries' n found key = climb entries n found key := by
  induction n generalizing found key with
  | zero => rfl
  | succ n ih =>
    have hparent := map_of_bare (h key) (f := (·.parent)) fun _ => rfl
    rw [climb, climb]
    cases he : entries.get? key with
    | none =>
      rw [he] at hparent
      rw [Option.map_eq_none_iff.1 hparent]
    | some e =>
      rw [he] at hparent
      obtain ⟨e', he', hp⟩ := Option.map_eq_some_iff.1 hparent
      have hp : e'.parent = e.parent := hp
      rw [he']
      dsimp only
      split
      · rfl
      · rw [hp]
        cases e.parent with
        | none => rfl
        | some p => exact ih (key :: found) p

/-- The same chain of messages, each of which is known for the same, gives the same deliveries. -/
theorem delivery_of_chain (hchain : chain entries' key = chain entries key)
    (h : ∀ k ∈ chain entries key,
      (entries'.get? k).map Entry.bare = (entries.get? k).map Entry.bare) :
    delivery entries' key = delivery entries key := by
  have hbare : ((chain entries key).filterMap entries'.get?).map Entry.bare =
      ((chain entries key).filterMap entries.get?).map Entry.bare := by
    rw [List.map_filterMap, List.map_filterMap]
    exact List.filterMap_congr h
  have hroot := congrArg List.head? hbare
  have hown := congrArg List.getLast? hbare
  have hlines := congrArg (List.flatMap (·.lines)) hbare
  rw [List.head?_map, List.head?_map] at hroot
  rw [List.getLast?_map, List.getLast?_map] at hown
  rw [List.flatMap_map, List.flatMap_map] at hlines
  funext a status daemon first last lines
  unfold delivery
  dsimp only
  rw [hchain]
  generalize (chain entries key).filterMap entries'.get? = ancestors' at hroot hown hlines
  generalize (chain entries key).filterMap entries.get? = ancestors at hroot hown hlines ⊢
  have hlines : ancestors'.flatMap (·.lines) = ancestors.flatMap (·.lines) := hlines
  rw [hlines, map_of_bare hroot (f := (·.firstSeen)) fun _ => rfl,
    bind_of_bare hroot (f := (·.messageId)) fun _ => rfl,
    bind_of_bare hroot (f := (·.sender)) fun _ => rfl,
    bind_of_bare hroot (f := (·.clientHost)) fun _ => rfl,
    bind_of_bare hroot (f := (·.clientIp)) fun _ => rfl,
    bind_of_bare hroot (f := (·.size)) fun _ => rfl,
    bind_of_bare hroot (f := (·.recipientCount)) fun _ => rfl,
    bind_of_bare hown (f := (·.originQueue)) fun _ => rfl,
    bind_of_bare hown (f := (·.messageId)) fun _ => rfl,
    bind_of_bare hown (f := (·.sender)) fun _ => rfl]

theorem delivery_eq_of_bare
    (h : ∀ k, (entries'.get? k).map Entry.bare = (entries.get? k).map Entry.bare) (key : QueueKey) :
    delivery entries' key = delivery entries key :=
  delivery_of_chain (climb_of_bare h maxDepth [] key) fun k _ => h k

theorem summary_eq_of_bare
    (h : ∀ k, (entries'.get? k).map Entry.bare = (entries.get? k).map Entry.bare) (key : QueueKey) :
    summary entries' key = summary entries key := by
  funext d
  unfold summary
  rw [delivery_eq_of_bare h]

end Bare

/-! ## Settling -/

section Settle

variable {entries : Entries} {key k : QueueKey} {keys : List QueueKey}

theorem bare_settle (entries : Entries) (key k : QueueKey) :
    ((entries.modify key (·.settle)).get? k).map Entry.bare = (entries.get? k).map Entry.bare := by
  rw [Table.get?_modify]
  split
  · rw [Option.map_map]
    rfl
  · rfl

theorem settleOne_eq (entries : Entries) (key : QueueKey) :
    settleOne entries key = (entries.modify key (·.settle), flush entries key) := by
  rw [settleOne, flush, summary_eq_of_bare (bare_settle entries key)]

theorem flush_settle_of_ne (h : k ≠ key) :
    flush (entries.modify key (·.settle)) k = flush entries k := by
  rw [flush, flush, summary_eq_of_bare (bare_settle entries key), Table.get?_modify, if_neg h]

/-- Settling messages one after the other tells of each what is told of it alone. -/
theorem settleEach_eq (h : keys.Nodup) :
    settleEach entries keys =
      (entries.map fun k e => if k ∈ keys then e.settle else e, keys.flatMap (flush entries)) := by
  induction keys generalizing entries with
  | nil =>
    have hsame : (entries.map fun k e => if k ∈ ([] : List QueueKey) then e.settle else e) = entries :=
      Table.map_eq_self fun _ _ => if_neg List.not_mem_nil
    rw [settleEach, hsame, List.flatMap_nil]
  | cons key keys ih =>
    obtain ⟨hkey, hkeys⟩ := List.nodup_cons.1 h
    have hothers : keys.flatMap (flush (entries.modify key (·.settle))) =
        keys.flatMap (flush entries) :=
      List.flatMap_congr fun k hk => flush_settle_of_ne fun e => hkey (e ▸ hk)
    rw [settleEach, settleOne_eq]
    dsimp only
    rw [ih hkeys, hothers, Table.modify, Table.map_map, List.flatMap_cons]
    dsimp only
    refine congrArg₂ Prod.mk (Table.map_congr fun r _ => ?_) rfl
    by_cases hr : r.1 = key
    · simp [hr, hkey]
    · simp [hr]

end Settle

/-! ## Closing -/

section Close

variable {entries : Entries} {key k : QueueKey} {keys : List QueueKey}

/-- Closing one message leaves the others, and lets one of them count one fewer. -/
theorem closeOne_eq (entries : Entries) (key : QueueKey) :
    closeOne entries key = (entries.only fun k => k ≠ key).map fun k e =>
      e.dropChildren (if parentAt entries key = some k then 1 else 0) := by
  have hrest : entries.erase key = entries.only fun k => k ≠ key := rfl
  unfold closeOne parentAt
  dsimp only
  rw [hrest]
  cases (entries.get? key).bind (·.parent) with
  | none => exact (Table.map_eq_self fun _ _ => rfl).symm
  | some p =>
    refine Table.map_congr fun r _ => ?_
    by_cases hr : r.1 = p
    · simp [hr]
    · simp [hr, Ne.symm hr]

theorem parentAt_closeOne_of_ne (h : k ≠ key) :
    parentAt (closeOne entries key) k = parentAt entries k := by
  have hstays : (entries.only fun k => k ≠ key).get? k = entries.get? k :=
    Table.get?_only_of_mem (decide_eq_true h)
  rw [closeOne_eq]
  unfold parentAt
  rw [Table.get?_map, hstays]
  cases entries.get? k <;> rfl

/-- Closing messages one after the other leaves the others, and each of them counts as many fewer as
were handed on from it. -/
theorem foldl_closeOne (h : keys.Nodup) :
    keys.foldl closeOne entries = (entries.only fun k => k ∉ keys).map fun k e =>
      e.dropChildren (keys.countP fun q => parentAt entries q = some k) := by
  induction keys generalizing entries with
  | nil =>
    have hall : (entries.only fun k => k ∉ ([] : List QueueKey)) = entries :=
      Table.ext_rows (List.filter_eq_self.2 fun _ _ => by simp)
    rw [hall]
    exact (Table.map_eq_self fun _ _ => rfl).symm
  | cons key keys ih =>
    obtain ⟨hkey, hkeys⟩ := List.nodup_cons.1 h
    have hparent : ∀ k, (keys.countP fun q => parentAt (closeOne entries key) q = some k) =
        keys.countP fun q => parentAt entries q = some k := fun k =>
      List.countP_congr fun q hq => by
        have hne : q ≠ key := fun e => hkey (e ▸ hq)
        rw [parentAt_closeOne_of_ne hne]
    have hrest : ((entries.only fun k => k ≠ key).only fun k => k ∉ keys) =
        entries.only fun k => k ∉ key :: keys := by
      rw [Table.only_only]
      congr 1
      funext k
      simp [Bool.and_comm]
    rw [List.foldl_cons, ih hkeys]
    simp only [hparent]
    rw [closeOne_eq, Table.only_map, hrest, Table.map_map]
    refine Table.map_congr fun r _ => ?_
    rw [dropChildren_dropChildren, List.countP_cons, Nat.add_comm]
    simp only [decide_eq_true_eq]

end Close

/-! ## What is told of one message -/

/-- A finding tells of the message under a key. -/
def Finding.isOf (key : QueueKey) (f : Finding) : Bool :=
  f.delivery?.any fun d => d.host = key.host && d.queue = key.queue

/-- What is told of the message under a key. -/
def foundOf (key : QueueKey) (found : List Finding) : List Finding := found.filter (·.isOf key)

section FoundOf

variable {entries : Entries} {key k : QueueKey} {keys : List QueueKey}

theorem isOf_summary (key : QueueKey) (entries : Entries) (k : QueueKey) (d : Deferral) :
    (summary entries k d).isOf key = decide (k = key) := by
  rw [Bool.eq_iff_iff]
  simp only [Finding.isOf, summary, Finding.delivery?, delivery, Option.any_some, Bool.and_eq_true,
    decide_eq_true_eq]
  cases key
  cases k
  simp only [QueueKey.mk.injEq]

theorem foundOf_flush (key : QueueKey) (entries : Entries) (k : QueueKey) :
    foundOf key (flush entries k) = if k = key then flush entries key else [] := by
  have hof : ∀ f ∈ flush entries k, f.isOf key = decide (k = key) := by
    intro f hf
    obtain ⟨d, -, rfl⟩ := List.mem_map.1 hf
    exact isOf_summary key entries k d
  unfold foundOf
  split
  · rename_i hk
    subst hk
    exact List.filter_eq_self.2 fun f hf => by rw [hof f hf, decide_eq_true rfl]
  · rename_i hk
    exact List.filter_eq_nil_iff.2 fun f hf => by
      rw [hof f hf, decide_eq_false hk]
      exact Bool.false_ne_true

theorem foundOf_flatMap_flush (h : keys.Nodup) :
    foundOf key (keys.flatMap (flush entries)) = if key ∈ keys then flush entries key else [] := by
  induction keys with
  | nil => rfl
  | cons k keys ih =>
    obtain ⟨hk, hkeys⟩ := List.nodup_cons.1 h
    have hrest := ih hkeys
    unfold foundOf at hrest ⊢
    rw [List.flatMap_cons, List.filter_append, hrest, ← foundOf, foundOf_flush]
    by_cases he : k = key
    · subst he
      simp [hk]
    · simp [he, Ne.symm he]

/-- What is told of a recipient is told of the message. -/
theorem about_foundOf (key : QueueKey) (x : Address) (found : List Finding) :
    about key x (foundOf key found) = about key x found := by
  unfold about foundOf
  rw [List.filter_filter]
  refine List.filter_congr fun f _ => ?_
  unfold Finding.isAbout Finding.isOf
  cases f.delivery? with
  | none => rfl
  | some d =>
    simp only [Option.any_some]
    rw [Bool.and_comm, ← Bool.and_assoc, Bool.and_self]

end FoundOf

/-! ## Any order -/

/-- Two ways of closing messages come to the same: they lead to the same state and find the same, of
every message in the same order. -/
structure SameClosing (out out' : State × List Finding) : Prop where
  state : out.1 = out'.1
  found : out.2.Perm out'.2
  each : ∀ key, foundOf key out.2 = foundOf key out'.2

theorem SameClosing.symm {out out' : State × List Finding} (h : SameClosing out out') :
    SameClosing out' out := ⟨h.state.symm, h.found.symm, fun key => (h.each key).symm⟩

theorem SameClosing.trans {out out' out'' : State × List Finding} (h : SameClosing out out')
    (h' : SameClosing out' out'') : SameClosing out out'' :=
  ⟨h.state.trans h'.state, h.found.trans h'.found, fun key => (h.each key).trans (h'.each key)⟩

/-- How many silent messages were handed on from the one under a key. -/
def silentChildren (timeout : Duration) (now : Instant) (entries : Entries) (key : QueueKey) : Nat :=
  entries.count fun _ e => e.parent = some key && isIdle timeout now e

section Order

variable {settings : Settings} {timeout : Duration} {now : Instant} {s : State} {entries : Entries}
  {key : QueueKey} {keys keys' order : List QueueKey} {e : Entry}

theorem sameClosing_of_perm (hkeys : keys.Nodup) (h : keys.Perm keys') (s : State)
    (entries : Entries) :
    SameClosing (s, keys.flatMap (flush entries)) (s, keys'.flatMap (flush entries)) where
  state := rfl
  found := h.flatMap_right _
  each key := by
    rw [foundOf_flatMap_flush hkeys, foundOf_flatMap_flush (h.nodup hkeys)]
    simp only [h.mem_iff]

/-- The silent ones among all open messages, in the order in which they are looked through. -/
theorem idle_perm (timeout : Duration) (now : Instant) (horder : order.Perm entries.keys) :
    (order.filter fun key => (entries.get? key).any (isIdle timeout now)).Perm
      ((entries.rows.filter fun r => isIdle timeout now r.2).map (·.1)) := by
  refine (horder.filter _).trans (.of_eq ?_)
  rw [Table.keys, List.filter_map]
  refine congrArg (List.map _) (List.filter_congr fun r hr => ?_)
  rw [Function.comp_apply, Table.mem_rows_iff.1 hr, Option.any_some]

theorem get?_prune (timeout : Duration) (now : Instant) (entries : Entries) (key : QueueKey) :
    (prune timeout now entries).1.get? key =
      ((entries.get? key).filter fun e => !isIdle timeout now e).map
        (·.dropChildren (silentChildren timeout now entries key)) := by
  rw [silentChildren, Table.count, ← List.countP_filter, prune, Table.get?_map, Table.get?_filter]

theorem mem_idle_iff
    (h : keys.Perm ((entries.rows.filter fun r => isIdle timeout now r.2).map (·.1)))
    (he : entries.get? key = some e) : key ∈ keys ↔ isIdle timeout now e = true := by
  rw [h.mem_iff, List.mem_map]
  constructor
  · rintro ⟨r, hr, rfl⟩
    obtain ⟨hrow, hidle⟩ := List.mem_filter.1 hr
    rw [Table.mem_rows_iff.1 hrow] at he
    exact Option.some.inj he ▸ hidle
  · exact fun hidle => ⟨(key, e), List.mem_filter.2 ⟨Table.mem_rows_iff.2 he, hidle⟩, rfl⟩

theorem parentAt_settled (entries : Entries) (keys : List QueueKey) (key : QueueKey) :
    parentAt (entries.map fun k e => if k ∈ keys then e.settle else e) key =
      parentAt entries key := by
  unfold parentAt
  rw [Table.get?_map]
  cases entries.get? key with
  | none => rfl
  | some e =>
    rw [Option.map_some, Option.bind_some, Option.bind_some]
    split <;> rfl

/-- Closing the silent messages one after the other leaves what closing them at once leaves. -/
theorem foldl_closeOne_settled
    (h : keys.Perm ((entries.rows.filter fun r => isIdle timeout now r.2).map (·.1))) :
    keys.foldl closeOne (entries.map fun k e => if k ∈ keys then e.settle else e) =
      (prune timeout now entries).1 := by
  have hkeys : keys.Nodup := h.symm.nodup (entries.nodup.sublist (List.filter_sublist.map _))
  have hcount : ∀ k, (keys.countP fun q => parentAt entries q = some k) =
      (entries.rows.filter fun r => isIdle timeout now r.2).countP fun r => r.2.parent = some k := by
    intro k
    rw [h.countP_eq, List.countP_map]
    refine List.countP_congr fun r hr => ?_
    rw [Function.comp_apply, parentAt_of_get? (Table.mem_rows_iff.1 (List.mem_filter.1 hr).1)]
  have hstay : (entries.only fun k => k ∉ keys) =
      entries.filter fun r => !isIdle timeout now r.2 := by
    refine Table.ext_rows (List.filter_congr fun r hr => ?_)
    rw [Bool.eq_iff_iff, decide_eq_true_eq, mem_idle_iff h (Table.mem_rows_iff.1 hr),
      Bool.not_eq_true', Bool.not_eq_true]
  rw [foldl_closeOne hkeys, prune]
  dsimp only
  simp only [parentAt_settled, hcount]
  rw [Table.only_map, Table.map_map, ← hstay]
  refine Table.map_congr fun r hr => ?_
  have hnot : decide (r.1 ∉ keys) = true := Table.of_mem_only hr
  rw [if_neg (of_decide_eq_true hnot)]

/-- Looking through the open messages in any order comes to what `State.pruneIfDue` comes to. -/
theorem sameClosing_pruneEach (settings : Settings) (now : Instant)
    (horder : order.Perm s.entries.keys) :
    SameClosing (s.pruneEach settings now order) (s.pruneIfDue settings now) := by
  have hidle := idle_perm settings.idleTimeout now horder
  have hkeys := hidle.symm.nodup (s.entries.nodup.sublist (List.filter_sublist.map _))
  unfold State.pruneEach State.pruneIfDue
  dsimp only
  split
  · exact ⟨rfl, .refl _, fun _ => rfl⟩
  · rw [settleEach_eq hkeys]
    dsimp only
    rw [foldl_closeOne_settled hidle]
    have hfound : (prune settings.idleTimeout now s.entries).2 =
        ((s.entries.rows.filter fun r => isIdle settings.idleTimeout now r.2).map (·.1)).flatMap
          (flush s.entries) := (List.flatMap_map ..).symm
    rw [hfound]
    exact sameClosing_of_perm hkeys hidle _ _

theorem sameClosing_closeEach (horder : order.Perm s.entries.keys) :
    SameClosing (s.closeEach order) s.closeAll := by
  have hkeys : order.Nodup := horder.symm.nodup s.entries.nodup
  unfold State.closeEach State.closeAll
  rw [settleEach_eq hkeys]
  exact sameClosing_of_perm hkeys horder _ _

/-- What is left and told when silent messages were closed: none that was silent is open; each of them
was told of as it was found; the others are as they were, except that they count fewer. -/
structure Swept (timeout : Duration) (now : Instant) (before after : Entries)
    (found : List Finding) : Prop where
  active : ∀ key e, after.get? key = some e → isIdle timeout now e = false
  silent : ∀ key e, before.get? key = some e → isIdle timeout now e = true →
    after.get? key = none ∧ foundOf key found = e.pending.map (summary before key)
  stays : ∀ key e, before.get? key = some e → isIdle timeout now e = false →
    after.get? key = some (e.dropChildren (silentChildren timeout now before key)) ∧
      foundOf key found = []
  closed : ∀ key, before.get? key = none → after.get? key = none ∧ foundOf key found = []

theorem swept_prune (timeout : Duration) (now : Instant) (entries : Entries) :
    Swept timeout now entries (prune timeout now entries).1 (prune timeout now entries).2 := by
  have hfound (key : QueueKey) : foundOf key (prune timeout now entries).2 =
      if key ∈ (entries.rows.filter fun r => isIdle timeout now r.2).map (·.1) then
        flush entries key
      else [] := by
    rw [← foundOf_flatMap_flush (entries.nodup.sublist (List.filter_sublist.map _)),
      List.flatMap_map]
    rfl
  constructor
  · intro key e he
    rw [get?_prune] at he
    obtain ⟨e', he', rfl⟩ := Option.map_eq_some_iff.1 he
    exact Bool.not_eq_true' _ ▸ (Option.filter_eq_some_iff.1 he').2
  · intro key e he hidle
    rw [get?_prune, hfound, if_pos ((mem_idle_iff (.refl _) he).2 hidle), flush, he]
    exact ⟨by simp [Option.filter, hidle], rfl⟩
  · intro key e he hactive
    have hnot : ¬ isIdle timeout now e = true := by rw [hactive]; exact Bool.false_ne_true
    rw [get?_prune, hfound, if_neg (mt (mem_idle_iff (.refl _) he).1 hnot), he]
    exact ⟨by simp [Option.filter, hactive], rfl⟩
  · intro key he
    rw [get?_prune, hfound, flush, he]
    exact ⟨rfl, ite_self []⟩

theorem Swept.congr {before after : Entries} {found found' : List Finding}
    (h : Swept timeout now before after found) (hfound : ∀ key, foundOf key found' = foundOf key found) :
    Swept timeout now before after found' where
  active := h.active
  silent key e he hidle := hfound key ▸ h.silent key e he hidle
  stays key e he hactive := hfound key ▸ h.stays key e he hactive
  closed key he := hfound key ▸ h.closed key he

/-- A state in which silent messages are looked for or all messages are closed: after some records, or
in the midst of one. -/
def State.Reached (settings : Settings) (s : State) : Prop :=
  ∃ rs, s = (State.empty.run settings rs).1 ∨
    ∃ r, s = { (State.empty.run settings rs).1 with
      entries := (take (State.empty.run settings rs).1.entries r).1 }

theorem State.Reached.sorted (h : s.Reached settings) : Sorted s := by
  obtain ⟨rs, rfl | ⟨r, rfl⟩⟩ := h
  · exact sorted_run settings rs
  · exact AllKept.take (sorted_run settings rs) trivial

/-- Of a recipient who waits one delivery is told when the silence of the message ends it. -/
theorem Swept.about_eq {after : Entries} {found : List Finding}
    (h : Swept timeout now s.entries after found) (hs : Sorted s) (he : s.entries.get? key = some e)
    (hidle : isIdle timeout now e = true) {x : Address} {d : Deferral}
    (hx : e.standing? x = some (.pending d)) : about key x found = [summary s.entries key d] := by
  have hwaits : deferralAt s.entries key x = some d :=
    deferralAt_eq_some_iff.2 (by rw [standingAt, he, Option.bind_some, hx])
  have hflush : foundOf key found = flush s.entries key := by
    rw [(h.silent key e he hidle).2, flush, he]
    rfl
  rw [← about_foundOf, hflush, about_flush hs, if_pos rfl, hwaits]
  rfl

end Order

/-- **The order of closing makes no difference.** In whatever orders the open messages are looked through,
closing the silent ones after a record and closing all come to the same states and find the same, of
every message in the same order, and they come to what is done when all are closed at once. When silent
messages are closed, none of them stays, each of their recipients who waits is reported as put off
exactly once, as the messages were known before, and all other messages stay as they were and only
count fewer. -/
theorem closing_in_any_order (settings : Settings) (now : Instant) (s : State)
    {order order' : List QueueKey} (h : order.Perm s.entries.keys) (h' : order'.Perm s.entries.keys) :
    SameClosing (s.pruneEach settings now order) (s.pruneEach settings now order') ∧
      SameClosing (s.closeEach order) (s.closeEach order') ∧
      SameClosing (s.pruneEach settings now order) (s.pruneIfDue settings now) ∧
      SameClosing (s.closeEach order) s.closeAll ∧
      ((settings.pruneInterval : Int) ≤ now - s.lastPrune.getD now →
        let out := s.pruneEach settings now order
        Swept settings.idleTimeout now s.entries out.1.entries out.2 ∧
          (s.Reached settings → ∀ key e x d, s.entries.get? key = some e →
            isIdle settings.idleTimeout now e = true → e.standing? x = some (.pending d) →
            about key x out.2 = [summary s.entries key d])) := by
  have hprune := sameClosing_pruneEach settings now h
  have hclose := sameClosing_closeEach h
  refine ⟨hprune.trans (sameClosing_pruneEach settings now h').symm,
    hclose.trans (sameClosing_closeEach h').symm, hprune, hclose, fun hdue => ?_⟩
  have hdone : s.pruneIfDue settings now =
      (⟨(prune settings.idleTimeout now s.entries).1, some now⟩,
        (prune settings.idleTimeout now s.entries).2) := by
    unfold State.pruneIfDue
    exact if_neg (Int.not_lt.2 hdue)
  have hswept : Swept settings.idleTimeout now s.entries
      (s.pruneEach settings now order).1.entries (s.pruneEach settings now order).2 := by
    have hat := swept_prune settings.idleTimeout now s.entries
    rw [hprune.state, hdone]
    exact hat.congr fun key => by rw [hprune.each key, hdone]
  exact ⟨hswept, fun hreached key e x d he hidle hx => hswept.about_eq hreached.sorted he hidle hx⟩

/-- An attempt that is put off, for a user at a message in a queue. -/
def putOffIn (second : Int) (queue user : String) : Record :=
  recordIn second <| .attempt
    { queue, recipient := ⟨user, "example.com"⟩, origRecipient := none, relay := .none
      delay := default, delays := default, dsn := "", status := .deferred, extraMessage := ""
      requeued := none }

/-- A message goes on from the queue A in the queue B, and in both a recipient waits. -/
def bothWait : List Record :=
  [recordIn 1 (sentTo "A" (some ⟨250, "2.0.0", .v4 127 0 0 1, 25, "B"⟩)), putOffIn 2 "A" "other",
    putOffIn 3 "B" "user"]

/-- Both messages are silent for more than a day, and each can be closed first. -/
theorem closing_in_any_order_bothWait :
    let s := (State.empty.run .default bothWait).1
    [⟨"", "A"⟩, ⟨"", "B"⟩].Perm s.entries.keys ∧ [⟨"", "B"⟩, ⟨"", "A"⟩].Perm s.entries.keys ∧
      SameClosing (s.pruneEach .default (.ofSecond 90000) [⟨"", "A"⟩, ⟨"", "B"⟩])
        (s.pruneEach .default (.ofSecond 90000) [⟨"", "B"⟩, ⟨"", "A"⟩]) ∧
      (s.pruneEach .default (.ofSecond 90000) [⟨"", "B"⟩, ⟨"", "A"⟩]).1.entries.size = 0 ∧
      ∃ d, s.entries.get? ⟨"", "B"⟩ ≠ none ∧
        about ⟨"", "B"⟩ ⟨"user", "example.com"⟩
          (s.pruneEach .default (.ofSecond 90000) [⟨"", "A"⟩, ⟨"", "B"⟩]).2 =
            [summary s.entries ⟨"", "B"⟩ d] := by
  intro s
  have horder : [⟨"", "A"⟩, ⟨"", "B"⟩].Perm s.entries.keys := by decide
  have horder' : [⟨"", "B"⟩, ⟨"", "A"⟩].Perm s.entries.keys := by decide
  obtain ⟨hprune, -, -, -, hswept⟩ :=
    closing_in_any_order .default (.ofSecond 90000) s horder horder'
  have hreached : s.Reached .default := ⟨bothWait, .inl rfl⟩
  have htold := (hswept (by decide)).2 hreached
  refine ⟨horder, horder', hprune, by decide, ?_⟩
  exact ⟨_, by decide, htold ⟨"", "B"⟩ _ ⟨"user", "example.com"⟩ _ rfl (by decide) rfl⟩

end MailTrace.Tracker
