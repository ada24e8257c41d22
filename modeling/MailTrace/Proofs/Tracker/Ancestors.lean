import Mathlib.Data.List.Chain
import MailTrace.Proofs.Tracker.Silence

/-!
# The way up, whatever the links are

Nothing keeps the links between messages in order. Two messages that are handed on to each other's
queue go round in a circle, a link may lead to a message that is closed by now, and there may be any
number of links one after the other. For all open messages and all links between them:

1. The chain of a message consists of different open messages, each handed on from the one before it,
   down to that message. It is cut at sixteen, and else ends only where the way up does
   (`ancestry_chain`).
2. Messages that left their queue are closed along the way up, at most sixteen. None of them is waited
   for at the moment when it is closed (`ClosableInTurn`), and of the others only the one after the last
   of them changes, in its count (`get?_foldl_closeOne`).
-/

namespace MailTrace.Tracker

variable {entries : Entries} {key p k : QueueKey} {found keys path : List QueueKey} {n : Nat}

/-! ## Chains -/

/-- Different open messages, each handed on from the one before it. -/
structure Lineal (entries : Entries) (keys : List QueueKey) : Prop where
  nodup : keys.Nodup
  is_open : ∀ k ∈ keys, entries.contains k = true
  linked : keys.IsChain fun p k => parentAt entries k = some p

/-- What is above a message, the message itself at last. It is cut at sixteen, and else ends only where the
way up does. -/
structure Ancestry (entries : Entries) (key : QueueKey) (keys : List QueueKey) : Prop
    extends Lineal entries keys where
  eq_nil_iff : keys = [] ↔ entries.contains key = false
  getLast?_eq : entries.contains key = true → keys.getLast? = some key
  length_le : keys.length ≤ 16
  stops : keys.length < 16 → ∀ root, keys.head? = some root → ∀ p,
    parentAt entries root = some p → entries.contains p = false ∨ p ∈ keys

theorem Lineal.nil : Lineal entries [] := ⟨List.nodup_nil, by simp, .nil⟩

/-- The message that the first one was handed on from comes before it. -/
theorem Lineal.cons (h : Lineal entries found) (hopen : entries.contains key = true)
    (hnew : key ∉ found) (hlink : ∀ c ∈ found.head?, parentAt entries c = some key) :
    Lineal entries (key :: found) where
  nodup := List.nodup_cons.2 ⟨hnew, h.nodup⟩
  is_open := List.forall_mem_cons.2 ⟨hopen, h.is_open⟩
  linked := List.isChain_cons.2 ⟨hlink, h.linked⟩

theorem Lineal.climb (h : Lineal entries found)
    (hlink : ∀ c ∈ found.head?, parentAt entries c = some key) :
    Lineal entries (climb entries n found key) := by
  induction n generalizing found key with
  | zero => exact h
  | succ n ih =>
    cases he : entries.get? key with
    | none => rwa [climb_of_closed (Table.contains_eq_false_iff.2 he)]
    | some e =>
      by_cases hmem : key ∈ found
      · rwa [climb_of_mem hmem]
      · have hcons := h.cons (Table.contains_iff.2 ⟨e, he⟩) hmem hlink
        rw [climb_succ he hmem]
        cases hp : e.parent with
        | none => exact hcons
        | some p =>
          refine ih hcons fun c hc => ?_
          obtain rfl : key = c := by simpa using hc
          rw [parentAt_of_get? he, hp]

theorem length_climb_le (entries : Entries) (n : Nat) (found : List QueueKey) (key : QueueKey) :
    (climb entries n found key).length ≤ n + found.length := by
  induction n generalizing found key with
  | zero => exact Nat.le_add_left ..
  | succ n ih =>
    cases he : entries.get? key with
    | none =>
      rw [climb_of_closed (Table.contains_eq_false_iff.2 he)]
      exact Nat.le_add_left ..
    | some e =>
      by_cases hmem : key ∈ found
      · rw [climb_of_mem hmem]
        exact Nat.le_add_left ..
      · rw [climb_succ he hmem]
        cases hp : e.parent with
        | none =>
          rw [List.length_cons]
          omega
        | some p =>
          have hle := ih (key :: found) p
          rw [List.length_cons] at hle
          dsimp only
          omega

/-- Climbing that does not come to its limit ends where the way up does. -/
theorem stops_climb (hlink : ∀ c ∈ found.head?, parentAt entries c = some key)
    (hlt : (climb entries n found key).length < n + found.length) {root : QueueKey}
    (hroot : (climb entries n found key).head? = some root) (hp : parentAt entries root = some p) :
    entries.contains p = false ∨ p ∈ climb entries n found key := by
  induction n generalizing found key with
  | zero => exact absurd hlt (by simp [climb])
  | succ n ih =>
    cases he : entries.get? key with
    | none =>
      have hclosed := Table.contains_eq_false_iff.2 he
      rw [climb_of_closed hclosed] at hroot
      obtain rfl : key = p := Option.some.inj ((hlink root hroot).symm.trans hp)
      exact .inl hclosed
    | some e =>
      by_cases hmem : key ∈ found
      · rw [climb_of_mem hmem] at hroot ⊢
        obtain rfl : key = p := Option.some.inj ((hlink root hroot).symm.trans hp)
        exact .inr hmem
      · rw [climb_succ he hmem] at hroot hlt ⊢
        cases hparent : e.parent with
        | none =>
          rw [hparent] at hroot
          obtain rfl : key = root := by simpa using hroot
          rw [parentAt_of_get? he, hparent] at hp
          cases hp
        | some q =>
          rw [hparent] at hroot hlt
          refine ih (fun c hc => ?_) ?_ hroot
          · obtain rfl : key = c := by simpa using hc
            rw [parentAt_of_get? he, hparent]
          · rw [List.length_cons]
            dsimp only at hlt
            omega

/-- The chain of an open message ends with it. -/
theorem chain_eq_concat (hopen : entries.contains key = true) :
    ∃ above, chain entries key = above ++ [key] := by
  obtain ⟨e, he⟩ := Table.contains_iff.1 hopen
  rw [chain, maxDepth, climb_succ he List.not_mem_nil]
  cases e.parent with
  | none => exact ⟨[], rfl⟩
  | some p =>
    obtain ⟨above, habove, -⟩ := climb_eq_rtakeWhile (.refl entries) _ [key] p
    exact ⟨above, habove⟩

theorem ancestry_chain (entries : Entries) (key : QueueKey) :
    Ancestry entries key (chain entries key) where
  toLineal := Lineal.nil.climb fun _ hc => nomatch hc
  eq_nil_iff := by
    refine ⟨fun hnil => ?_, fun hclosed => climb_of_closed hclosed maxDepth []⟩
    refine Bool.eq_false_iff.2 fun hopen => ?_
    obtain ⟨above, habove⟩ := chain_eq_concat hopen
    simp [habove] at hnil
  getLast?_eq hopen := by
    obtain ⟨above, habove⟩ := chain_eq_concat hopen
    rw [habove, List.getLast?_concat]
  length_le := length_climb_le entries maxDepth [] key
  stops hlt _ hroot _ hp := stops_climb (fun _ hc => nomatch hc) hlt hroot hp

/-! ## Closing along the way up -/

/-- A message left its queue, and none that was handed on from it is waited for. -/
def Closable (entries : Entries) (key : QueueKey) : Prop :=
  ∃ e, entries.get? key = some e ∧ e.removed = true ∧ e.children = 0

/-- Messages can be closed one after the other, each when the ones before it are. -/
def ClosableInTurn : Entries → List QueueKey → Prop
  | _, [] => True
  | entries, key :: keys => Closable entries key ∧ ClosableInTurn (closeOne entries key) keys

/-- The message that comes after some on the way up from one: that one itself before there are any, and
else what the last of them was handed on from. -/
def nextUp (entries : Entries) (key : QueueKey) (path : List QueueKey) : Option QueueKey :=
  match path.getLast? with
  | none => some key
  | some last => parentAt entries last

/-- Different messages on the way up from one, that message first, are closed one after the other. It
ends before the limit only at one that cannot be closed. -/
structure Released (limit : Nat) (entries : Entries) (key : QueueKey) (path : List QueueKey)
    (out : Entries) : Prop where
  length_le : path.length ≤ limit
  head?_eq : ∀ k ∈ path.head?, k = key
  nodup : path.Nodup
  linked : path.IsChain fun k p => parentAt entries k = some p
  in_turn : ClosableInTurn entries path
  out_eq : out = path.foldl closeOne entries
  stops : path.length < limit → ∀ p, nextUp entries key path = some p → ¬ Closable out p

theorem Closable.contains (h : Closable entries key) : entries.contains key = true := by
  obtain ⟨e, he, -⟩ := h
  exact Table.contains_iff.2 ⟨e, he⟩

theorem contains_closeOne_self (entries : Entries) (key : QueueKey) :
    (closeOne entries key).contains key = false := by
  have hgone : (entries.only fun k => k ≠ key).get? key = none :=
    Table.get?_only_of_not_mem (by simp)
  rw [Table.contains_eq_false_iff, closeOne_eq, Table.get?_map, hgone]
  rfl

theorem shrunk_closeOne (entries : Entries) (key : QueueKey) :
    Shrunk entries (closeOne entries key) := by
  unfold closeOne
  dsimp only
  split
  · exact (shrunk_erase entries key).trans (shrunk_modify_dropChildren _ _ 1)
  · exact shrunk_erase entries key

/-- What can be closed in turn is open. -/
theorem ClosableInTurn.contains (h : ClosableInTurn entries keys) :
    ∀ k ∈ keys, entries.contains k = true := by
  induction keys generalizing entries with
  | nil => simp
  | cons key keys ih =>
    refine List.forall_mem_cons.2 ⟨h.1.contains, fun k hk => ?_⟩
    have hlater := ih h.2 k hk
    by_contra hclosed
    rw [(shrunk_closeOne entries key).contains (Bool.eq_false_iff.2 hclosed)] at hlater
    cases hlater

/-- What is closed later is another message. -/
theorem ClosableInTurn.ne (h : ClosableInTurn (closeOne entries key) keys) :
    ∀ k ∈ keys, k ≠ key := by
  rintro k hk rfl
  have hopen := h.contains k hk
  rw [contains_closeOne_self] at hopen
  cases hopen

/-! ### One message -/

theorem release_of_not_closable (h : ¬ Closable entries key) (n : Nat) :
    release n entries key = entries := by
  cases n with
  | zero => rfl
  | succ n =>
    rw [release]
    cases he : entries.get? key with
    | none => rfl
    | some e =>
      refine if_pos ?_
      by_contra hclosable
      refine h ⟨e, he, ?_⟩
      simpa using hclosable

theorem release_of_closable (h : Closable entries key) (n : Nat) :
    release (n + 1) entries key =
      match parentAt entries key with
      | none => closeOne entries key
      | some p => release n (closeOne entries key) p := by
  obtain ⟨e, he, hleft, hnone⟩ := h
  have hparent := parentAt_of_get? he
  rw [release, he]
  dsimp only
  rw [if_neg (by simp [hleft, hnone]), closeOne, he, Option.bind_some, hparent]
  cases e.parent with
  | none => rfl
  | some p =>
    dsimp only
    split
    · rfl
    · rename_i hclosed
      have hgone : (entries.erase key).get? p = none :=
        Table.contains_eq_false_iff.1 (Bool.eq_false_iff.2 hclosed)
      rw [Table.modify_eq_self hgone, release_of_not_closable]
      rintro ⟨e', he', -⟩
      rw [hgone] at he'
      cases he'

/-! ### All messages -/

/-- The way up is the same without the messages that are closed. -/
theorem nextUp_cons (hp : parentAt entries key = some p) (hne : ∀ k ∈ path, k ≠ key) :
    nextUp entries key (key :: path) = nextUp (closeOne entries key) p path := by
  cases hlast : path.getLast? with
  | none =>
    rw [List.getLast?_eq_none_iff.1 hlast]
    exact hp
  | some last =>
    have hbelow : (key :: path).getLast? = some last := by
      rw [List.getLast?_cons, hlast]
      rfl
    unfold nextUp
    rw [hlast, hbelow]
    exact (parentAt_closeOne_of_ne (hne last (List.mem_of_getLast? hlast))).symm

/-- A message is closed, and then those above it. -/
theorem Released.cons (hkey : Closable entries key) (hp : parentAt entries key = some p)
    {out : Entries} (h : Released n (closeOne entries key) p path out) :
    Released (n + 1) entries key (key :: path) out where
  length_le := Nat.succ_le_succ h.length_le
  head?_eq k hk := (Option.some.inj hk).symm
  nodup := List.nodup_cons.2 ⟨fun hmem => h.in_turn.ne key hmem rfl, h.nodup⟩
  linked := by
    refine List.isChain_cons.2 ⟨fun k hk => h.head?_eq k hk ▸ hp, ?_⟩
    refine h.linked.imp_of_mem_imp fun k q hk _ hlink => ?_
    rwa [parentAt_closeOne_of_ne (h.in_turn.ne k hk)] at hlink
  in_turn := ⟨hkey, h.in_turn⟩
  out_eq := h.out_eq
  stops hlt q hq := by
    rw [nextUp_cons hp h.in_turn.ne] at hq
    exact h.stops (Nat.lt_of_succ_lt_succ hlt) q hq

theorem exists_released (n : Nat) (entries : Entries) (key : QueueKey) :
    ∃ path, Released n entries key path (release n entries key) := by
  induction n generalizing entries key with
  | zero =>
    exact ⟨[], Nat.le_refl 0, by simp, .nil, .nil, trivial, rfl, fun hlt => absurd hlt (by simp)⟩
  | succ n ih =>
    by_cases hkey : Closable entries key
    · rw [release_of_closable hkey]
      cases hp : parentAt entries key with
      | none =>
        refine ⟨[key], by simp, by simp, by simp, .singleton key, ⟨hkey, trivial⟩, rfl, ?_⟩
        intro _ q hq
        exact absurd (hp.symm.trans hq) (by simp)
      | some p =>
        obtain ⟨path, hpath⟩ := ih (closeOne entries key) p
        exact ⟨key :: path, hpath.cons hkey hp⟩
    · rw [release_of_not_closable hkey]
      refine ⟨[], Nat.zero_le _, by simp, .nil, .nil, trivial, rfl, fun _ q hq => ?_⟩
      obtain rfl : key = q := Option.some.inj hq
      exact hkey

/-- Of the messages that stay, only the one after the last of some on the way up was that which one of
these was handed on from. -/
theorem countP_parentAt (hlinked : path.IsChain fun k p => parentAt entries k = some p)
    (hk : k ∉ path) : path.countP (fun q => parentAt entries q = some k) =
      if path.getLast?.bind (parentAt entries) = some k then 1 else 0 := by
  induction hlinked with
  | nil => rfl
  | singleton q => by_cases hq : parentAt entries q = some k <;> simp [hq]
  | @cons_cons q q' path hlink _ ih =>
    have hne : ¬ parentAt entries q = some k := by
      rw [hlink]
      rintro ⟨⟩
      simp at hk
    rw [List.countP_cons, ih fun hmem => hk (List.mem_cons_of_mem q hmem), List.getLast?_cons_cons]
    simp [hne]

/-- What closing messages along the way up leaves: the message after the last of them counts one fewer,
and all others are as before. -/
theorem get?_foldl_closeOne (hnodup : path.Nodup)
    (hlinked : path.IsChain fun k p => parentAt entries k = some p) (k : QueueKey) :
    (path.foldl closeOne entries).get? k =
      if k ∈ path then none
      else if path.getLast?.bind (parentAt entries) = some k then
        (entries.get? k).map (·.dropChildren 1)
      else entries.get? k := by
  rw [foldl_closeOne hnodup, Table.get?_map]
  by_cases hk : k ∈ path
  · rw [if_pos hk, Table.get?_only_of_not_mem (by simpa using hk)]
    rfl
  · rw [if_neg hk, Table.get?_only_of_mem (by simpa using hk), countP_parentAt hlinked hk]
    split
    · rfl
    · simp

/-- **The way up can be followed whatever the links are.** The chain of a message consists of different
open messages, the root first. It is empty exactly if the message is not open, and else ends with it;
each message was handed on from the one before it; there are at most sixteen, and fewer only if the
first one was not handed on, or from a message that is not open or in the chain already. A message that
left its queue is closed with those above it: different messages, at most sixteen, each handed on from
the next one, and each left its queue and counts none when it is closed. They are followed until one
cannot be closed. Everything else is left alone but the count of the message that the last of them was
handed on from. -/
theorem way_up_followed (entries : Entries) (key : QueueKey) :
    Ancestry entries key (chain entries key) ∧
      ∃ path, Released 16 entries key path (release maxDepth entries key) ∧
        ∀ k, (release maxDepth entries key).get? k =
          if k ∈ path then none
          else if path.getLast?.bind (parentAt entries) = some k then
            (entries.get? k).map (·.dropChildren 1)
          else entries.get? k := by
  obtain ⟨path, hpath⟩ := exists_released maxDepth entries key
  refine ⟨ancestry_chain entries key, path, hpath, fun k => ?_⟩
  rw [hpath.out_eq]
  exact get?_foldl_closeOne hpath.nodup hpath.linked k

/-- Two messages go on in the queue of each other. -/
def passedInCircle : List Record := [recordIn 1 (passedOn "A" "B"), recordIn 2 (passedOn "B" "A")]

example :
    let entries := (State.empty.run .default passedInCircle).1.entries
    chain entries ⟨"", "A"⟩ = [⟨"", "B"⟩, ⟨"", "A"⟩] ∧
      chain entries ⟨"", "B"⟩ = [⟨"", "A"⟩, ⟨"", "B"⟩] := by
  decide

end MailTrace.Tracker
