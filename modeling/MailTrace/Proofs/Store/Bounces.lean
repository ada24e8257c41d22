import MailTrace.Proofs.Store.Positions
import MailTrace.Store.Bounce

/-!
# What a bounce changes

A bounce goes to both tables of the ledger, to one delivery after the other. All together it changes
the deliveries that it tells of and adds its line to each of them, and since these no longer count as
sent, it does so once.

1. It tells of a row by the row alone (`Tells`), so what comes of the deliveries is a map over them
   (`rows_bounce`).
2. Its line gets a position after all others of the delivery, so it comes last when the lines are
   looked up, however these were numbered (`linesOf_append`).
3. No row that it told of is told of again (`matchedBy_bounce`).
-/

namespace MailTrace.Ledger

open MailTrace.Time

/-! ## The deliveries a bounce tells of -/

/-- A bounce tells of a delivery that was sent to its recipient in the hour before it, from its sender
as far as both are known. -/
structure Tells (b : BounceReport) (row : DeliveryRow) : Prop where
  status : row.status = .sent
  recipient : row.recipient = b.recipient.display
  notBefore : b.time.second - 3600 ≤ row.deliverySecond
  notAfter : row.deliverySecond ≤ b.time.second
  sender : b.sender.display = "" ∨ row.sender = "" ∨ row.sender = b.sender.display

/-- The delivery once it is known to have bounced. -/
def bounced (b : BounceReport) (row : DeliveryRow) : DeliveryRow :=
  { row with status := .bounced, dsn := b.dsn, extraMessage := some b.message }

section Rows

variable {l : Ledger} {b : BounceReport} {r : Row} {id : Nat}

theorem isMatchedBy_iff : isMatchedBy b r = true ↔ Tells b r.2 := by
  unfold isMatchedBy
  simp only [Bool.and_eq_true, Bool.or_eq_true, decide_eq_true_eq]
  constructor
  · rintro ⟨⟨⟨⟨hstatus, hrecipient⟩, hbefore⟩, hafter⟩, hsender⟩
    exact ⟨hstatus, hrecipient, hbefore, hafter, or_assoc.1 hsender⟩
  · rintro ⟨hstatus, hrecipient, hbefore, hafter, hsender⟩
    exact ⟨⟨⟨⟨hstatus, hrecipient⟩, hbefore⟩, hafter⟩, or_assoc.2 hsender⟩

instance (b : BounceReport) (row : DeliveryRow) : Decidable (Tells b row) :=
  decidable_of_iff (isMatchedBy b (0, row) = true) isMatchedBy_iff

theorem mem_matchedBy_iff : id ∈ l.matchedBy b ↔ ∃ r ∈ l.deliveries.rows, r.1 = id ∧ Tells b r.2 := by
  simp only [matchedBy, List.mem_map, List.mem_filter, isMatchedBy_iff]
  constructor
  · rintro ⟨r, ⟨hr, htells⟩, rfl⟩
    exact ⟨r, hr, rfl, htells⟩
  · rintro ⟨r, hr, rfl, htells⟩
    exact ⟨r, ⟨hr, htells⟩, rfl⟩

/-- A row of the ledger is found by its number, which no other row has. -/
theorem number_mem_matchedBy_iff (hr : r ∈ l.deliveries.rows) : r.1 ∈ l.matchedBy b ↔ Tells b r.2 := by
  rw [mem_matchedBy_iff]
  constructor
  · rintro ⟨s, hs, hnumber, htells⟩
    rwa [← List.inj_on_of_nodup_map l.deliveries.nodup_ids hs hr hnumber]
  · exact fun htells => ⟨r, hr, rfl, htells⟩

theorem matchedBy_eq_nil_iff : l.matchedBy b = [] ↔ ∀ r ∈ l.deliveries.rows, ¬ Tells b r.2 := by
  rw [matchedBy, List.map_eq_nil_iff, List.filter_eq_nil_iff]
  exact forall₂_congr fun r _ => not_congr isMatchedBy_iff

/-- What was known to have bounced does not change when it is marked again. -/
theorem bounced_bounced (b : BounceReport) (row : DeliveryRow) :
    bounced b (bounced b row) = bounced b row := rfl

theorem not_tells_bounced (b : BounceReport) (row : DeliveryRow) : ¬ Tells b (bounced b row) :=
  fun h => nomatch h.status

theorem bounced_ne_of_tells {row : DeliveryRow} (h : Tells b row) : bounced b row ≠ row :=
  fun he => not_tells_bounced b row (he ▸ h)

theorem rows_foldl_bounce (b : BounceReport) (ids : List Nat) (l : Ledger) :
    (ids.foldl (fun l id => (l.markBounced b id).appendLine id b.line) l).deliveries.rows =
      l.deliveries.rows.map fun r => (r.1, if r.1 ∈ ids then bounced b r.2 else r.2) := by
  induction ids generalizing l with
  | nil => simp
  | cons id ids ih =>
    have hfirst : ((l.markBounced b id).appendLine id b.line).deliveries.rows =
        l.deliveries.rows.map fun r => (r.1, if r.1 = id then bounced b r.2 else r.2) := rfl
    rw [List.foldl_cons, ih, hfirst, List.map_map]
    refine List.map_congr_left fun r _ => Prod.ext rfl ?_
    by_cases hid : r.1 = id
    · by_cases hlater : r.1 ∈ ids
      · simp [hid, hid ▸ hlater, bounced_bounced]
      · simp [hid, hid ▸ hlater]
    · simp [hid]

/-- A bounce marks the rows that it tells of. -/
theorem rows_bounce (l : Ledger) (b : BounceReport) :
    (l.bounce b).deliveries.rows =
      l.deliveries.rows.map fun r => (r.1, if Tells b r.2 then bounced b r.2 else r.2) := by
  unfold bounce
  rw [rows_foldl_bounce]
  refine List.map_congr_left fun r hr => ?_
  simp only [number_mem_matchedBy_iff hr]

/-- The rows that are not there afterwards are those that it tells of. -/
theorem not_mem_rows_bounce_iff (hr : r ∈ l.deliveries.rows) :
    r ∉ (l.bounce b).deliveries.rows ↔ Tells b r.2 := by
  rw [rows_bounce, List.mem_map]
  constructor
  · intro hgone
    by_contra htells
    exact hgone ⟨r, hr, by rw [if_neg htells]⟩
  · rintro htells ⟨s, hs, he⟩
    have hnumber : s.1 = r.1 := (Prod.ext_iff.1 he).1
    obtain rfl := List.inj_on_of_nodup_map l.deliveries.nodup_ids hs hr hnumber
    rw [if_pos htells] at he
    exact bounced_ne_of_tells htells (congrArg Prod.snd he)

/-- It tells of none of them again. -/
theorem matchedBy_bounce (l : Ledger) (b : BounceReport) : (l.bounce b).matchedBy b = [] := by
  rw [matchedBy_eq_nil_iff, rows_bounce]
  intro r hr
  obtain ⟨s, -, rfl⟩ := List.mem_map.1 hr
  by_cases htells : Tells b s.2
  · rw [if_pos htells]
    exact not_tells_bounced b s.2
  · rwa [if_neg htells]

theorem bounce_of_matchedBy_eq_nil (h : l.matchedBy b = []) : l.bounce b = l := by
  rw [bounce, h, List.foldl_nil]

/-- An attempt writes the bounce, whether it is tried again or not. -/
theorem fst_attempt (l : Ledger) (b : BounceReport) (retries : Nat) :
    (l.attempt ⟨b, retries⟩).1 = l.bounce b := by
  unfold attempt
  split
  · next hnone => exact (bounce_of_matchedBy_eq_nil (List.isEmpty_iff.1 hnone)).symm
  · rfl

end Rows

/-! ## Its line -/

section Lines

variable {l : Ledger} {b : BounceReport} {id : Nat}

/-- What comes after all others stays there when they are sorted. -/
theorem mergeSort_concat {α : Type} {le : α → α → Bool}
    (htrans : ∀ x y z, le x y = true → le y z = true → le x z = true)
    (htotal : ∀ x y, (le x y || le y x) = true) {last : α} (items : List α)
    (hlast : ∀ x ∈ items, le x last = true) :
    (items ++ [last]).mergeSort le = items.mergeSort le ++ [last] := by
  induction items with
  | nil => simp
  | cons x items ih =>
    have hsplit : ∀ rest : List α, ∃ before after, (x :: rest).mergeSort le = before ++ x :: after ∧
        before = (rest.mergeSort le).filter (fun y => !le x y) ∧
        after = (rest.mergeSort le).filter (le x) := by
      intro rest
      obtain ⟨before, after, hcons, hrest, hbefore⟩ := List.mergeSort_cons htrans htotal x rest
      have hsorted := List.pairwise_mergeSort htrans htotal (x :: rest)
      rw [hcons, List.pairwise_append, List.pairwise_cons] at hsorted
      have hafter := hsorted.2.1.1
      refine ⟨before, after, hcons, ?_, ?_⟩
      · rw [hrest, List.filter_append, List.filter_eq_self.2 hbefore,
          List.filter_eq_nil_iff.2 fun y hy => by simp [hafter y hy], List.append_nil]
      · rw [hrest, List.filter_append, List.filter_eq_self.2 hafter,
          List.filter_eq_nil_iff.2 fun y hy => by simpa using hbefore y hy, List.nil_append]
    have hle : le x last = true := hlast x List.mem_cons_self
    obtain ⟨before, after, hcons, rfl, rfl⟩ := hsplit items
    obtain ⟨before, after, hconcat, rfl, rfl⟩ := hsplit (items ++ [last])
    rw [List.cons_append, hconcat, hcons, ih fun y hy => hlast y (List.mem_cons_of_mem x hy)]
    simp [hle]

theorem linesOf_eq_map_mergeSort (l : Ledger) (id : Nat) :
    l.linesOf id = ((l.linesUnder id).mergeSort fun x y => x.position ≤ y.position).map
      fun line => (line.second, line.sum) := rfl

/-- A line that is numbered after all others of its delivery is the last one that is looked up. -/
theorem linesOf_append {l' : Ledger} {line : LineRow}
    (hunder : l'.linesUnder id = l.linesUnder id ++ [line])
    (hlast : ∀ other ∈ l.linesUnder id, other.position ≤ line.position) :
    l'.linesOf id = l.linesOf id ++ [(line.second, line.sum)] := by
  rw [linesOf_eq_map_mergeSort, linesOf_eq_map_mergeSort, hunder, mergeSort_concat, List.map_append]
  · rfl
  · intro x y z
    simp only [decide_eq_true_eq]
    exact Nat.le_trans
  · intro x y
    simpa using Nat.le_total x.position y.position
  · exact fun other hother => decide_eq_true (hlast other hother)

/-- The next position of a delivery is after those of all its lines. -/
theorem position_lt_nextPosition {line : LineRow} (h : line ∈ l.linesUnder id) :
    line.position < l.nextPosition id := by
  rw [nextPosition_eq_elim]
  have hmem : line.position ∈ (l.linesUnder id).map (·.position) := List.mem_map_of_mem h
  cases hmax : ((l.linesUnder id).map (·.position)).max? with
  | none =>
    rw [List.max?_eq_none_iff.1 hmax] at hmem
    exact absurd hmem List.not_mem_nil
  | some last => exact Nat.lt_succ_of_le ((List.max?_eq_some_iff.1 hmax).2 _ hmem)

end Lines

/-! ## Once -/

/-- What a bounce makes of a ledger. The deliveries it tells of have bounced and have its line after
all others, and everything else stays. -/
structure BouncedBy (b : BounceReport) (l l' : Ledger) : Prop where
  rows : l'.deliveries.rows =
    l.deliveries.rows.map fun r => (r.1, if Tells b r.2 then bounced b r.2 else r.2)
  changed : ∀ r ∈ l.deliveries.rows, r ∉ l'.deliveries.rows ↔ Tells b r.2
  next : l'.deliveries.next = l.deliveries.next
  told : ∀ r ∈ l.deliveries.rows, Tells b r.2 →
    (∃ position, (∀ line ∈ l.linesUnder r.1, line.position < position) ∧
      l'.linesUnder r.1 =
        l.linesUnder r.1 ++ [⟨r.1, position, b.line.time.second, b.line.sum⟩]) ∧
    l'.linesOf r.1 = l.linesOf r.1 ++ [(b.line.time.second, b.line.sum)]
  spared : ∀ id, (∀ r ∈ l.deliveries.rows, r.1 = id → ¬ Tells b r.2) →
    l'.linesUnder id = l.linesUnder id

theorem bouncedBy_bounce (l : Ledger) (b : BounceReport) : BouncedBy b l (l.bounce b) where
  rows := rows_bounce l b
  changed _ hr := not_mem_rows_bounce_iff hr
  next := next_bounce l b
  told r hr htells := by
    have hunder := linesUnder_bounce l b r.1
    rw [if_pos ((number_mem_matchedBy_iff hr).2 htells)] at hunder
    exact ⟨⟨_, fun _ => position_lt_nextPosition, hunder⟩,
      linesOf_append hunder fun _ hline => Nat.le_of_lt (position_lt_nextPosition hline)⟩
  spared id hnone := by
    have hid : id ∉ l.matchedBy b := fun hmem => by
      obtain ⟨r, hr, hnumber, htells⟩ := mem_matchedBy_iff.1 hmem
      exact hnone r hr hnumber htells
    rw [linesUnder_bounce, if_neg hid, List.append_nil]

/-- **A bounce counts once.** However often it would still be tried, a bounce marks the deliveries it
tells of and adds its line to them, and the same bounce changes nothing after that. -/
theorem bounce_once (l : Ledger) (b : BounceReport) (retries : Nat) :
    BouncedBy b l (l.attempt ⟨b, retries⟩).1 ∧
      ∀ later : Nat,
        ((l.attempt ⟨b, retries⟩).1.attempt ⟨b, later⟩).1 = (l.attempt ⟨b, retries⟩).1 := by
  refine ⟨?_, fun later => ?_⟩
  · rw [fst_attempt]
    exact bouncedBy_bounce l b
  · rw [fst_attempt, fst_attempt]
    exact bounce_of_matchedBy_eq_nil (matchedBy_bounce l b)

end MailTrace.Ledger
