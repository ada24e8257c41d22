import MailTrace.Proofs.Store.Ledger

/-!
# Two tables that agree

Deliveries are in one table of the ledger and their lines in another. Whatever is written, each line
belongs to a delivery that is there, and the lines of a delivery have the positions 0, 1, 2, … in the
order in which they came: those it was added with, then those of its bounces.

1. What each write does to the lines of one delivery (`linesOf_insert`, `linesOf_withdraw`,
   `linesOf_bounce`), as long as the tables agree (`Agrees`).
2. Every write keeps them so (`Agrees.apply`).
3. A number is given to one delivery only, and by the history of the writes its lines are known
   (`linesOf_after`).
-/

namespace MailTrace.Ledger

open MailTrace.Time

/-! ## The lines of one delivery -/

/-- The rows of a delivery's lines, as they came. -/
def linesUnder (l : Ledger) (id : Nat) : List LineRow :=
  l.lines.filter fun line => line.delivery = id

/-- What is kept of a reference to a line. -/
def kept (r : LineRef) : Int × Int := (r.time.second, r.sum)

/-- Every line belongs to a delivery that is there, and the lines of a delivery are numbered from 0 in
the order in which they came. -/
structure Agrees (l : Ledger) : Prop where
  owned : ∀ line ∈ l.lines, line.delivery ∈ l.deliveries.ids
  placed : ∀ id, (l.linesUnder id).map (·.position) = List.range (l.linesUnder id).length

section Lines

variable {l : Ledger} {id i n : Nat} {refs : List LineRef} {line : LineRef}

theorem map_position_lineRows (id n : Nat) (refs : List LineRef) :
    (lineRows id n refs).map (·.position) = List.range' n refs.length := by
  induction refs generalizing n with
  | nil => rfl
  | cons r refs ih => rw [lineRows, List.map_cons, ih, List.length_cons, List.range'_succ]

theorem map_kept_lineRows (id n : Nat) (refs : List LineRef) :
    (lineRows id n refs).map (fun line => (line.second, line.sum)) = refs.map kept := by
  induction refs generalizing n with
  | nil => rfl
  | cons r refs ih => rw [lineRows, List.map_cons, ih, List.map_cons, kept]

theorem delivery_of_mem_lineRows {line : LineRow} (h : line ∈ lineRows id n refs) :
    line.delivery = id := by
  induction refs generalizing n with
  | nil => exact absurd h List.not_mem_nil
  | cons r refs ih =>
    rcases List.mem_cons.1 h with rfl | h
    · rfl
    · exact ih h

theorem length_lineRows (id n : Nat) (refs : List LineRef) :
    (lineRows id n refs).length = refs.length := by
  rw [← List.length_map (f := (·.position)), map_position_lineRows, List.length_range']

/-- The lines are in the order of their positions already. -/
theorem Agrees.linesOf_eq (h : l.Agrees) (id : Nat) :
    l.linesOf id = (l.linesUnder id).map fun line => (line.second, line.sum) := by
  have hsorted : (l.linesUnder id).Pairwise fun a b => a.position ≤ b.position := by
    have hrange := List.pairwise_lt_range (n := (l.linesUnder id).length)
    rw [← h.placed id, List.pairwise_map] at hrange
    exact hrange.imp Nat.le_of_lt
  have hsort : (l.linesUnder id).mergeSort (fun a b => a.position ≤ b.position) =
      l.linesUnder id :=
    List.mergeSort_of_pairwise (hsorted.imp decide_eq_true)
  exact congrArg (List.map _) hsort

theorem nextPosition_eq_elim (l : Ledger) (id : Nat) :
    l.nextPosition id = ((l.linesUnder id).map (·.position)).max?.elim 0 (· + 1) := by
  unfold nextPosition linesUnder
  cases ((l.lines.filter (·.delivery = id)).map (·.position)).max? <;> rfl

/-- The next position is the number of lines there are. -/
theorem Agrees.nextPosition_eq (h : l.Agrees) (id : Nat) :
    l.nextPosition id = (l.linesUnder id).length := by
  rw [nextPosition_eq_elim, h.placed id]
  cases (l.linesUnder id).length with
  | zero => rfl
  | succ n =>
    have hmax : (List.range (n + 1)).max? = some n := by
      refine List.max?_eq_some_iff.2 ⟨List.mem_range.2 n.lt_succ_self, fun m hm => ?_⟩
      exact Nat.le_of_lt_succ (List.mem_range.1 hm)
    rw [hmax]
    rfl

/-- Nothing is kept under a number that was not given yet. -/
theorem Agrees.linesUnder_eq_nil (h : l.Agrees) (hid : id ∉ l.deliveries.ids) :
    l.linesUnder id = [] := by
  refine List.filter_eq_nil_iff.2 fun line hline hown => hid ?_
  rw [← of_decide_eq_true hown]
  exact h.owned line hline

theorem linesUnder_insert (l : Ledger) (d : Delivery) (id : Nat) :
    (l.insert d).linesUnder id =
      l.linesUnder id ++ if id = l.deliveries.next then lineRows id 0 d.lines else [] := by
  have hnew : (lineRows l.deliveries.next 0 d.lines).filter (fun line => line.delivery = id) =
      if id = l.deliveries.next then lineRows id 0 d.lines else [] := by
    split
    · next hid =>
      subst hid
      exact List.filter_eq_self.2 fun line hline => decide_eq_true (delivery_of_mem_lineRows hline)
    · next hid =>
      refine List.filter_eq_nil_iff.2 fun line hline hown => hid ?_
      rw [← of_decide_eq_true hown, delivery_of_mem_lineRows hline]
  rw [← hnew]
  exact List.filter_append _ _

theorem linesUnder_withdraw (l : Ledger) (d : Delivery) (id : Nat) :
    (l.withdraw d).linesUnder id = if id ∈ l.replacedBy d then [] else l.linesUnder id := by
  have hboth : (l.withdraw d).linesUnder id =
      l.lines.filter fun line => decide (line.delivery = id) &&
        !decide (line.delivery ∈ l.replacedBy d) := List.filter_filter
  rw [hboth]
  split
  · next hid =>
    refine List.filter_eq_nil_iff.2 fun line _ hline => ?_
    simp only [Bool.and_eq_true, decide_eq_true_eq, Bool.not_eq_true', decide_eq_false_iff_not]
      at hline
    exact hline.2 (hline.1 ▸ hid)
  · next hid =>
    refine List.filter_congr fun line _ => ?_
    by_cases hown : line.delivery = id
    · simp [hown, hid]
    · simp [hown]

theorem linesUnder_appendLine (l : Ledger) (i id : Nat) (line : LineRef) :
    (l.appendLine i line).linesUnder id =
      l.linesUnder id ++ if id = i then lineRows id (l.nextPosition id) [line] else [] := by
  have hnew : [(⟨i, l.nextPosition i, line.time.second, line.sum⟩ : LineRow)].filter
      (fun line => line.delivery = id) =
      if id = i then lineRows id (l.nextPosition id) [line] else [] := by
    by_cases hid : id = i
    · subst hid
      simp [lineRows]
    · simp [hid, Ne.symm hid]
  rw [← hnew]
  exact List.filter_append _ _

/-- A bounce appends its line once to each of some deliveries. -/
theorem linesUnder_foldl_bounce (b : BounceReport) (id : Nat) {ids : List Nat} (hids : ids.Nodup)
    (l : Ledger) :
    (ids.foldl (fun l id => (l.markBounced b id).appendLine id b.line) l).linesUnder id =
      l.linesUnder id ++ if id ∈ ids then lineRows id (l.nextPosition id) [b.line] else [] := by
  induction ids generalizing l with
  | nil => simp
  | cons i ids ih =>
    obtain ⟨hi, hids⟩ := List.nodup_cons.1 hids
    have hfirst : ((l.markBounced b i).appendLine i b.line).linesUnder id =
        l.linesUnder id ++ if id = i then lineRows id (l.nextPosition id) [b.line] else [] :=
      linesUnder_appendLine (l.markBounced b i) i id b.line
    rw [List.foldl_cons, ih hids, hfirst]
    by_cases hid : id = i
    · subst hid
      simp [hi]
    · -- another delivery's line leaves the next position as it is
      have hnext : ((l.markBounced b i).appendLine i b.line).nextPosition id =
          l.nextPosition id := by
        rw [if_neg hid, List.append_nil] at hfirst
        rw [nextPosition_eq_elim, hfirst, nextPosition_eq_elim]
      simp [hid, hnext]

theorem linesUnder_bounce (l : Ledger) (b : BounceReport) (id : Nat) :
    (l.bounce b).linesUnder id =
      l.linesUnder id ++
        if id ∈ l.matchedBy b then lineRows id (l.nextPosition id) [b.line] else [] :=
  linesUnder_foldl_bounce b id (l.deliveries.nodup_ids.sublist (List.filter_sublist.map _)) l

end Lines

/-! ## The tables agree -/

section Agrees

variable {l : Ledger} {d : Delivery} {id : Nat}

theorem ids_bounce (l : Ledger) (b : BounceReport) :
    (l.bounce b).deliveries.ids = l.deliveries.ids := by
  unfold bounce
  generalize l.matchedBy b = ids
  induction ids generalizing l with
  | nil => rfl
  | cons id ids ih => exact (ih _).trans (Numbered.ids_map _ _)

theorem ids_insert (l : Ledger) (d : Delivery) :
    (l.insert d).deliveries.ids = l.deliveries.ids ++ [l.deliveries.next] := Numbered.ids_push _ _

theorem mem_ids_withdraw :
    id ∈ (l.withdraw d).deliveries.ids ↔ id ∈ l.deliveries.ids ∧ id ∉ l.replacedBy d := by
  unfold withdraw without Numbered.filter Numbered.ids
  simp only [List.mem_map, List.mem_filter, Bool.not_eq_true', decide_eq_false_iff_not]
  constructor
  · rintro ⟨row, ⟨hrow, hkept⟩, rfl⟩
    exact ⟨⟨row, hrow, rfl⟩, hkept⟩
  · rintro ⟨⟨row, hrow, rfl⟩, hkept⟩
    exact ⟨row, ⟨hrow, hkept⟩, rfl⟩

theorem mem_lines_iff {line : LineRow} : line ∈ l.lines ↔ line ∈ l.linesUnder line.delivery :=
  ⟨fun h => List.mem_filter.2 ⟨h, decide_eq_true rfl⟩, fun h => (List.mem_filter.1 h).1⟩

/-- Rows from the next position on continue the numbering. -/
theorem map_position_append {rows : List LineRow} (id : Nat) (refs : List LineRef)
    (h : rows.map (·.position) = List.range rows.length) :
    (rows ++ lineRows id rows.length refs).map (·.position) =
      List.range (rows ++ lineRows id rows.length refs).length := by
  rw [List.map_append, h, map_position_lineRows, List.length_append, length_lineRows,
    List.range_eq_range', List.range_eq_range']
  simpa using List.range'_append_1 (s := 0) (m := rows.length) (n := refs.length)

/-- Tables that agree still do when the lines of each delivery are continued by some more, and those
of one that was not there before begin with 0. -/
theorem Agrees.continue {l' : Ledger} (h : l.Agrees) (more : Nat → List LineRef)
    (hmore : ∀ id, more id ≠ [] → id ∈ l'.deliveries.ids)
    (hids : ∀ id ∈ l.deliveries.ids, id ∈ l'.deliveries.ids)
    (hlines : ∀ id, l'.linesUnder id =
      l.linesUnder id ++ lineRows id (l.linesUnder id).length (more id)) : l'.Agrees where
  owned line hline := by
    have hunder := mem_lines_iff.1 hline
    rw [hlines] at hunder
    rcases List.mem_append.1 hunder with hold | hnew
    · exact hids _ (h.owned line (mem_lines_iff.2 hold))
    · exact hmore _ fun hnil => by simp [hnil, lineRows] at hnew
  placed id := by
    rw [hlines]
    exact map_position_append id (more id) (h.placed id)

theorem agrees_empty : empty.Agrees where
  owned _ hline := absurd hline List.not_mem_nil
  placed _ := rfl

theorem Agrees.insert (h : l.Agrees) (d : Delivery) : (l.insert d).Agrees := by
  refine h.continue (fun id => if id = l.deliveries.next then d.lines else []) ?_ ?_ ?_
  · intro id hid
    have hnew : id = l.deliveries.next := by
      by_contra hne
      exact hid (if_neg hne)
    rw [ids_insert, hnew]
    exact List.mem_append_right _ (List.mem_singleton_self _)
  · intro id hid
    rw [ids_insert]
    exact List.mem_append_left _ hid
  · intro id
    rw [linesUnder_insert]
    split
    · next hid =>
      have hfree : id ∉ l.deliveries.ids := fun hmem =>
        Nat.lt_irrefl _ (hid ▸ Numbered.lt_next_of_mem_ids hmem)
      rw [h.linesUnder_eq_nil hfree]
      rfl
    · rfl

theorem Agrees.withdraw (h : l.Agrees) (d : Delivery) : (l.withdraw d).Agrees where
  owned line hline := by
    obtain ⟨hline, hkept⟩ := List.mem_filter.1 hline
    rw [Bool.not_eq_true', decide_eq_false_iff_not] at hkept
    exact mem_ids_withdraw.2 ⟨h.owned line hline, hkept⟩
  placed id := by
    rw [linesUnder_withdraw]
    split
    · rfl
    · exact h.placed id

theorem Agrees.bounce (h : l.Agrees) (b : BounceReport) : (l.bounce b).Agrees := by
  refine h.continue (fun id => if id ∈ l.matchedBy b then [b.line] else []) ?_ ?_ ?_
  · intro id hid
    have hmatched : id ∈ l.matchedBy b := by
      by_contra hne
      exact hid (if_neg hne)
    rw [ids_bounce]
    exact (List.filter_sublist.map _).subset hmatched
  · intro id hid
    rwa [ids_bounce]
  · intro id
    rw [linesUnder_bounce, h.nextPosition_eq]
    split <;> rfl

theorem Agrees.apply (h : l.Agrees) (w : Write) : (l.apply w).Agrees := by
  cases w with
  | store d => exact h.insert d
  | replace d => exact (h.withdraw d).insert d
  | bounce b => exact h.bounce b

theorem agrees_after (ws : List Write) : (after ws).Agrees := by
  induction ws using List.reverseRecOn with
  | nil => exact agrees_empty
  | append_singleton ws w ih =>
    rw [after_append]
    exact ih.apply w

end Agrees

/-! ## Numbers -/

/-- How many deliveries were added. -/
def added (ws : List Write) : Nat := ws.countP fun w => w.delivery?.isSome

theorem added_append (ws : List Write) (w : Write) :
    added (ws ++ [w]) = added ws + if w.delivery?.isSome then 1 else 0 := by
  unfold added
  rw [List.countP_append, List.countP_singleton]

/-- A row is that of a delivery, but for what a bounce changes. -/
def IsRowOf (d : Delivery) (row : DeliveryRow) : Prop :=
  ∃ status dsn extraMessage,
    row = { DeliveryRow.ofDelivery d with status, dsn, extraMessage }

section Numbers

variable {l : Ledger} {d : Delivery} {row : Row} {ws : List Write}

theorem next_bounce (l : Ledger) (b : BounceReport) :
    (l.bounce b).deliveries.next = l.deliveries.next := by
  unfold bounce
  generalize l.matchedBy b = ids
  induction ids generalizing l with
  | nil => rfl
  | cons id ids ih => exact ih ((l.markBounced b id).appendLine id b.line)

theorem next_eq (ws : List Write) : (after ws).deliveries.next = added ws + 1 := by
  induction ws using List.reverseRecOn with
  | nil => rfl
  | append_singleton ws w ih =>
    rw [after_append, added_append]
    cases w with
    | store d => exact congrArg (· + 1) ih
    | replace d => exact congrArg (· + 1) ih
    | bounce b => exact (next_bounce _ b).trans ih

/-- A bounce changes the result in a row, nothing else. -/
theorem mem_rows_bounce {b : BounceReport} (h : row ∈ (l.bounce b).deliveries.rows) :
    ∃ old, (row.1, old) ∈ l.deliveries.rows ∧
      ∃ status dsn extraMessage, row.2 = { old with status, dsn, extraMessage } := by
  unfold bounce at h
  generalize l.matchedBy b = ids at h
  induction ids generalizing l with
  | nil => exact ⟨row.2, h, _, _, _, rfl⟩
  | cons id ids ih =>
    obtain ⟨marked, hmarked, status, dsn, extraMessage, hrow⟩ := ih h
    obtain ⟨old, hold, heq⟩ := List.mem_map.1 hmarked
    obtain ⟨hid, rfl⟩ := Prod.mk.inj heq
    refine ⟨old.2, hid ▸ hold, status, dsn, extraMessage, ?_⟩
    rw [hrow]
    by_cases hmarked : old.1 = id
    · simp only [if_pos hmarked]
    · simp only [if_neg hmarked]

/-- What is there was added by some write, and has the number of that write among those that added
something. -/
theorem mem_rows_after (h : row ∈ (after ws).deliveries.rows) :
    ∃ before w later d, ws = before ++ w :: later ∧ w.delivery? = some d ∧
      row.1 = added before + 1 ∧ IsRowOf d row.2 := by
  induction ws using List.reverseRecOn generalizing row with
  | nil => exact absurd h List.not_mem_nil
  | append_singleton ws w ih =>
    rw [after_append] at h
    have hold : ∀ row ∈ (after ws).deliveries.rows, ∃ before v later d,
        ws ++ [w] = before ++ v :: later ∧ v.delivery? = some d ∧ row.1 = added before + 1 ∧
          IsRowOf d row.2 := by
      intro row hrow
      obtain ⟨before, v, later, d, hws, hv, hnumber, hrow⟩ := ih hrow
      exact ⟨before, v, later ++ [w], d, by rw [hws]; simp, hv, hnumber, hrow⟩
    have hadd : ∀ d, w.delivery? = some d → ∃ before v later e,
        ws ++ [w] = before ++ v :: later ∧ v.delivery? = some e ∧ row.1 = added before + 1 ∧
          IsRowOf e row.2 := by
      intro d hw
      rcases (mem_rows_apply hw).1 h with ⟨hrow, -⟩ | rfl
      · exact hold row hrow
      · exact ⟨ws, w, [], d, rfl, hw, next_eq ws, _, _, _, rfl⟩
    cases w with
    | store d => exact hadd d rfl
    | replace d => exact hadd d rfl
    | bounce b =>
      obtain ⟨old, hrow, status, dsn, extraMessage, hchanged⟩ := mem_rows_bounce h
      obtain ⟨before, v, later, d, hws, hv, hnumber, s, t, u, rfl⟩ := hold _ hrow
      exact ⟨before, v, later, d, hws, hv, hnumber, status, dsn, extraMessage, hchanged⟩

theorem le_added_of_mem_ids {id : Nat} (h : id ∈ (after ws).deliveries.ids) : id ≤ added ws := by
  have hlt := Numbered.lt_next_of_mem_ids h
  rw [next_eq] at hlt
  exact Nat.le_of_lt_succ hlt

end Numbers

/-! ## The lines of one delivery by the history of the writes -/

/-- The lines that a write adds to those of a delivery that is there. -/
def addedTo (l : Ledger) (id : Nat) : Write → List LineRef
  | .bounce b => if id ∈ l.matchedBy b then [b.line] else []
  | _ => []

/-- The lines that writes add, one after the other. -/
def addedLater (l : Ledger) (id : Nat) : List Write → List LineRef
  | [] => []
  | w :: ws => l.addedTo id w ++ addedLater (l.apply w) id ws

section Later

variable {l : Ledger} {id : Nat} {w : Write}

theorem next_le_apply (l : Ledger) (w : Write) :
    l.deliveries.next ≤ (l.apply w).deliveries.next := by
  cases w with
  | store d => exact Nat.le_succ _
  | replace d => exact Nat.le_succ _
  | bounce b => exact Nat.le_of_eq (next_bounce l b).symm

theorem mem_ids_of_apply (hid : id < l.deliveries.next) (h : id ∈ (l.apply w).deliveries.ids) :
    id ∈ l.deliveries.ids := by
  have hinsert : ∀ {m : Ledger} {d : Delivery}, m.deliveries.next = l.deliveries.next →
      id ∈ (m.insert d).deliveries.ids → id ∈ m.deliveries.ids := by
    intro m d hnext hmem
    rw [ids_insert] at hmem
    rcases List.mem_append.1 hmem with hmem | hmem
    · exact hmem
    · rw [List.mem_singleton, hnext] at hmem
      exact absurd hmem (Nat.ne_of_lt hid)
  cases w with
  | store d => exact hinsert rfl h
  | replace d => exact (mem_ids_withdraw.1 (hinsert rfl h)).1
  | bounce b => rwa [apply, ids_bounce] at h

theorem mem_ids_of_foldl {ws : List Write} (hid : id < l.deliveries.next)
    (h : id ∈ (ws.foldl apply l).deliveries.ids) : id ∈ l.deliveries.ids := by
  induction ws generalizing l with
  | nil => exact h
  | cons w ws ih =>
    exact mem_ids_of_apply hid (ih (Nat.lt_of_lt_of_le hid (next_le_apply l w)) h)

/-- A write leaves the lines of a delivery that stays, or continues them. -/
theorem Agrees.linesOf_apply (h : l.Agrees) (hid : id < l.deliveries.next)
    (hstays : id ∈ (l.apply w).deliveries.ids) :
    (l.apply w).linesOf id = l.linesOf id ++ (l.addedTo id w).map kept := by
  rw [(h.apply w).linesOf_eq, h.linesOf_eq]
  cases w with
  | store d =>
    rw [Ledger.apply, linesUnder_insert, if_neg (Nat.ne_of_lt hid), List.append_nil]
    exact (List.append_nil _).symm
  | replace d =>
    have hkept : id ∉ l.replacedBy d := by
      have hmem : id ∈ (l.withdraw d).deliveries.ids :=
        mem_ids_of_apply (w := .store d) hid hstays
      exact (mem_ids_withdraw.1 hmem).2
    have hnext : id ≠ (l.withdraw d).deliveries.next := Nat.ne_of_lt hid
    rw [Ledger.apply, Ledger.replace, linesUnder_insert, linesUnder_withdraw, if_neg hkept, if_neg hnext,
      List.append_nil]
    exact (List.append_nil _).symm
  | bounce b =>
    rw [Ledger.apply, linesUnder_bounce, List.map_append, addedTo]
    congr 1
    split
    · exact map_kept_lineRows id _ [b.line]
    · rfl

theorem Agrees.linesOf_foldl {ws : List Write} (h : l.Agrees) (hid : id < l.deliveries.next)
    (hstays : id ∈ (ws.foldl Ledger.apply l).deliveries.ids) :
    (ws.foldl Ledger.apply l).linesOf id = l.linesOf id ++ (l.addedLater id ws).map kept := by
  induction ws generalizing l with
  | nil => exact (List.append_nil _).symm
  | cons w ws ih =>
    have hid' := Nat.lt_of_lt_of_le hid (next_le_apply l w)
    have hfirst := h.linesOf_apply hid (mem_ids_of_foldl hid' hstays)
    rw [List.foldl_cons, ih (h.apply w) hid' hstays, hfirst, addedLater, List.map_append,
      List.append_assoc]

/-- A delivery that was just added has its own lines. -/
theorem Agrees.linesOf_insert (h : l.Agrees) (d : Delivery) :
    (l.insert d).linesOf l.deliveries.next = d.lines.map kept := by
  have hfree : l.deliveries.next ∉ l.deliveries.ids := fun hmem =>
    Nat.lt_irrefl _ (Numbered.lt_next_of_mem_ids hmem)
  rw [(h.insert d).linesOf_eq, linesUnder_insert, if_pos rfl, h.linesUnder_eq_nil hfree,
    List.nil_append, map_kept_lineRows]

theorem Agrees.linesOf_added (h : l.Agrees) {d : Delivery} (hw : w.delivery? = some d) :
    (l.apply w).linesOf l.deliveries.next = d.lines.map kept := by
  cases w with
  | store e =>
    cases hw
    exact h.linesOf_insert d
  | replace e =>
    cases hw
    exact (h.withdraw d).linesOf_insert d
  | bounce b => cases hw

/-- The lines of a delivery that is still there are those it was added with, and after them those of
its bounces in their order. -/
theorem linesOf_after {before later : List Write} {d : Delivery} (hw : w.delivery? = some d)
    (hstays : added before + 1 ∈ (after (before ++ w :: later)).deliveries.ids) :
    (after (before ++ w :: later)).linesOf (added before + 1) =
      (d.lines ++ (after (before ++ [w])).addedLater (added before + 1) later).map kept := by
  have hsplit : after (before ++ w :: later) = later.foldl apply (after (before ++ [w])) := by
    rw [← List.singleton_append, ← List.append_assoc]
    exact List.foldl_append
  have hnext : added before + 1 < (after (before ++ [w])).deliveries.next := by
    rw [after_append, next_apply hw, next_eq]
    exact Nat.lt_succ_self _
  rw [hsplit] at hstays ⊢
  rw [(agrees_after (before ++ [w])).linesOf_foldl hnext hstays, List.map_append]
  congr 1
  rw [after_append, ← next_eq]
  exact (agrees_after before).linesOf_added hw

end Later

/-! ## Replacing -/

/-- A row is of the message of a delivery at its recipient. -/
def IsAtPlaceOf (d : Delivery) (row : Row) : Prop :=
  row.2.host = d.host ∧ row.2.queue = d.queue ∧ row.2.recipient = d.recipient.display

theorem isReplacedBy_iff {d : Delivery} {row : Row} :
    isReplacedBy d row = true ↔ IsAtPlaceOf d row ∧ row.2.status ≠ .deferred := by
  unfold isReplacedBy IsAtPlaceOf
  rw [Bool.and_eq_true, Bool.and_eq_true, Bool.and_eq_true, decide_eq_true_iff, decide_eq_true_iff,
    decide_eq_true_iff, decide_eq_true_iff, and_assoc, and_assoc]
  simp only [and_assoc]

/-- What putting a delivery in the place of the earlier results does to a ledger: it is the one
result at its place, and what was put off there and all other deliveries stay with their lines. -/
structure Supersedes (d : Delivery) (l l' : Ledger) : Prop where
  only : ∀ row, row ∈ l'.deliveries.rows ∧ IsAtPlaceOf d row ∧ row.2.status ≠ .deferred ↔
    row = (l.deliveries.next, .ofDelivery d)
  spared : ∀ row, ¬ (IsAtPlaceOf d row ∧ row.2.status ≠ .deferred) →
    (row ∈ l'.deliveries.rows ↔ row ∈ l.deliveries.rows)
  lines : ∀ row ∈ l.deliveries.rows, ¬ (IsAtPlaceOf d row ∧ row.2.status ≠ .deferred) →
    l'.linesUnder row.1 = l.linesUnder row.1

theorem supersedes_replace (l : Ledger) {d : Delivery} (hd : d.status ≠ .deferred) :
    Supersedes d l (l.replace d) := by
  have hnew : IsAtPlaceOf d (l.deliveries.next, .ofDelivery d) := ⟨rfl, rfl, rfl⟩
  have hrows : ∀ row, row ∈ (l.replace d).deliveries.rows ↔
      (row ∈ l.deliveries.rows ∧ ¬ (IsAtPlaceOf d row ∧ row.2.status ≠ .deferred)) ∨
        row = (l.deliveries.next, .ofDelivery d) := by
    intro row
    rw [Ledger.replace, mem_rows_insert, mem_rows_withdraw, isReplacedBy_iff]
    rfl
  constructor
  · intro row
    rw [hrows]
    constructor
    · rintro ⟨⟨-, hspared⟩ | rfl, hplace⟩
      · exact absurd hplace hspared
      · rfl
    · rintro rfl
      exact ⟨.inr rfl, hnew, hd⟩
  · intro row hspared
    rw [hrows]
    constructor
    · rintro (⟨hrow, -⟩ | rfl)
      · exact hrow
      · exact absurd ⟨hnew, hd⟩ hspared
    · exact fun hrow => .inl ⟨hrow, hspared⟩
  · intro row hrow hspared
    have hkept : row.1 ∉ l.replacedBy d := by
      have hmem := mem_rows_withdraw.2 ⟨hrow, mt isReplacedBy_iff.1 hspared⟩
      exact (mem_ids_withdraw.1 (List.mem_map_of_mem hmem)).2
    have hnext : row.1 ≠ (l.withdraw d).deliveries.next :=
      Nat.ne_of_lt (l.deliveries.bounded row hrow)
    rw [Ledger.replace, linesUnder_insert, linesUnder_withdraw, if_neg hkept, if_neg hnext,
      List.append_nil]

/-! ## Whatever is written -/

/-- **The tables agree.** After any writes the numbers ascend, every line belongs to a delivery that is
there, and the lines of each delivery have the positions 0, 1, 2, …

A delivery has a number above all that were ever given before, and as long as it is there its lines are
those it was added with, then those of its bounces in their order. Nothing else is there. If a result
replaces the earlier ones, it is the only one at its place, and all else stays. -/
theorem tables_agree (ws : List Write) :
    (after ws).deliveries.ids.Pairwise (· < ·) ∧ (after ws).Agrees ∧
      (∀ before w later d, ws = before ++ w :: later → w.delivery? = some d →
        (∀ earlier, earlier <+: before →
          ∀ id ∈ (after earlier).deliveries.ids, id < added before + 1) ∧
        (added before + 1, .ofDelivery d) ∈ (after (before ++ [w])).deliveries.rows ∧
        (added before + 1 ∈ (after ws).deliveries.ids →
          (after ws).linesOf (added before + 1) =
            (d.lines ++ (after (before ++ [w])).addedLater (added before + 1) later).map kept)) ∧
      (∀ row ∈ (after ws).deliveries.rows, ∃ before w later d, ws = before ++ w :: later ∧
        w.delivery? = some d ∧ row.1 = added before + 1 ∧ IsRowOf d row.2) ∧
      ∀ d, d.status ≠ .deferred → Supersedes d (after ws) (after (ws ++ [.replace d])) := by
  refine ⟨(after ws).deliveries.ascending, agrees_after ws, ?_, fun row => mem_rows_after, ?_⟩
  · rintro before w later d rfl hw
    refine ⟨?_, ?_, linesOf_after hw⟩
    · intro earlier hearlier id hid
      have hcount : added earlier ≤ added before := hearlier.sublist.countP_le
      exact Nat.lt_succ_of_le (Nat.le_trans (le_added_of_mem_ids hid) hcount)
    · rw [after_append, mem_rows_apply hw, next_eq]
      exact .inr rfl
  · intro d hd
    rw [after_append]
    exact supersedes_replace (after ws) hd

/-- A result of the message in queue A, learnt from the line of a second. -/
def resultIn (second : Int) (status : Status) : Delivery where
  host := "mail"
  queue := "A"
  originQueue := none
  messageId := none
  status := status
  direction := default
  queuedTime := .ofSecond second
  firstAttemptTime := .ofSecond second
  deliveryTime := .ofSecond second
  sender := ⟨"", ""⟩
  recipient := ⟨"user", "example.com"⟩
  origRecipient := none
  relay := default
  dsn := ""
  delay := default
  extraMessage := ""
  clientHost := none
  clientIp := none
  size := none
  recipients := none
  lines := [⟨.ofSecond second, second⟩]

/-- The message turns out to have bounced. -/
def bounceIn (second : Int) : BounceReport :=
  ⟨.ofSecond second, ⟨"", ""⟩, ⟨"user", "example.com"⟩, "5.1.1", "", "", ⟨.ofSecond second, second⟩⟩

/-- A message is put off, sent, and bounces after all: the line of the bounce comes after its own, and
the next result leaves what was put off. -/
theorem tables_agree_putOffThenBounced :
    (after [.store (resultIn 1 .deferred), .store (resultIn 2 .sent), .bounce (bounceIn 3)]).linesOf 2 =
        [(2, 2), (3, 3)] ∧
      Supersedes (resultIn 4 .sent)
        (after [.store (resultIn 1 .deferred), .store (resultIn 2 .sent), .bounce (bounceIn 3)])
        (after [.store (resultIn 1 .deferred), .store (resultIn 2 .sent), .bounce (bounceIn 3),
          .replace (resultIn 4 .sent)]) := by
  obtain ⟨-, -, hadded, -, hreplace⟩ := tables_agree
    [.store (resultIn 1 .deferred), .store (resultIn 2 .sent), .bounce (bounceIn 3)]
  refine ⟨?_, hreplace (resultIn 4 .sent) (by decide)⟩
  exact (hadded [_] _ [_] _ rfl rfl).2.2 (by decide)

end MailTrace.Ledger
