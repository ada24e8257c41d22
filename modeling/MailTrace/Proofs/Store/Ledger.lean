import Mathlib.Data.List.Induction
import Mathlib.Data.List.Nodup
import MailTrace.Store.Ledger

/-!
# Rows of the ledger

As long as no bounce is written, the n-th write adds the row with the number n, and a row goes only if
a later write replaces it.

1. One write: a row is new, or it was there and is not replaced (`mem_rows_apply`).
2. All writes: a row is there if some write added it and no later one replaces it
   (`mem_rows_after_iff`).
3. What the writer of the ledger commits is what comes of the writes before the first one that cannot
   be done (`effect_actions`).
-/

namespace MailTrace.Ledger

/-- The ledger after some writes. -/
def after (ws : List Write) : Ledger := ws.foldl apply .empty

theorem after_append (ws : List Write) (w : Write) : after (ws ++ [w]) = (after ws).apply w := by
  unfold after
  rw [List.foldl_append, List.foldl_cons, List.foldl_nil]

/-! ## One write -/

/-- The delivery that a write adds. -/
def Write.delivery? : Write → Option Delivery
  | .store d | .replace d => some d
  | .bounce _ => none

/-- To the ledger the two deliveries are of one message at one recipient: it knows recipients as they
are shown. -/
structure SamePlace (d e : Delivery) : Prop where
  host : d.host = e.host
  queue : d.queue = e.queue
  recipient : d.recipient.display = e.recipient.display

/-- The write puts another result in the place of a delivery. -/
def Write.Replaces (w : Write) (d : Delivery) : Prop :=
  ∃ e, w = .replace e ∧ SamePlace d e ∧ d.status ≠ .deferred

theorem SamePlace.trans {d e f : Delivery} (h : SamePlace d e) (h' : SamePlace e f) :
    SamePlace d f :=
  ⟨h.host.trans h'.host, h.queue.trans h'.queue, h.recipient.trans h'.recipient⟩

theorem SamePlace.symm {d e : Delivery} (h : SamePlace d e) : SamePlace e d :=
  ⟨h.host.symm, h.queue.symm, h.recipient.symm⟩

theorem isReplacedBy_ofDelivery (d e : Delivery) (n : Nat) :
    isReplacedBy e (n, .ofDelivery d) = true ↔ SamePlace d e ∧ d.status ≠ .deferred := by
  unfold isReplacedBy DeliveryRow.ofDelivery
  rw [Bool.and_eq_true, Bool.and_eq_true, Bool.and_eq_true, decide_eq_true_iff, decide_eq_true_iff,
    decide_eq_true_iff, decide_eq_true_iff]
  constructor
  · rintro ⟨⟨⟨hhost, hqueue⟩, hrecipient⟩, hstatus⟩
    exact ⟨⟨hhost, hqueue, hrecipient⟩, hstatus⟩
  · rintro ⟨⟨hhost, hqueue, hrecipient⟩, hstatus⟩
    exact ⟨⟨⟨hhost, hqueue⟩, hrecipient⟩, hstatus⟩

section Apply

variable {l : Ledger} {w : Write} {d : Delivery} {row : Row}

theorem mem_replacedBy_iff {id : Nat} :
    id ∈ l.replacedBy d ↔ ∃ r ∈ l.deliveries.rows, r.1 = id ∧ isReplacedBy d r = true := by
  simp only [replacedBy, List.mem_map, List.mem_filter]
  constructor
  · rintro ⟨r, ⟨hr, hd⟩, rfl⟩
    exact ⟨r, hr, rfl, hd⟩
  · rintro ⟨r, hr, rfl, hd⟩
    exact ⟨r, ⟨hr, hd⟩, rfl⟩

/-- Rows are withdrawn by their numbers, which no other row has. -/
theorem mem_rows_withdraw :
    row ∈ (l.withdraw d).deliveries.rows ↔
      row ∈ l.deliveries.rows ∧ ¬ isReplacedBy d row = true := by
  show row ∈ l.deliveries.rows.filter (fun r => !decide (r.1 ∈ l.replacedBy d)) ↔ _
  rw [List.mem_filter, Bool.not_eq_true', decide_eq_false_iff_not, mem_replacedBy_iff]
  refine and_congr_right fun hrow => not_congr ?_
  constructor
  · rintro ⟨r, hr, hnumber, hd⟩
    rwa [← List.inj_on_of_nodup_map l.deliveries.nodup_ids hr hrow hnumber]
  · intro hd
    exact ⟨row, hrow, rfl, hd⟩

theorem next_apply (h : w.delivery? = some d) :
    (l.apply w).deliveries.next = l.deliveries.next + 1 := by
  cases w with
  | store e => rfl
  | replace e => rfl
  | bounce b => cases h

theorem mem_rows_insert :
    row ∈ (l.insert d).deliveries.rows ↔
      row ∈ l.deliveries.rows ∨ row = (l.deliveries.next, .ofDelivery d) := by
  show row ∈ l.deliveries.rows ++ [(l.deliveries.next, .ofDelivery d)] ↔ _
  rw [List.mem_append, List.mem_singleton]

/-- A write adds a row and takes away the rows it replaces. -/
theorem mem_rows_apply (h : w.delivery? = some d) :
    row ∈ (l.apply w).deliveries.rows ↔
      (row ∈ l.deliveries.rows ∧ ∀ e, w = .replace e → ¬ isReplacedBy e row = true) ∨
        row = (l.deliveries.next, .ofDelivery d) := by
  cases w with
  | store e =>
    cases h
    rw [apply, mem_rows_insert]
    simp
  | replace e =>
    cases h
    rw [apply, replace, mem_rows_insert, mem_rows_withdraw]
    simp only [Write.replace.injEq, forall_eq']
    rfl
  | bounce b => cases h

end Apply

/-! ## All writes -/

/-- Every write adds a row. -/
def Adding (ws : List Write) : Prop := ∀ w ∈ ws, ∃ d, w.delivery? = some d

section After

variable {ws : List Write} {row : Row} {d : Delivery}

theorem next_after (h : Adding ws) : (after ws).deliveries.next = ws.length + 1 := by
  induction ws using List.reverseRecOn with
  | nil => rfl
  | append_singleton ws w ih =>
    obtain ⟨d, hd⟩ := h w (by simp)
    rw [after_append, next_apply hd, ih fun v hv => h v (List.mem_append_left _ hv)]
    simp

/-- A row is the one that a write added, and no later write replaces it. -/
theorem mem_rows_after_iff (h : Adding ws) :
    row ∈ (after ws).deliveries.rows ↔
      ∃ before w later d, ws = before ++ w :: later ∧ w.delivery? = some d ∧
        row = (before.length + 1, .ofDelivery d) ∧ ∀ v ∈ later, ¬ v.Replaces d := by
  induction ws using List.reverseRecOn with
  | nil => simp [after, Ledger.empty, Numbered.empty]
  | append_singleton ws w ih =>
    have hws : Adding ws := fun v hv => h v (List.mem_append_left _ hv)
    obtain ⟨d, hd⟩ := h w (by simp)
    rw [after_append, mem_rows_apply hd, next_after hws, ih hws]
    constructor
    · rintro (⟨⟨before, v, later, e, rfl, hv, rfl, hlater⟩, hkept⟩ | rfl)
      · refine ⟨before, v, later ++ [w], e, by simp, hv, rfl, ?_⟩
        intro u hu
        rcases List.mem_append.1 hu with hu | hu
        · exact hlater u hu
        · rw [List.mem_singleton.1 hu]
          rintro ⟨f, rfl, hplace⟩
          exact hkept f rfl ((isReplacedBy_ofDelivery _ _ _).2 hplace)
      · exact ⟨ws, w, [], d, rfl, hd, rfl, fun _ hv => absurd hv List.not_mem_nil⟩
    · rintro ⟨before, v, later, e, hsplit, hv, rfl, hlater⟩
      -- the row is that of the last write, or it was there and the last write spares it
      cases later using List.reverseRecOn with
      | nil =>
        obtain ⟨rfl, hw⟩ := List.append_inj' hsplit rfl
        cases hw
        rw [hd] at hv
        exact .inr (by rw [Option.some.inj hv])
      | append_singleton later u =>
        rw [← List.cons_append, ← List.append_assoc] at hsplit
        obtain ⟨rfl, hu⟩ := List.append_inj' hsplit rfl
        cases hu
        refine .inl ⟨⟨before, v, later, e, rfl, hv, rfl, fun u hu => hlater u (by simp [hu])⟩, ?_⟩
        rintro f rfl hf
        exact hlater _ (by simp) ⟨f, rfl, (isReplacedBy_ofDelivery _ _ _).1 hf⟩

end After

/-! ## What is committed -/

/-- The write can be done: the delay of its delivery is a number. -/
def Write.isPossible (w : Write) : Bool := w.delivery?.all fun d => !d.delay.isNaN

theorem action_of_isPossible {w : Write} (h : w.isPossible = true) (l : Ledger) :
    w.action l = .done (l.apply w) := by
  cases w with
  | store d =>
    have hd : d.delay.isNaN = false := by simpa [Write.isPossible, Write.delivery?] using h
    rw [Write.action, hd]
    rfl
  | replace d =>
    have hd : d.delay.isNaN = false := by simpa [Write.isPossible, Write.delivery?] using h
    rw [Write.action, hd]
    rfl
  | bounce b => rfl

theorem action_of_not_isPossible {w : Write} (h : w.isPossible = false) (l : Ledger) :
    ∃ l', w.action l = .failed l' insertFault := by
  cases w with
  | store d =>
    have hd : d.delay.isNaN = true := by simpa [Write.isPossible, Write.delivery?] using h
    exact ⟨l, by rw [Write.action, hd]; rfl⟩
  | replace d =>
    have hd : d.delay.isNaN = true := by simpa [Write.isPossible, Write.delivery?] using h
    exact ⟨l.withdraw d, by rw [Write.action, hd]; rfl⟩
  | bounce b => cases h

theorem effect_actions (l : Ledger) (ws : List Write) :
    (Writer.effect l (ws.map (·.action))).1 = (ws.takeWhile (·.isPossible)).foldl apply l := by
  induction ws generalizing l with
  | nil => rfl
  | cons w ws ih =>
    rw [List.map_cons, Writer.effect]
    cases hw : w.isPossible with
    | true =>
      rw [action_of_isPossible hw, List.takeWhile_cons_of_pos hw]
      exact ih (l.apply w)
    | false =>
      obtain ⟨l', hl'⟩ := action_of_not_isPossible hw l
      rw [hl', List.takeWhile_cons_of_neg (by rw [hw]; exact Bool.false_ne_true)]
      rfl

end MailTrace.Ledger
