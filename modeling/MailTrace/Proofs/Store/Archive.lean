import Mathlib.Data.List.Induction
import Mathlib.Data.List.Nodup
import MailTrace.Store.Archive

/-!
# The archive after writes

Which rows an archive has after any writes, and in which order it lists them. Rows keep the order in
which they were added and have distinct positive numbers, and a listing is sorted by second and
number.
-/

namespace MailTrace

open MailTrace.Time

namespace Archive

/-! ## Histories -/

/-- A write to the archive. -/
inductive Write where
  | insert (r : Record)
  | clean (maxAge : Duration) (batch : Int)

/-- The record whose line is kept. -/
def Write.record? : Write → Option Record
  | insert r => some r
  | clean .. => none

/-- What a write makes of the archive. -/
def apply (a : Archive) : Write → Archive
  | .insert r => a.add r
  | .clean maxAge batch => a.clean maxAge batch

/-- The archive after writes in order. -/
def after (ws : List Write) : Archive := ws.foldl apply empty

theorem after_append (ws : List Write) (w : Write) : after (ws ++ [w]) = (after ws).apply w := by
  simp [after]

/-- The line of a record as it is kept. -/
def lineOf (r : Record) : ArchivedLine := ⟨r.time.second, r.sum, r.line⟩

theorem rows_add (a : Archive) (r : Record) :
    (a.add r).lines.rows = a.lines.rows ++ [(a.lines.next, lineOf r)] := rfl

theorem rows_clean_sublist (a : Archive) (maxAge : Duration) (batch : Int) :
    (a.clean maxAge batch).lines.rows.Sublist a.lines.rows := List.filter_sublist

/-- The lines that are kept are some of those of the records, in the order of the writes. -/
theorem lines_after_sublist (ws : List Write) :
    ((after ws).lines.rows.map (·.2)).Sublist ((ws.filterMap Write.record?).map lineOf) := by
  induction ws using List.reverseRecOn with
  | nil => exact List.Sublist.refl _
  | append_singleton ws w ih =>
    rw [after_append, List.filterMap_append, List.map_append]
    cases w with
    | insert r =>
      rw [apply, rows_add, List.map_append]
      exact ih.append (List.Sublist.refl _)
    | clean maxAge batch =>
      exact ((rows_clean_sublist _ maxAge batch).map _).trans
        (ih.trans (List.sublist_append_left _ _))

theorem number_pos_after (ws : List Write) :
    0 < (after ws).lines.next ∧ ∀ r ∈ (after ws).lines.rows, 0 < r.1 := by
  induction ws using List.reverseRecOn with
  | nil => exact ⟨Nat.one_pos, fun _ hr => absurd hr List.not_mem_nil⟩
  | append_singleton ws w ih =>
    rw [after_append]
    cases w with
    | insert r =>
      refine ⟨Nat.succ_pos _, fun s hs => ?_⟩
      rcases List.mem_append.1 hs with hs | hs
      · exact ih.2 s hs
      · rw [List.mem_singleton.1 hs]
        exact ih.1
    | clean maxAge batch =>
      exact ⟨ih.1, fun s hs => ih.2 s ((rows_clean_sublist _ maxAge batch).subset hs)⟩

/-! ## Limits -/

theorem limit_of_nonneg {α : Type} {size : Int} (h : 0 ≤ size) (items : List α) :
    limit size items = items.take size.toNat := if_neg (Int.not_lt.2 h)

theorem mem_of_mem_limit {α : Type} {size : Int} {items : List α} {x : α}
    (h : x ∈ limit size items) : x ∈ items := by
  unfold limit at h
  split at h
  · exact h
  · exact List.mem_of_mem_take h

/-! ## The order of a listing -/

theorem precedes_iff {r s : Row} :
    precedes r s = true ↔
      r.2.second < s.2.second ∨ (r.2.second = s.2.second ∧ r.1 ≤ s.1) := by
  simp [precedes]

theorem precedes_trans (r s t : Row) (h₁ : precedes r s = true) (h₂ : precedes s t = true) :
    precedes r t = true := by
  rw [precedes_iff] at *
  omega

theorem precedes_total (r s : Row) : (precedes r s || precedes s r) = true := by
  rw [Bool.or_eq_true, precedes_iff, precedes_iff]
  omega

theorem second_le_of_precedes {r s : Row} (h : precedes r s = true) :
    r.2.second ≤ s.2.second := by
  rw [precedes_iff] at h
  omega

theorem listing_sorted (a : Archive) (p : Row → Bool) :
    (a.listing p).Pairwise fun r s => precedes r s = true :=
  List.pairwise_mergeSort precedes_trans precedes_total _

theorem mem_listing {a : Archive} {p : Row → Bool} {r : Row} :
    r ∈ a.listing p ↔ r ∈ a.lines.rows ∧ p r = true := by
  rw [listing, List.mem_mergeSort, List.mem_filter]

theorem rows_nodup (a : Archive) : a.lines.rows.Nodup :=
  List.Nodup.of_map _ a.lines.nodup_ids

theorem listing_nodup (a : Archive) (p : Row → Bool) : (a.listing p).Nodup :=
  (List.mergeSort_perm _ _).nodup_iff.2 (a.rows_nodup.filter _)

theorem eq_of_number_eq {a : Archive} {r s : Row} (hr : r ∈ a.lines.rows) (hs : s ∈ a.lines.rows)
    (h : r.1 = s.1) : r = s :=
  List.inj_on_of_nodup_map a.lines.nodup_ids hr hs h

/-- A listing of fewer rows is that part of the listing. -/
theorem listing_and (a : Archive) (p q : Row → Bool) :
    a.listing (fun r => p r && q r) = (a.listing p).filter q := by
  have hsorted : ((a.listing p).filter q).Pairwise fun r s => precedes r s = true :=
    (a.listing_sorted p).filter q
  refine List.Perm.eq_of_pairwise ?_ (a.listing_sorted _) hsorted ?_
  · intro r s hr hs h₁ h₂
    rw [precedes_iff] at h₁ h₂
    exact eq_of_number_eq (mem_listing.1 hr).1 (mem_listing.1 (List.mem_filter.1 hs).1).1 (by omega)
  · have h := (List.mergeSort_perm (a.lines.rows.filter p) precedes).filter q
    rw [List.filter_filter] at h
    refine (List.mergeSort_perm _ _).trans (List.Perm.trans (List.Perm.of_eq ?_) h.symm)
    exact List.filter_congr fun r _ => Bool.and_comm _ _

end Archive

end MailTrace
