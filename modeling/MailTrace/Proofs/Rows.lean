import Mathlib.Data.List.Basic
import MailTrace.Table

/-!
# Rows of tables

Which rows a table has, how many of them have a property, and how these numbers change when the
value under one key does. A table can be cut down to some of its keys (`only`): what is done under one
of them is done to the cut table, and what is done under another is not seen in it.
-/

namespace MailTrace.Table

variable {κ α β : Type} [DecidableEq κ]

/-- The rows under a key are the one that is looked up. -/
theorem filter_key_eq (t : Table κ α) (k : κ) :
    t.rows.filter (fun r => r.1 = k) = ((t.get? k).map fun a => (k, a)).toList := by
  obtain ⟨rows, h⟩ := t
  simp only [get?]
  induction rows with
  | nil => rfl
  | cons r rows ih =>
    obtain ⟨hr, hrows⟩ := List.nodup_cons.1 h
    rw [List.filter_cons, List.find?_cons]
    by_cases hk : r.1 = k
    · have hrest : rows.filter (fun s => decide (s.1 = k)) = [] :=
        List.filter_eq_nil_iff.2 fun s hs => by
          rw [decide_eq_true_eq, ← hk]
          exact fun e => hr (List.mem_map.2 ⟨s, hs, e⟩)
      simp only [hk, decide_true, if_true, hrest, Option.map_some, Option.toList_some]
      rw [← hk]
    · simp only [hk, decide_false, Bool.false_eq_true, if_false]
      exact ih hrows

theorem mem_rows_iff {t : Table κ α} {k : κ} {a : α} : (k, a) ∈ t.rows ↔ t.get? k = some a := by
  have h : (k, a) ∈ t.rows ↔ (k, a) ∈ t.rows.filter fun r => r.1 = k := by simp
  rw [h, filter_key_eq]
  cases t.get? k <;> simp [eq_comm]

theorem get?_filter (t : Table κ α) (p : κ × α → Bool) (k : κ) :
    (t.filter p).get? k = (t.get? k).filter fun a => p (k, a) := by
  ext a
  rw [← mem_rows_iff, Option.filter_eq_some_iff, ← mem_rows_iff]
  exact List.mem_filter

theorem contains_iff {t : Table κ α} {k : κ} : t.contains k = true ↔ ∃ a, t.get? k = some a := by
  rw [contains, Option.isSome_iff_exists]

theorem contains_eq_false_iff {t : Table κ α} {k : κ} : t.contains k = false ↔ t.get? k = none := by
  rw [contains, Option.isSome_eq_false_iff, Option.isNone_iff_eq_none]

/-! ## Counting -/

/-- The number of rows with a property. -/
def count (p : κ → α → Bool) (t : Table κ α) : Nat := t.rows.countP fun r => p r.1 r.2

/-- Rows are counted with and without the one under a key. -/
theorem count_eq_erase_add (p : κ → α → Bool) (t : Table κ α) (k : κ) :
    t.count p = (t.erase k).count p + if (t.get? k).any (p k) then 1 else 0 := by
  have hkey : (t.rows.filter fun r => r.1 = k).countP (fun r => p r.1 r.2) =
      if (t.get? k).any (p k) then 1 else 0 := by
    rw [filter_key_eq]
    cases t.get? k <;> simp [List.countP_cons]
  rw [count, List.countP_eq_countP_filter_add _ _ (fun r => decide (r.1 = k)), hkey, Nat.add_comm]
  simp [count, erase, filter]

theorem erase_modify (t : Table κ α) (k : κ) (f : α → α) : (t.modify k f).erase k = t.erase k := by
  obtain ⟨rows, h⟩ := t
  simp only [modify, map, erase, filter, mk.injEq]
  clear h
  induction rows with
  | nil => rfl
  | cons r rows ih => by_cases hk : r.1 = k <;> simp_all

theorem erase_upsert (t : Table κ α) (k : κ) (new : α) (f : α → α) :
    (t.upsert k new f).erase k = t.erase k := by
  unfold upsert
  split
  · exact erase_modify t k f
  · simp [erase, filter, List.filter_append]

theorem count_pos_iff {p : κ → α → Bool} {t : Table κ α} :
    0 < t.count p ↔ ∃ k a, t.get? k = some a ∧ p k a = true := by
  rw [count, List.countP_pos_iff]
  constructor
  · rintro ⟨⟨k, a⟩, hm, hp⟩
    exact ⟨k, a, mem_rows_iff.1 hm, hp⟩
  · rintro ⟨k, a, hg, hp⟩
    exact ⟨(k, a), mem_rows_iff.2 hg, hp⟩

/-! ## One key -/

/-- What is drawn from the rows is drawn from the one under a key if the others give nothing. -/
theorem flatMap_rows {t : Table κ α} {g : κ × α → List β} {k : κ}
    (h : ∀ r ∈ t.rows, r.1 ≠ k → g r = []) :
    t.rows.flatMap g = ((t.get? k).map fun a => g (k, a)).getD [] := by
  have hkey : ∀ rows : List (κ × α), (∀ r ∈ rows, r.1 ≠ k → g r = []) →
      rows.flatMap g = (rows.filter fun r => r.1 = k).flatMap g := by
    intro rows hrows
    induction rows with
    | nil => rfl
    | cons r rows ih =>
      have hrest := ih fun s hs => hrows s (List.mem_cons_of_mem _ hs)
      rw [List.filter_cons, List.flatMap_cons, hrest]
      by_cases hk : r.1 = k
      · rw [if_pos (decide_eq_true hk), List.flatMap_cons]
      · rw [if_neg (by simpa using hk), hrows r List.mem_cons_self hk, List.nil_append]
  rw [hkey t.rows h, filter_key_eq]
  cases t.get? k <;> simp

/-- What is drawn from rows and labelled with their keys is drawn from one row for each label. -/
theorem filter_filterMap_rows {t : Table κ α} {g : α → Option β} {label : β → κ}
    (h : ∀ k a b, t.get? k = some a → g a = some b → label b = k) (k : κ) :
    (t.rows.filterMap fun r => g r.2).filter (fun b => label b = k) =
      ((t.get? k).bind g).toList := by
  have hlabel : ∀ r ∈ t.rows, (g r.2).toList.filter (fun b => label b = k) =
      if r.1 = k then (g r.2).toList else [] := by
    intro r hr
    cases hg : g r.2 with
    | none => simp
    | some b => simp [h r.1 r.2 b (mem_rows_iff.1 hr) hg, List.filter_cons]
  rw [List.filterMap_eq_flatMap_toList, List.filter_flatMap, flatMap_rows (k := k)]
  · cases hk : t.get? k with
    | none => rfl
    | some a => simpa using hlabel (k, a) (mem_rows_iff.2 hk)
  · intro r hr hk
    rw [hlabel r hr, if_neg hk]

/-! ## Some of the keys -/

/-- The rows under some of the keys. -/
def only (K : κ → Bool) (t : Table κ α) : Table κ α := t.filter fun r => K r.1

omit [DecidableEq κ] in
theorem ext_rows {t u : Table κ α} (h : t.rows = u.rows) : t = u := by
  cases t
  cases u
  cases h
  rfl

/-! ## Changes of all rows -/

omit [DecidableEq κ] in
theorem map_map (t : Table κ α) (f g : κ → α → α) :
    (t.map f).map g = t.map fun k a => g k (f k a) :=
  ext_rows (List.map_map ..)

omit [DecidableEq κ] in
theorem map_congr {t : Table κ α} {f g : κ → α → α} (h : ∀ r ∈ t.rows, f r.1 r.2 = g r.1 r.2) :
    t.map f = t.map g :=
  ext_rows (List.map_congr_left fun r hr => by rw [h r hr])

omit [DecidableEq κ] in
theorem map_eq_self {t : Table κ α} {f : κ → α → α} (h : ∀ r ∈ t.rows, f r.1 r.2 = r.2) :
    t.map f = t := by
  have hrow : ∀ r ∈ t.rows, (r.1, f r.1 r.2) = id r := fun r hr => Prod.ext rfl (h r hr)
  exact ext_rows ((List.map_congr_left hrow).trans (List.map_id t.rows))

section Only

variable {K : κ → Bool} {t : Table κ α} {k : κ}

omit [DecidableEq κ] in
theorem only_only (K L : κ → Bool) (t : Table κ α) :
    (t.only K).only L = t.only fun k => L k && K k :=
  ext_rows List.filter_filter

omit [DecidableEq κ] in
theorem of_mem_only {r : κ × α} (h : r ∈ (t.only K).rows) : K r.1 = true := (List.mem_filter.1 h).2

theorem get?_only (K : κ → Bool) (t : Table κ α) (k : κ) :
    (t.only K).get? k = if K k then t.get? k else none := get?_filter_key ..

theorem get?_only_of_mem (hk : K k = true) : (t.only K).get? k = t.get? k := by
  rw [get?_only, if_pos hk]

theorem get?_only_of_not_mem (hk : K k = false) : (t.only K).get? k = none := by
  rw [get?_only, if_neg (by simp [hk])]

theorem mem_keys_only (hk : K k = true) : k ∈ (t.only K).keys ↔ k ∈ t.keys := by
  rw [mem_keys_iff, mem_keys_iff, get?_only_of_mem hk]

omit [DecidableEq κ] in
theorem only_map (K : κ → Bool) (t : Table κ α) (f : κ → α → α) :
    (t.map f).only K = (t.only K).map f := by
  apply ext_rows
  simp only [only, filter, map, List.filter_map]
  rfl

omit [DecidableEq κ] in
theorem only_filter (K : κ → Bool) (t : Table κ α) (p : κ × α → Bool) :
    (t.filter p).only K = (t.only K).filter p := by
  apply ext_rows
  simp only [only, filter, List.filter_filter, Bool.and_comm]

theorem only_modify (K : κ → Bool) (t : Table κ α) (k : κ) (f : α → α) :
    (t.modify k f).only K = (t.only K).modify k f := only_map ..

theorem only_erase (K : κ → Bool) (t : Table κ α) (k : κ) :
    (t.erase k).only K = (t.only K).erase k := only_filter ..

theorem only_upsert (hk : K k = true) (t : Table κ α) (new : α) (f : α → α) :
    (t.upsert k new f).only K = (t.only K).upsert k new f := by
  unfold upsert
  by_cases h : k ∈ t.keys
  · rw [dif_pos h, dif_pos ((mem_keys_only hk).2 h), only_modify]
  · rw [dif_neg h, dif_neg (mt (mem_keys_only hk).1 h)]
    apply ext_rows
    simp [only, filter, List.filter_append, hk]

/-- A change under a key that has no row changes nothing. -/
theorem modify_eq_self (h : t.get? k = none) (f : α → α) : t.modify k f = t := by
  apply ext_rows
  refine (List.map_congr_left fun r hr => ?_).trans (List.map_id t.rows)
  have hne : r.1 ≠ k := by
    rintro rfl
    rw [mem_rows_iff.1 hr] at h
    cases h
  simp [hne]

theorem erase_eq_self (h : t.get? k = none) : t.erase k = t := by
  apply ext_rows
  refine List.filter_eq_self.2 fun r hr => decide_eq_true ?_
  rintro rfl
  rw [mem_rows_iff.1 hr] at h
  cases h

theorem only_modify_of_not_mem (hk : K k = false) (t : Table κ α) (f : α → α) :
    (t.modify k f).only K = t.only K := by
  rw [only_modify, modify_eq_self (get?_only_of_not_mem hk)]

theorem only_erase_of_not_mem (hk : K k = false) (t : Table κ α) :
    (t.erase k).only K = t.only K := by
  rw [only_erase, erase_eq_self (get?_only_of_not_mem hk)]

theorem only_upsert_of_not_mem (hk : K k = false) (t : Table κ α) (new : α) (f : α → α) :
    (t.upsert k new f).only K = t.only K := by
  unfold upsert
  split
  · exact only_modify_of_not_mem hk t f
  · apply ext_rows
    simp [only, filter, List.filter_append, hk]

omit [DecidableEq κ] in
/-- The rows under some keys and those under the others are all rows. -/
theorem rows_only_perm (K : κ → Bool) (t : Table κ α) :
    ((t.only K).rows ++ (t.only fun k => !K k).rows).Perm t.rows :=
  List.filter_append_perm (fun r : κ × α => K r.1) t.rows

end Only

end MailTrace.Table
