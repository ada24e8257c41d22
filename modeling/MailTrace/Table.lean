/-!
# Tables

Rows under distinct keys, in the order in which the keys came. Every operation is described by what
it does to `get?`.
-/

namespace MailTrace

/-- Rows under distinct keys. -/
structure Table (κ α : Type) where
  rows : List (κ × α)
  nodup : (rows.map (·.1)).Nodup

namespace Table

variable {κ α : Type}

/-- No rows. -/
def empty : Table κ α := ⟨[], by simp⟩

instance : Inhabited (Table κ α) := ⟨empty⟩

/-- The keys in order. -/
def keys (t : Table κ α) : List κ := t.rows.map (·.1)

/-- The number of rows. -/
def size (t : Table κ α) : Nat := t.rows.length

/-- The rows with a property. -/
def filter (p : κ × α → Bool) (t : Table κ α) : Table κ α :=
  ⟨t.rows.filter p, t.nodup.sublist (List.filter_sublist.map _)⟩

/-- The rows with their values changed. -/
def map (f : κ → α → α) (t : Table κ α) : Table κ α :=
  ⟨t.rows.map fun r => (r.1, f r.1 r.2), by
    have h : (t.rows.map fun r => (r.1, f r.1 r.2)).map (·.1) = t.rows.map (·.1) := by simp
    exact h ▸ t.nodup⟩

section Keys

variable [DecidableEq κ]

/-- The value under a key. -/
def get? (t : Table κ α) (k : κ) : Option α := (t.rows.find? (·.1 = k)).map (·.2)

/-- The key has a row. -/
def contains (t : Table κ α) (k : κ) : Bool := (t.get? k).isSome

theorem get?_eq_none_iff {t : Table κ α} {k : κ} : t.get? k = none ↔ k ∉ t.keys := by
  simp only [get?, keys, Option.map_eq_none_iff, List.find?_eq_none, List.mem_map, not_exists,
    not_and, decide_eq_true_eq]

theorem mem_keys_iff {t : Table κ α} {k : κ} : k ∈ t.keys ↔ (t.get? k).isSome := by
  have h : t.get? k = none ↔ k ∉ t.keys := get?_eq_none_iff
  by_cases hk : k ∈ t.keys <;> cases hg : t.get? k <;> simp_all

/-- The value under a key changed, if there is one. -/
def modify (t : Table κ α) (k : κ) (f : α → α) : Table κ α :=
  t.map fun k' a => if k' = k then f a else a

/-- The table without a key. -/
def erase (t : Table κ α) (k : κ) : Table κ α := t.filter (·.1 ≠ k)

/-- The value under a key changed, after a new row with the value `new` if there was none. -/
def upsert (t : Table κ α) (k : κ) (new : α) (f : α → α) : Table κ α :=
  if h : k ∈ t.keys then t.modify k f
  else ⟨t.rows ++ [(k, f new)], by
    rw [List.map_append]
    exact List.nodup_append.2 ⟨t.nodup, by simp, by
      intro a ha b hb e
      simp only [List.map_cons, List.map_nil, List.mem_singleton] at hb
      exact h (hb ▸ e ▸ ha)⟩⟩

@[simp] theorem get?_empty (k : κ) : (empty : Table κ α).get? k = none := rfl

theorem get?_map (t : Table κ α) (f : κ → α → α) (k : κ) :
    (t.map f).get? k = (t.get? k).map (f k) := by
  obtain ⟨rows, h⟩ := t
  simp only [get?, map]
  clear h
  induction rows with
  | nil => rfl
  | cons r rows ih =>
    by_cases hr : r.1 = k
    · simp [hr]
    · simpa [List.find?_cons, hr] using ih

theorem get?_modify (t : Table κ α) (k k' : κ) (f : α → α) :
    (t.modify k f).get? k' = if k' = k then (t.get? k').map f else t.get? k' := by
  rw [modify, get?_map]
  by_cases h : k' = k <;> simp [h]

theorem get?_filter_key (t : Table κ α) (p : κ → Bool) (k : κ) :
    (t.filter fun r => p r.1).get? k = if p k then t.get? k else none := by
  obtain ⟨rows, h⟩ := t
  simp only [get?, filter]
  clear h
  induction rows with
  | nil => simp
  | cons r rows ih =>
    by_cases hr : r.1 = k
    · by_cases hp : p k
      · simp [hr, hp]
      · simp only [hp, Bool.false_eq_true, if_false] at ih ⊢
        simpa [List.filter_cons, hr, hp] using ih
    · by_cases hp : p r.1
      · simpa [List.filter_cons, List.find?_cons, hr, hp] using ih
      · simpa [List.filter_cons, List.find?_cons, hr, hp] using ih

theorem get?_erase (t : Table κ α) (k k' : κ) :
    (t.erase k).get? k' = if k' = k then none else t.get? k' := by
  have := get?_filter_key t (fun a => decide (a ≠ k)) k'
  by_cases h : k' = k <;> simp_all [erase]

theorem get?_upsert (t : Table κ α) (k k' : κ) (new : α) (f : α → α) :
    (t.upsert k new f).get? k' = if k' = k then some (f ((t.get? k).getD new)) else t.get? k' := by
  unfold upsert
  split
  · rename_i h
    rw [get?_modify]
    rw [mem_keys_iff] at h
    by_cases hk : k' = k
    · subst hk
      cases ht : t.get? k' <;> simp_all
    · simp [hk]
  · rename_i h
    have hn := get?_eq_none_iff.2 h
    simp only [get?, List.find?_append] at hn ⊢
    by_cases hk : k' = k
    · subst hk
      simp only [Option.map_eq_none_iff] at hn
      simp [hn]
    · have : ¬ k = k' := fun e => hk e.symm
      simp [hk, this]

end Keys

end Table

end MailTrace
