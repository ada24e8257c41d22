/-!
# Numbered rows

Rows that get the numbers 1, 2, 3, … as they are added. The number of a row that was deleted is not
given out again.
-/

namespace MailTrace

/-- Rows with their numbers, in the order in which they were added. -/
structure Numbered (α : Type) where
  rows : List (Nat × α)
  /-- The number of the next row. -/
  next : Nat
  ascending : (rows.map (·.1)).Pairwise (· < ·)
  bounded : ∀ r ∈ rows, r.1 < next

namespace Numbered

variable {α : Type}

/-- No rows. -/
def empty : Numbered α := ⟨[], 1, by simp, by simp⟩

instance : Inhabited (Numbered α) := ⟨empty⟩

/-- The numbers of the rows. -/
def ids (t : Numbered α) : List Nat := t.rows.map (·.1)

/-- One more row. -/
def push (t : Numbered α) (a : α) : Numbered α where
  rows := t.rows ++ [(t.next, a)]
  next := t.next + 1
  ascending := by
    rw [List.map_append, List.pairwise_append]
    refine ⟨t.ascending, by simp, ?_⟩
    intro i hi j hj
    obtain ⟨r, hr, rfl⟩ := List.mem_map.1 hi
    simp only [List.map_cons, List.map_nil, List.mem_singleton] at hj
    exact hj ▸ t.bounded r hr
  bounded := by
    intro r hr
    rcases List.mem_append.1 hr with hr | hr
    · exact Nat.lt_succ_of_lt (t.bounded r hr)
    · simp only [List.mem_singleton] at hr
      exact hr ▸ Nat.lt_succ_self _

/-- The rows with a property. -/
def filter (p : Nat × α → Bool) (t : Numbered α) : Numbered α where
  rows := t.rows.filter p
  next := t.next
  ascending := t.ascending.sublist (List.filter_sublist.map _)
  bounded r hr := t.bounded r ((List.mem_filter.1 hr).1)

/-- The rows with their values changed. -/
def map (f : Nat → α → α) (t : Numbered α) : Numbered α where
  rows := t.rows.map fun r => (r.1, f r.1 r.2)
  next := t.next
  ascending := by
    have h : (t.rows.map fun r => (r.1, f r.1 r.2)).map (·.1) = t.rows.map (·.1) := by simp
    exact h ▸ t.ascending
  bounded r hr := by
    obtain ⟨s, hs, rfl⟩ := List.mem_map.1 hr
    exact t.bounded s hs

@[simp] theorem ids_empty : (empty : Numbered α).ids = [] := rfl

@[simp] theorem ids_push (t : Numbered α) (a : α) : (t.push a).ids = t.ids ++ [t.next] := by
  simp [ids, push]

@[simp] theorem ids_map (f : Nat → α → α) (t : Numbered α) : (t.map f).ids = t.ids := by
  simp [ids, map]

theorem nodup_ids (t : Numbered α) : t.ids.Nodup :=
  t.ascending.imp fun h => Nat.ne_of_lt h

theorem lt_next_of_mem_ids {t : Numbered α} {i : Nat} (h : i ∈ t.ids) : i < t.next := by
  obtain ⟨r, hr, rfl⟩ := List.mem_map.1 h
  exact t.bounded r hr

end Numbered

end MailTrace
