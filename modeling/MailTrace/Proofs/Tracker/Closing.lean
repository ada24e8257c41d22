import Mathlib.Data.List.Induction
import MailTrace.Proofs.Tracker.Changes
import MailTrace.Service.Stores
import MailTrace.Tracker.Closing

/-!
# What is told in any order of closing

In whatever order messages are closed together, the same is told of each.

1. What a record tells is what is told in the order in which messages were opened (`handle_eq_tellIn`).
2. Any other order leads to the same state and to the same findings in another order (`Tells.perm_run`,
   `TellsAll.perm_findings`).
-/

namespace MailTrace.Tracker

variable {settings : Settings} {s : State} {records rest : List Record} {found told : List Finding}

/-- What is told of records in order, when messages that are closed together are closed in any order. -/
inductive Tells (settings : Settings) : List Record → State → List Finding → Prop where
  | start : Tells settings [] .empty []
  | record {s : State} {records : List Record} {found : List Finding} {r : Record}
      {order : List QueueKey} (htells : Tells settings records s found)
      (horder : order.Perm (s.closedAfter settings r)) :
      Tells settings (records ++ [r]) (s.handle settings r).1 (found ++ s.tellIn r order)

/-- What is told of records, and then of the messages that are open after them. -/
def TellsAll (settings : Settings) (records : List Record) (told : List Finding) : Prop :=
  ∃ s found order, Tells settings records s found ∧ order.Perm s.entries.keys ∧
    told = found ++ s.closeIn order

theorem handle_eq_tellIn (settings : Settings) (s : State) (r : Record) :
    (s.handle settings r).2 = s.tellIn r (s.closedAfter settings r) := by
  simp only [State.handle, State.pruneIfDue, State.tellIn, State.closedAfter]
  split
  · rfl
  · rw [List.flatMap_map]
    rfl

theorem tellIn_perm {r : Record} {order : List QueueKey}
    (horder : order.Perm (s.closedAfter settings r)) :
    (s.tellIn r order).Perm (s.handle settings r).2 := by
  rw [handle_eq_tellIn]
  exact (horder.flatMap_right _).append_left _

theorem closeIn_perm {order : List QueueKey} (horder : order.Perm s.entries.keys) :
    (s.closeIn order).Perm s.closeAll.2 := horder.flatMap_right _

/-- Any order of closing leads to the same state, and to the same findings in some order. -/
theorem Tells.perm_run (h : Tells settings records s found) :
    s = (State.empty.run settings records).1 ∧
      found.Perm (State.empty.run settings records).2 := by
  induction h with
  | start => exact ⟨rfl, .refl _⟩
  | record _ horder ih =>
    obtain ⟨rfl, hperm⟩ := ih
    rw [State.run_concat]
    exact ⟨rfl, hperm.append (tellIn_perm horder)⟩

theorem tells_run (settings : Settings) (records : List Record) :
    Tells settings records (State.empty.run settings records).1
      (State.empty.run settings records).2 := by
  induction records using List.reverseRecOn with
  | nil => exact .start
  | append_singleton records r ih =>
    rw [State.run_concat, handle_eq_tellIn]
    exact .record ih (.refl _)

theorem TellsAll.perm_findings (h : TellsAll settings records told) :
    told.Perm (findings settings records) := by
  obtain ⟨s, found, order, htells, horder, rfl⟩ := h
  obtain ⟨rfl, hperm⟩ := htells.perm_run
  exact hperm.append (closeIn_perm horder)

/-- What the tracker tells when it closes messages in the order in which they were opened. -/
theorem tellsAll_findings (settings : Settings) (records : List Record) :
    TellsAll settings records (findings settings records) :=
  ⟨_, _, _, tells_run settings records, .refl _, rfl⟩

/-- What is told of the first records is told of all of them. -/
theorem Tells.subset_findings (h : Tells settings records s found) :
    found ⊆ findings settings (records ++ rest) := by
  intro x hx
  have hrun : x ∈ (State.empty.run settings records).2 := h.perm_run.2.mem_iff.1 hx
  refine List.mem_append_left _ ?_
  rw [State.run_append]
  exact List.mem_append_left _ hrun

end MailTrace.Tracker
