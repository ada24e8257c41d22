import MailTrace.Proofs.Store.Writer
import MailTrace.Store.Keeper

/-!
# What a keeper does

A keeper does the jobs that it is sent in their order, whenever it commits or is asked to stop.

1. What was done and what waits are together what was sent (`Kept`). Every move keeps it so.
2. A keeper at its end has nothing that waits, and all it did is committed.
3. A keeper that was asked to stop can come to its end, and one without room can make room
   (`exists_nears_of_asked`, `exists_nears_of_full`).
-/

namespace MailTrace

namespace Task.Phase

theorem active_or_over (p : Phase) : p.Active ∨ p.Over := by
  cases p with
  | working | draining => exact .inl trivial
  | ended | failed => exact .inr trivial

theorem Active.not_over {p : Phase} (h : p.Active) : ¬ p.Over := by
  cases p with
  | working | draining => exact id
  | ended | failed => exact h.elim

theorem Active.working_or_draining {p : Phase} (h : p.Active) : p = .working ∨ p = .draining := by
  cases p with
  | working => exact .inl rfl
  | draining => exact .inr rfl
  | ended | failed => exact h.elim

theorem Active.ne_ended {p : Phase} (h : p.Active) : p ≠ .ended := by
  rintro rfl
  exact h

theorem Active.ne_failed {p : Phase} (h : p.Active) : p ≠ .failed := by
  rintro rfl
  exact h

/-- How many turns of its phase a task has before it. -/
def weight : Phase → Nat
  | working => 2
  | draining => 1
  | ended | failed => 0

theorem Active.weight_pos {p : Phase} (h : p.Active) : 0 < p.weight := by
  cases p with
  | working | draining => decide
  | ended | failed => exact h.elim

end Task.Phase

namespace Writer

variable {σ : Type} {w w' : Writer σ} {a : Action σ}

theorem Leads.concat {s s' s'' : σ} {as : List (Action σ)} (h : Leads s as s')
    (ha : a s' = .done s'') : Leads s (as ++ [a]) s'' := by
  induction h with
  | nil => exact .cons ha (.nil _)
  | cons h _ ih => exact .cons h (ih ha)

/-- A write that does not fail is done in the transaction. -/
theorem done_of_execute (h : w.execute a = (w', none)) : a w.current = .done w'.current := by
  cases ha : a w.current with
  | done s =>
    rw [execute_of_done ha] at h
    cases h
    rfl
  | failed s cause =>
    rw [execute_of_failed ha] at h
    cases h

end Writer

namespace Keeper

open Writer

variable {σ J : Type} {d : Duties σ J} {asked : Prop} {s : σ} {given : List J} {k k' : Keeper σ J}

/-- The jobs that a keeper was given are done, but for those that wait, and none of them leads to
another. -/
structure Kept (d : Duties σ J) (s : σ) (given : List J) (k : Keeper σ J) : Prop where
  quiet : ∀ j ∈ k.queue, ∀ s, d.again? s j = none
  later : k.later = []
  done : k.phase ≠ .failed → k.cleaned = false →
    ∃ before, given = before ++ k.queue ∧ Leads s (before.map d.action) k.writer.current
  ended : k.phase = .ended → k.queue = [] ∧ k.writer = .start k.writer.current

theorem kept_start (d : Duties σ J) (s : σ) : Kept d s [] (start s) where
  quiet _ hj := absurd hj List.not_mem_nil
  later := rfl
  done _ _ := ⟨[], rfl, .nil s⟩
  ended := nofun

/-- A job is sent to a keeper that takes it. -/
theorem Kept.push (h : Kept d s given k) (hphase : k.phase = .working) {j : J}
    (hj : ∀ s, d.again? s j = none) : Kept d s (given ++ [j]) (k.push j) where
  quiet i hi := by
    rcases List.mem_append.1 hi with hi | hi
    · exact h.quiet i hi
    · rw [List.mem_singleton.1 hi]
      exact hj
  later := h.later
  done hfailed hcleaned := by
    obtain ⟨before, rfl, hleads⟩ := h.done hfailed hcleaned
    exact ⟨before, List.append_assoc .., hleads⟩
  ended hended := nomatch hphase.symm.trans hended

/-- A keeper that failed does nothing with what it is sent. -/
theorem Kept.of_failed (h : Kept d s given k) (hfailed : k.phase = .failed) (more : List J) :
    Kept d s more k where
  quiet := h.quiet
  later := h.later
  done hwhole := absurd hfailed hwhole
  ended hended := nomatch hfailed.symm.trans hended

/-- Every move keeps it so. -/
theorem Kept.step (h : Kept d s given k) (hstep : Step d asked k k') : Kept d s given k' := by
  cases hstep with
  | work hactive hqueue hdone =>
    rename_i j rest w
    have hquiet : ∀ s, d.again? s j = none := h.quiet j (hqueue ▸ List.mem_cons_self)
    refine ⟨fun i hi => h.quiet i (hqueue ▸ List.mem_cons_of_mem j hi), ?_, fun hfailed hcleaned => ?_,
      fun hended => absurd hended hactive.ne_ended⟩
    · show k.later ++ _ = []
      rw [h.later, hquiet]
      rfl
    · obtain ⟨before, hgiven, hleads⟩ := h.done hfailed hcleaned
      refine ⟨before ++ [j], ?_, ?_⟩
      · rw [hgiven, hqueue, List.append_assoc]
        rfl
      · rw [List.map_append]
        exact hleads.concat (done_of_execute hdone)
  | workFails _ hqueue =>
    exact ⟨fun i hi => h.quiet i (hqueue ▸ List.mem_cons_of_mem _ hi), h.later,
      fun hfailed => absurd rfl hfailed, nofun⟩
  | commit hphase =>
    exact ⟨h.quiet, h.later, h.done, fun hended => nomatch hphase.symm.trans hended⟩
  | clean hphase =>
    exact ⟨h.quiet, h.later, nofun, fun hended => nomatch hphase.symm.trans hended⟩
  | cleanNothing hphase _ _ hsame =>
    refine ⟨h.quiet, h.later, fun hfailed hcleaned => ?_,
      fun hended => nomatch hphase.symm.trans hended⟩
    obtain ⟨before, hgiven, hleads⟩ := h.done hfailed hcleaned
    exact ⟨before, hgiven, hsame.symm ▸ hleads⟩
  | cleanFails => exact ⟨h.quiet, h.later, fun hfailed => absurd rfl hfailed, nofun⟩
  | again hlater | forget hlater => simp [h.later] at hlater
  | stop hphase => exact ⟨h.quiet, h.later, fun _ => h.done (hphase ▸ nofun), nofun⟩
  | finish hphase hqueue =>
    exact ⟨h.quiet, h.later, fun _ => h.done (hphase ▸ nofun), fun _ => ⟨hqueue, rfl⟩⟩
  | storeFails => exact ⟨h.quiet, h.later, fun hfailed => absurd rfl hfailed, nofun⟩

/-- What is committed when a keeper ended well. -/
theorem Kept.leads (h : Kept d s given k) (hended : k.phase = .ended) (hcleaned : k.cleaned = false) :
    ∃ s', k.writer = .start s' ∧ Leads s (given.map d.action) s' := by
  obtain ⟨hqueue, hwriter⟩ := h.ended hended
  obtain ⟨before, rfl, hleads⟩ := h.done (hended ▸ nofun) hcleaned
  rw [hqueue, List.append_nil]
  exact ⟨_, hwriter, hleads⟩

/-! ## Phases -/

/-- A keeper stops only when it is asked to, ends only when it stopped, and else can only fail. -/
theorem Step.phase (hstep : Step d asked k k') :
    k'.phase = k.phase ∨ (k.phase.Active ∧ k'.phase = .failed) ∨
      (k.phase = .working ∧ asked ∧ k'.phase = .draining) ∨
      (k.phase = .draining ∧ k'.phase = .ended) := by
  cases hstep with
  | work | commit | clean | cleanNothing | again | forget => exact .inl rfl
  | workFails hactive | storeFails hactive => exact .inr (.inl ⟨hactive, rfl⟩)
  | cleanFails hphase => exact .inr (.inl ⟨hphase ▸ trivial, rfl⟩)
  | stop hphase hasked => exact .inr (.inr (.inl ⟨hphase, hasked, rfl⟩))
  | finish hphase => exact .inr (.inr (.inr ⟨hphase, rfl⟩))

/-- A keeper at its end stays there. -/
theorem Step.phase_of_over (hstep : Step d asked k k') (hover : k.phase.Over) : k'.phase = k.phase := by
  rcases hstep.phase with h | ⟨hactive, -⟩ | ⟨hphase, -⟩ | ⟨hphase, -⟩
  · exact h
  · exact absurd hover hactive.not_over
  · rw [hphase] at hover
    exact hover.elim
  · rw [hphase] at hover
    exact hover.elim

theorem Step.over (hstep : Step d asked k k') (hover : k.phase.Over) : k'.phase.Over := by
  rw [hstep.phase_of_over hover]
  exact hover

/-- A keeper that takes no more failed, or was asked to stop, or took no more before. -/
theorem Step.deaf (hstep : Step d asked k k') (hdeaf : k'.phase ≠ .working) :
    k'.phase = .failed ∨ asked ∨ (k.phase ≠ .working ∧ k.phase ≠ .failed) := by
  rcases hstep.phase with h | ⟨-, hfailed⟩ | ⟨-, hasked, -⟩ | ⟨hphase, -⟩
  · by_cases hfailed : k'.phase = .failed
    · exact .inl hfailed
    · exact .inr (.inr (h ▸ ⟨hdeaf, hfailed⟩))
  · exact .inl hfailed
  · exact .inr (.inl hasked)
  · rw [hphase]
    exact .inr (.inr ⟨nofun, nofun⟩)

theorem Step.cleaned_eq (hstep : Step d asked k k') (hd : d.cleaning? = none) :
    k'.cleaned = k.cleaned := by
  cases hstep with
  | clean _ hcleaning => exact nomatch hd.symm.trans hcleaning
  | _ => rfl

/-! ## Coming to an end -/

/-- What is left to do for a keeper. -/
def weight (k : Keeper σ J) : Nat := k.queue.length + k.phase.weight

/-- A job that is done in every state. -/
def IsPossible (d : Duties σ J) (j : J) : Prop := ∀ s, ∃ s', d.action j s = .done s'

/-- A move by which a keeper comes nearer to its end, well unless a job cannot be done. -/
structure Nears (d : Duties σ J) (asked : Prop) (k k' : Keeper σ J) : Prop where
  step : Step d asked k k'
  weight_lt : k'.weight < k.weight
  cleaned : k'.cleaned = k.cleaned
  whole : (∀ j ∈ k.queue, IsPossible d j) → k'.phase ≠ .failed

/-- A keeper can turn to the job that waits first. -/
theorem exists_nears_of_queue (hactive : k.phase.Active) (hqueue : k.queue ≠ []) :
    ∃ k', Nears d asked k k' := by
  obtain ⟨j, rest, hqueue⟩ := List.exists_cons_of_ne_nil hqueue
  have hlength : k.queue.length = rest.length + 1 := congrArg List.length hqueue
  cases hexecute : k.writer.execute (d.action j) with
  | mk w failure =>
    cases failure with
    | none =>
      refine ⟨_, .work hactive hqueue hexecute, ?_, rfl, fun _ hfailed => ?_⟩
      · show rest.length + k.phase.weight < k.queue.length + k.phase.weight
        omega
      · exact absurd hfailed hactive.ne_failed
    | some cause =>
      refine ⟨_, .workFails hactive hqueue hexecute, ?_, rfl, fun hpossible => ?_⟩
      · show rest.length + 0 < k.queue.length + k.phase.weight
        omega
      · obtain ⟨s', hs'⟩ := hpossible j (hqueue ▸ List.mem_cons_self) k.writer.current
        rw [execute_of_done hs'] at hexecute
        cases hexecute

/-- A keeper without room for a job can make room. -/
theorem exists_nears_of_full (hphase : k.phase = .working) (hfull : ¬ k.HasRoom d) :
    ∃ k', Nears d asked k k' := by
  refine exists_nears_of_queue (hphase ▸ trivial) fun hqueue => hfull ⟨hphase, ?_⟩
  rw [hqueue]
  exact Nat.lt_of_lt_of_le Nat.one_pos (Nat.le_max_right _ _)

/-- A keeper that was asked to stop can come to its end. -/
theorem exists_nears_of_asked (hasked : asked) (hactive : k.phase.Active) :
    ∃ k', Nears d asked k k' := by
  by_cases hqueue : k.queue = []
  · rcases hactive.working_or_draining with hphase | hphase
    · refine ⟨_, .stop hphase hasked, ?_, rfl, nofun⟩
      simp [weight, hphase, Task.Phase.weight]
    · refine ⟨_, .finish hphase hqueue, ?_, rfl, nofun⟩
      simp [weight, hphase, Task.Phase.weight]
  · exact exists_nears_of_queue hactive hqueue

end Keeper

end MailTrace
