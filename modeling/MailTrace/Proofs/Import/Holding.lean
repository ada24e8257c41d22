import MailTrace.Import.Sync

/-!
# Steps held back

The announcer forwards a step no earlier than what it read entitles to.

1. A wait ends past its target, or after readings that stood still, or without the right to go on
   (`endsPast_waitPast`, `standsStill_waitPast`). What carries the second is that the time at which the
   last value was first seen is that of the first of the equal readings at the end (`SeenSince`).
2. A step is forwarded after the readings of its own waits (`cleared_hold`).
3. Over a whole run this is an induction on the steps (`run_synced`): the stretches of the events
   between forwarded steps are what was read for each.
-/

namespace MailTrace.Import

open MailTrace.Time

/-! ## Readings -/

/-- The last reading is later than the target. -/
def EndsPast (target : Instant) (rs : List Reading) : Prop :=
  ∃ before last value, rs = before ++ [last] ∧ last.value = .ok (some value) ∧ target < value

/-- The readings end in a run of equal values, the first and the last of which are apart by the
timeout at least. -/
def StandsStill (timeout : Duration) (rs : List Reading) : Prop :=
  ∃ before first middle last value, rs = before ++ first :: (middle ++ [last]) ∧
    (∀ r ∈ first :: (middle ++ [last]), r.value = .ok value) ∧
      (timeout : Int) ≤ last.clock - first.clock

theorem EndsPast.cons {target : Instant} {rs : List Reading} (h : EndsPast target rs) (r : Reading) :
    EndsPast target (r :: rs) := by
  obtain ⟨before, last, value, rfl, hlast⟩ := h
  exact ⟨r :: before, last, value, rfl, hlast⟩

/-- Of the readings so far, the last value was first seen at a time, and read ever since. -/
def SeenSince (seen : Option (Option Instant)) (since : Instant) (rs : List Reading) : Prop :=
  ∀ value ∈ seen, ∃ before first middle, rs = before ++ first :: middle ∧ first.clock = since ∧
    ∀ r ∈ first :: middle, r.value = .ok value

section Waits

variable {probe : Probe} {sleep timeout : Duration} {target : Instant}

theorem endsPast_waitPast {moves calls : Nat} {seen : Option (Option Instant)}
    {since clock : Instant}
    (h : (waitPast probe sleep timeout target moves calls seen since clock).result = .passed) :
    EndsPast target (waitPast probe sleep timeout target moves calls seen since clock).readings := by
  fun_induction waitPast probe sleep timeout target moves calls seen since clock with
  | case1 => cases h
  | case2 => cases h
  | case3 moves calls seen since clock now reading value hvalue hpast =>
    obtain ⟨t, rfl, ht⟩ := (Option.any_eq_true ..).1 hpast
    exact ⟨[], reading, t, rfl, hvalue, of_decide_eq_true ht⟩
  | case4 moves calls seen since clock now reading value hvalue hpast hchanged ih =>
    exact (ih h).cons reading
  | case5 => cases h
  | case6 moves calls seen since clock now reading value hvalue hpast hsame hearly ih =>
    exact (ih h).cons reading

theorem standsStill_waitPast {moves calls : Nat} {seen : Option (Option Instant)}
    {since clock : Instant} (earlier : List Reading) (hseen : SeenSince seen since earlier)
    (h : (waitPast probe sleep timeout target moves calls seen since clock).result = .stalled) :
    StandsStill timeout
      (earlier ++ (waitPast probe sleep timeout target moves calls seen since clock).readings) := by
  fun_induction waitPast probe sleep timeout target moves calls seen since clock
    generalizing earlier with
  | case1 => cases h
  | case2 => cases h
  | case3 => cases h
  | case4 moves calls seen since clock now reading value hvalue hpast hchanged =>
    rename_i ih
    -- the value changed, so it was first seen at this reading
    have hnew : SeenSince (some value) now (earlier ++ [reading]) := by
      rintro v ⟨⟩
      exact ⟨earlier, reading, [], rfl, rfl, List.forall_mem_singleton.2 hvalue⟩
    have hrest := ih _ hnew h
    rw [List.append_assoc] at hrest
    exact hrest
  | case5 moves calls seen since clock now reading value hvalue hpast hsame =>
    rename_i hlong
    -- this reading closes the run that began when its value was first seen
    obtain ⟨before, first, middle, rfl, hfirst, hall⟩ := hseen value (Decidable.not_not.1 hsame)
    refine ⟨before, first, middle, reading, value, by simp, ?_, ?_⟩
    · rw [← List.cons_append]
      exact List.forall_mem_append.2 ⟨hall, List.forall_mem_singleton.2 hvalue⟩
    · rw [hfirst]
      exact hlong
  | case6 moves calls seen since clock now reading value hvalue hpast hsame hearly =>
    rename_i ih
    have hlonger : SeenSince seen since (earlier ++ [reading]) := by
      intro v hv
      obtain rfl : value = v := Option.some.inj ((Decidable.not_not.1 hsame).symm.trans hv)
      obtain ⟨before, first, middle, rfl, hfirst, hall⟩ := hseen value hv
      refine ⟨before, first, middle ++ [reading], by simp, hfirst, ?_⟩
      rw [← List.cons_append]
      exact List.forall_mem_append.2 ⟨hall, List.forall_mem_singleton.2 hvalue⟩
    have hrest := ih _ hlonger h
    rw [List.append_assoc] at hrest
    exact hrest

theorem moves_of_cancelled {moves calls : Nat} {seen : Option (Option Instant)}
    {since clock : Instant}
    (h : (waitPast probe sleep timeout target moves calls seen since clock).result = .cancelled) :
    (waitPast probe sleep timeout target moves calls seen since clock).moves = 0 := by
  fun_induction waitPast probe sleep timeout target moves calls seen since clock with
  | case1 => rfl
  | case2 => cases h
  | case3 => cases h
  | case4 moves calls seen since clock now reading value hvalue hpast hchanged ih => exact ih h
  | case5 => cases h
  | case6 moves calls seen since clock now reading value hvalue hpast hsame hearly ih => exact ih h

theorem last_of_failed {moves calls : Nat} {seen : Option (Option Instant)}
    {since clock : Instant} {cause : String}
    (h : (waitPast probe sleep timeout target moves calls seen since clock).result =
      .failed cause) :
    ∃ before time, (waitPast probe sleep timeout target moves calls seen since clock).readings =
      before ++ [⟨time, .error cause⟩] := by
  fun_induction waitPast probe sleep timeout target moves calls seen since clock with
  | case1 => cases h
  | case2 moves calls seen since clock now reading cause' hvalue =>
    cases h
    exact ⟨[], now, congrArg (fun value => [Reading.mk now value]) hvalue⟩
  | case3 => cases h
  | case4 moves calls seen since clock now reading value hvalue hpast hchanged ih =>
    obtain ⟨before, time, hreadings⟩ := ih h
    exact ⟨reading :: before, time, congrArg (reading :: ·) hreadings⟩
  | case5 => cases h
  | case6 moves calls seen since clock now reading value hvalue hpast hsame hearly ih =>
    obtain ⟨before, time, hreadings⟩ := ih h
    exact ⟨reading :: before, time, congrArg (reading :: ·) hreadings⟩

end Waits

/-! ## Steps -/

/-- The events of some readings of a probe. -/
def reads (probe : ProbeName) (rs : List Reading) : List SyncEvent := rs.map (.read probe)

/-- What was read while a step was held back entitles to forward it. -/
inductive Cleared (settings : SyncSettings) (step : Step) : List SyncEvent → Prop where
  | untimed (htime : step.time = none) : Cleared settings step []
  | passed {target : Instant} {rs : List Reading} (htime : step.time = some target)
      (hpast : EndsPast target rs) : Cleared settings step (reads .primary rs)
  | stalled {target : Instant} {rs : List Reading} (htime : step.time = some target)
      (hunfinished : step.finished = false) (hstill : StandsStill settings.primaryTimeout rs) :
      Cleared settings step (reads .primary rs)
  | finished {target : Instant} {rs ss : List Reading} (htime : step.time = some target)
      (hfinished : step.finished = true) (hstill : StandsStill settings.primaryTimeout rs)
      (hsecond : EndsPast target ss ∨ StandsStill settings.secondaryTimeout ss) :
      Cleared settings step (reads .primary rs ++ reads .secondary ss)

/-- The announcer was stopped at its last move or at a reading that failed. -/
def Stopped (s : Sync) (events : List SyncEvent) : SyncResult → Prop
  | .done => False
  | .cancelled => s.moves = 0
  | .failed probe cause => ∃ before time, events = before ++ [.read probe ⟨time, .error cause⟩]

theorem Stopped.append {s : Sync} {events : List SyncEvent} {r : SyncResult}
    (h : Stopped s events r) (front : List SyncEvent) : Stopped s (front ++ events) r := by
  cases r with
  | done => exact h
  | cancelled => exact h
  | failed probe cause =>
    obtain ⟨before, time, rfl⟩ := h
    exact ⟨front ++ before, time, (List.append_assoc ..).symm⟩

namespace Sync

variable {c : SyncContext} {s : Sync} {step : Step}

/-- A wait that stops the announcer. -/
theorem stopped_waitPast {name : ProbeName} {probe : Probe} {sleep timeout : Duration}
    {target : Instant} {moves calls : Nat} {since clock : Instant} {r : SyncResult}
    (hmoves : s.moves = (waitPast probe sleep timeout target moves calls none since clock).moves)
    (h : stop? name (waitPast probe sleep timeout target moves calls none since clock).result =
      some r) :
    Stopped s
      (reads name (waitPast probe sleep timeout target moves calls none since clock).readings) r := by
  cases hresult : (waitPast probe sleep timeout target moves calls none since clock).result with
  | passed =>
    rw [hresult] at h
    cases h
  | stalled =>
    rw [hresult] at h
    cases h
  | failed cause =>
    rw [hresult] at h
    cases h
    obtain ⟨before, time, hreadings⟩ := last_of_failed hresult
    exact ⟨reads name before, time, by rw [hreadings]; exact List.map_append⟩
  | cancelled =>
    rw [hresult] at h
    cases h
    exact hmoves.trans (moves_of_cancelled hresult)

theorem standsStill_waitPrimary {target : Instant}
    (h : (s.waitPrimary c target).2.result = .stalled) :
    StandsStill c.settings.primaryTimeout (s.waitPrimary c target).2.readings :=
  standsStill_waitPast [] nofun h

theorem standsStill_waitSecondary {target : Instant}
    (h : (s.waitSecondary c target).2.result = .stalled) :
    StandsStill c.settings.secondaryTimeout (s.waitSecondary c target).2.readings :=
  standsStill_waitPast [] nofun h

/-! What is read to hold a step back, by how the waits end. -/

section Hold

variable {target : Instant} {r : SyncResult}

theorem hold_untimed (c : SyncContext) (s : Sync) (htime : step.time = none) :
    hold c s step = (s, [], none) := by
  unfold hold
  rw [htime]

theorem hold_stopped (htime : step.time = some target)
    (hfirst : stop? .primary (s.waitPrimary c target).2.result = some r) :
    hold c s step =
      ((s.waitPrimary c target).1, reads .primary (s.waitPrimary c target).2.readings, some r) := by
  unfold hold
  rw [htime]
  dsimp only
  rw [hfirst]
  rfl

theorem hold_passed (htime : step.time = some target)
    (hfirst : (s.waitPrimary c target).2.result = .passed) :
    hold c s step =
      ((s.waitPrimary c target).1, reads .primary (s.waitPrimary c target).2.readings, none) := by
  unfold hold
  rw [htime]
  dsimp only
  rw [hfirst]
  cases step.finished <;> rfl

theorem hold_stalled (htime : step.time = some target) (hunfinished : step.finished = false)
    (hfirst : (s.waitPrimary c target).2.result = .stalled) :
    hold c s step =
      ((s.waitPrimary c target).1, reads .primary (s.waitPrimary c target).2.readings, none) := by
  unfold hold
  rw [htime]
  dsimp only
  rw [hfirst, hunfinished]
  rfl

theorem hold_finished (htime : step.time = some target) (hfinished : step.finished = true)
    (hfirst : (s.waitPrimary c target).2.result = .stalled) :
    hold c s step =
      (((s.waitPrimary c target).1.waitSecondary c target).1,
        reads .primary (s.waitPrimary c target).2.readings ++
          reads .secondary ((s.waitPrimary c target).1.waitSecondary c target).2.readings,
        stop? .secondary ((s.waitPrimary c target).1.waitSecondary c target).2.result) := by
  unfold hold
  rw [htime]
  dsimp only
  rw [hfirst, hfinished]
  rfl

end Hold

/-- **What holds a step back.** If nothing stops the announcer, what was read entitles to forward the
step. -/
theorem cleared_hold (h : (hold c s step).2.2 = none) :
    Cleared c.settings step (hold c s step).2.1 := by
  cases htime : step.time with
  | none =>
    rw [hold_untimed c s htime]
    exact .untimed htime
  | some target =>
    cases hfirst : (s.waitPrimary c target).2.result with
    | passed =>
      rw [hold_passed htime hfirst]
      exact .passed htime (endsPast_waitPast hfirst)
    | stalled =>
      have hstill := standsStill_waitPrimary hfirst
      cases hfinished : step.finished with
      | false =>
        rw [hold_stalled htime hfinished hfirst]
        exact .stalled htime hfinished hstill
      | true =>
        rw [hold_finished htime hfinished hfirst] at h ⊢
        refine .finished htime hfinished hstill ?_
        cases hsecond : ((s.waitPrimary c target).1.waitSecondary c target).2.result with
        | passed => exact .inl (endsPast_waitPast hsecond)
        | stalled => exact .inr (standsStill_waitSecondary hsecond)
        | failed cause =>
          rw [hsecond] at h
          cases h
        | cancelled =>
          rw [hsecond] at h
          cases h
    | failed cause =>
      rw [hold_stopped htime (r := .failed .primary cause) (by rw [hfirst]; rfl)] at h
      cases h
    | cancelled =>
      rw [hold_stopped htime (r := .cancelled) (by rw [hfirst]; rfl)] at h
      cases h

end Sync

/-! ## Events -/

/-- The event is a reading of a probe. -/
def SyncEvent.IsRead : SyncEvent → Prop
  | read .. => True
  | forwarded _ => False

theorem isRead_of_mem_reads {probe : ProbeName} {rs : List Reading} {e : SyncEvent}
    (h : e ∈ reads probe rs) : e.IsRead := by
  obtain ⟨r, -, rfl⟩ := List.mem_map.1 h
  trivial

theorem Cleared.isRead {settings : SyncSettings} {step : Step} {held : List SyncEvent}
    (h : Cleared settings step held) : ∀ e ∈ held, e.IsRead := by
  intro e he
  cases h with
  | untimed => cases he
  | passed => exact isRead_of_mem_reads he
  | stalled => exact isRead_of_mem_reads he
  | finished => exact (List.mem_append.1 he).elim isRead_of_mem_reads isRead_of_mem_reads

theorem Cleared.time_ne_none {settings : SyncSettings} {step : Step} {held : List SyncEvent}
    (h : Cleared settings step held) (hheld : held ≠ []) : step.time ≠ none := by
  cases h with
  | untimed => exact absurd rfl hheld
  | passed htime => simp [htime]
  | stalled htime => simp [htime]
  | finished htime => simp [htime]

theorem forwarded_of_reads {es : List SyncEvent} (h : ∀ e ∈ es, e.IsRead) : forwarded es = [] := by
  refine List.filterMap_eq_nil_iff.2 fun e he => ?_
  cases e with
  | read => rfl
  | forwarded s => exact (h _ he).elim

theorem forwarded_append_cons {held : List SyncEvent} (h : ∀ e ∈ held, e.IsRead) (s : Step)
    (later : List SyncEvent) :
    forwarded (held ++ .forwarded s :: later) = s :: forwarded later := by
  have happend : forwarded (held ++ .forwarded s :: later) =
      forwarded held ++ forwarded (.forwarded s :: later) := List.filterMap_append
  rw [happend, forwarded_of_reads h]
  rfl

/-- The readings before the first step that is forwarded are known from the events. -/
theorem eq_of_reads_append {held held' later later' : List SyncEvent} {s s' : Step}
    (hheld : ∀ e ∈ held, e.IsRead) (hheld' : ∀ e ∈ held', e.IsRead)
    (h : held ++ .forwarded s :: later = held' ++ .forwarded s' :: later') :
    held = held' ∧ s = s' := by
  induction held generalizing held' with
  | nil =>
    cases held' with
    | nil =>
      cases h
      exact ⟨rfl, rfl⟩
    | cons e' held' =>
      cases h
      exact (hheld' _ List.mem_cons_self).elim
  | cons e held ih =>
    cases held' with
    | nil =>
      cases h
      exact (hheld _ List.mem_cons_self).elim
    | cons e' held' =>
      obtain ⟨rfl, hrest⟩ := List.cons.inj h
      obtain ⟨rfl, rfl⟩ := ih (List.forall_mem_cons.1 hheld).2 (List.forall_mem_cons.1 hheld').2 hrest
      exact ⟨rfl, rfl⟩

/-- Events are cut before the first step that is forwarded or after it. -/
theorem append_forwarded_cases {held later before rest : List SyncEvent} {s : Step}
    (h : held ++ .forwarded s :: later = before ++ rest) :
    (∃ more, held = before ++ more ∧ rest = more ++ .forwarded s :: later) ∨
      ∃ more, before = held ++ .forwarded s :: more ∧ later = more ++ rest := by
  rcases List.append_eq_append_iff.1 h with ⟨more, hbefore, hmore⟩ | ⟨more, hheld, hrest⟩
  · cases more with
    | nil => exact .inl ⟨[], by simpa using hbefore.symm, hmore.symm⟩
    | cons e more =>
      obtain ⟨rfl, hlater⟩ := List.cons.inj hmore
      exact .inr ⟨more, hbefore, hlater⟩
  · exact .inl ⟨more, hheld, hrest⟩

/-! ## Runs -/

/-- The events of an announcer that some steps are announced to. Its steps are forwarded in order and
unchanged, each after readings since the one before it that entitle to, and every reading is made for
a step with a moment, the first that is still to be forwarded. -/
structure Synced (settings : SyncSettings) (steps : List Step) (events : List SyncEvent) : Prop where
  inOrder : forwarded events <+: steps
  cleared : ∀ before held step after, events = before ++ (held ++ .forwarded step :: after) →
    (∀ e ∈ held, e.IsRead) → (∀ e ∈ before.getLast?, ¬ e.IsRead) → Cleared settings step held
  timed : ∀ before probe r after, events = before ++ .read probe r :: after →
    ∃ step ∈ steps[(forwarded before).length]?, step.time ≠ none

namespace Synced

variable {settings : SyncSettings} {step : Step} {steps : List Step} {held later : List SyncEvent}

theorem nil (settings : SyncSettings) (steps : List Step) : Synced settings steps [] where
  inOrder := List.nil_prefix
  cleared before held step after h := by simp at h
  timed before probe r after h := by simp at h

/-- A step that is held back and not forwarded. -/
theorem of_held (hheld : ∀ e ∈ held, e.IsRead) (htime : held ≠ [] → step.time ≠ none) :
    Synced settings (step :: steps) held where
  inOrder := by
    rw [forwarded_of_reads hheld]
    exact List.nil_prefix
  cleared before held step after h := by
    subst h
    exact (hheld (.forwarded step) (by simp)).elim
  timed before probe r after h := by
    subst h
    have hbefore : forwarded before = [] :=
      forwarded_of_reads fun e he => hheld e (List.mem_append_left _ he)
    rw [hbefore]
    exact ⟨step, rfl, htime (by simp)⟩

/-- A step that is forwarded after what entitles to, and what follows. -/
theorem cons (hcleared : Cleared settings step held) (hlater : Synced settings steps later) :
    Synced settings (step :: steps) (held ++ .forwarded step :: later) where
  inOrder := by
    rw [forwarded_append_cons hcleared.isRead]
    exact List.cons_prefix_cons.2 ⟨rfl, hlater.inOrder⟩
  cleared before held' step' after h hheld' hbefore := by
    rcases append_forwarded_cases h with ⟨more, rfl, hrest⟩ | ⟨more, rfl, hrest⟩
    · -- cut before the step: what is held begins at the start
      have hnil : before = [] := by
        cases hlast : before.getLast? with
        | none => exact List.getLast?_eq_none_iff.1 hlast
        | some e =>
          have hmem := List.mem_append_left more (List.mem_of_getLast? hlast)
          exact (hbefore e hlast (hcleared.isRead e hmem)).elim
      subst hnil
      obtain ⟨rfl, rfl⟩ := eq_of_reads_append hheld' hcleared.isRead hrest
      exact hcleared
    · refine hlater.cleared more held' step' after hrest hheld' fun e he => hbefore e ?_
      rw [List.getLast?_append, List.getLast?_cons, Option.mem_def.1 he]
      rfl
  timed before probe r after h := by
    rcases append_forwarded_cases h with ⟨more, rfl, hrest⟩ | ⟨more, rfl, hrest⟩
    · have hbefore : forwarded before = [] :=
        forwarded_of_reads fun e he => hcleared.isRead e (List.mem_append_left _ he)
      have hmore : more ≠ [] := by
        rintro rfl
        cases hrest
      rw [hbefore]
      exact ⟨step, rfl, hcleared.time_ne_none (by simp [hmore])⟩
    · rw [forwarded_append_cons hcleared.isRead]
      exact hlater.timed more probe r after hrest

end Synced

/-- The steps up to the first finished one. -/
def throughFinished (steps : List Step) : List Step := steps.take (steps.findIdx (·.finished) + 1)

theorem throughFinished_cons (step : Step) (steps : List Step) :
    throughFinished (step :: steps) =
      step :: if step.finished then [] else throughFinished steps := by
  unfold throughFinished
  rw [List.findIdx_cons]
  cases step.finished <;> rfl

theorem Sync.exists_reads_hold (c : SyncContext) (s : Sync) (step : Step) :
    ∃ rs ss, (s.hold c step).2.1 = reads .primary rs ++ reads .secondary ss := by
  cases htime : step.time with
  | none => exact ⟨[], [], by rw [hold_untimed c s htime]; rfl⟩
  | some target =>
    cases hfirst : (s.waitPrimary c target).2.result with
    | passed => exact ⟨_, [], by rw [hold_passed htime hfirst]; exact (List.append_nil _).symm⟩
    | stalled =>
      cases hfinished : step.finished with
      | false =>
        exact ⟨_, [], by rw [hold_stalled htime hfinished hfirst]; exact (List.append_nil _).symm⟩
      | true => exact ⟨_, _, by rw [hold_finished htime hfinished hfirst]⟩
    | failed cause =>
      refine ⟨(s.waitPrimary c target).2.readings, [], ?_⟩
      rw [hold_stopped htime (r := .failed .primary cause) (by rw [hfirst]; rfl)]
      exact (List.append_nil _).symm
    | cancelled =>
      refine ⟨(s.waitPrimary c target).2.readings, [], ?_⟩
      rw [hold_stopped htime (r := .cancelled) (by rw [hfirst]; rfl)]
      exact (List.append_nil _).symm

theorem Sync.isRead_hold (c : SyncContext) (s : Sync) (step : Step) :
    ∀ e ∈ (s.hold c step).2.1, e.IsRead := by
  obtain ⟨rs, ss, hevents⟩ := s.exists_reads_hold c step
  rw [hevents]
  intro e he
  exact (List.mem_append.1 he).elim isRead_of_mem_reads isRead_of_mem_reads

theorem Sync.time_ne_none_of_hold {c : SyncContext} {s : Sync} {step : Step}
    (h : (s.hold c step).2.1 ≠ []) : step.time ≠ none := by
  intro htime
  rw [hold_untimed c s htime] at h
  exact h rfl

theorem Sync.stopped_hold {c : SyncContext} {s : Sync} {step : Step} {r : SyncResult}
    (h : (s.hold c step).2.2 = some r) : Stopped (s.hold c step).1 (s.hold c step).2.1 r := by
  cases htime : step.time with
  | none =>
    rw [hold_untimed c s htime] at h
    cases h
  | some target =>
    cases hstop : stop? .primary (s.waitPrimary c target).2.result with
    | some r' =>
      rw [hold_stopped htime hstop] at h ⊢
      cases h
      exact stopped_waitPast rfl hstop
    | none =>
      cases hfirst : (s.waitPrimary c target).2.result with
      | passed =>
        rw [hold_passed htime hfirst] at h
        cases h
      | stalled =>
        cases hfinished : step.finished with
        | false =>
          rw [hold_stalled htime hfinished hfirst] at h
          cases h
        | true =>
          rw [hold_finished htime hfinished hfirst] at h ⊢
          exact (stopped_waitPast rfl h).append _
      | failed cause =>
        rw [hfirst] at hstop
        cases hstop
      | cancelled =>
        rw [hfirst] at hstop
        cases hstop

/-- **The announcer forwards nothing early, and loses and reorders nothing.** Whatever the probes
answer, however the clock moves and whenever it is cancelled, its events are those of an announcer of
the steps up to the first finished one. All of these are forwarded, unless it is cancelled or a reading
fails. -/
theorem run_synced (c : SyncContext) (s : Sync) (steps : List Step) :
    Synced c.settings (throughFinished steps) (s.run c steps).2.1 ∧
      ((s.run c steps).2.2 = .done ∧ forwarded (s.run c steps).2.1 = throughFinished steps ∨
        Stopped (s.run c steps).1 (s.run c steps).2.1 (s.run c steps).2.2) := by
  induction steps generalizing s with
  | nil => exact ⟨.nil .., .inl ⟨rfl, rfl⟩⟩
  | cons step steps ih =>
    rw [throughFinished_cons]
    unfold Sync.run
    by_cases hmoves : s.moves = 0
    · rw [if_pos hmoves]
      exact ⟨.nil .., .inr hmoves⟩
    rw [if_neg hmoves]
    generalize { s with moves := s.moves - 1 } = s
    have hreads := s.isRead_hold c step
    have htimed : (s.hold c step).2.1 ≠ [] → step.time ≠ none := Sync.time_ne_none_of_hold
    have hcleared : (s.hold c step).2.2 = none → Cleared c.settings step (s.hold c step).2.1 :=
      Sync.cleared_hold
    have hstopped : ∀ r, (s.hold c step).2.2 = some r →
        Stopped (s.hold c step).1 (s.hold c step).2.1 r := fun r => Sync.stopped_hold
    generalize s.hold c step = out at hreads htimed hcleared hstopped ⊢
    obtain ⟨next, held, stopped⟩ := out
    cases stopped with
    | some r => exact ⟨.of_held hreads htimed, .inr (hstopped r rfl)⟩
    | none =>
      have hforward := hcleared rfl
      dsimp only
      cases hfinished : step.finished with
      | true =>
        exact ⟨.cons hforward (.nil ..), .inl ⟨rfl, forwarded_append_cons hreads step []⟩⟩
      | false =>
        obtain ⟨hlater, hend⟩ := ih next
        simp only [Bool.false_eq_true, if_false, List.append_assoc, List.singleton_append]
        refine ⟨.cons hforward hlater, ?_⟩
        rcases hend with ⟨hdone, hall⟩ | hstop
        · exact .inl ⟨hdone, by rw [forwarded_append_cons hreads, hall]⟩
        · exact .inr ((hstop.append [.forwarded step]).append held)

end MailTrace.Import
