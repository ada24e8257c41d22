import Mathlib.Data.List.ReduceOption
import MailTrace.Store.Writer

/-!
# What a writer commits

A writer comes to its jobs one by one: the actions of its queue in order, and a cleaning whenever one
is due (`jobs`). Where it commits in between and when it is asked to stop makes no difference: what is
committed in the end is the work of the jobs, up to the first one that fails (`run_eq_effect`).
-/

namespace MailTrace.Writer

variable {σ : Type}

/-! ## Jobs -/

/-- The jobs of a writer in the order in which it comes to them. None is a cleaning. -/
def jobs : List Turn → List (Action σ) → List (Option (Action σ))
  | [], queue => queue.map some
  | .commit :: turns, queue => jobs turns queue
  | .cleaning :: turns, queue => none :: jobs turns queue
  | .action :: turns, [] => jobs turns []
  | .action :: turns, a :: queue => some a :: jobs turns queue

/-- A job as an action. -/
abbrev actionsOf (cleaning : Action σ) (js : List (Option (Action σ))) : List (Action σ) :=
  js.map (·.getD cleaning)

/-- Jobs are the actions of a queue, each once and in order, and the cleanings where the turns have
them: each after the actions that were turned to before it. -/
structure InTurn (turns : List Turn) (queue : List (Action σ)) (js : List (Option (Action σ))) :
    Prop where
  actions : js.reduceOption = queue
  cleanings : js.countP (·.isNone) = turns.count .cleaning
  place : ∀ before after, turns = before ++ .cleaning :: after →
    ∃ pre post, js = pre ++ none :: post ∧ pre.reduceOption = queue.take (before.count .action) ∧
      pre.countP (·.isNone) = before.count .cleaning

theorem reduceOption_jobs (turns : List Turn) (queue : List (Action σ)) :
    (jobs turns queue).reduceOption = queue := by
  fun_induction jobs turns queue with
  | case1 queue => simp [List.reduceOption]
  | case2 turns queue ih => exact ih
  | case3 turns queue ih => simpa using ih
  | case4 turns ih => exact ih
  | case5 turns a queue ih => simpa using ih

theorem countP_jobs (turns : List Turn) (queue : List (Action σ)) :
    (jobs turns queue).countP (·.isNone) = turns.count .cleaning := by
  fun_induction jobs turns queue with
  | case1 queue => simp [List.countP_map, Function.comp_def]
  | case2 turns queue ih => simpa using ih
  | case3 turns queue ih => simpa using ih
  | case4 turns ih => simpa using ih
  | case5 turns a queue ih => simpa using ih

theorem exists_jobs_cleaning (before after : List Turn) (queue : List (Action σ)) :
    ∃ pre post, jobs (before ++ .cleaning :: after) queue = pre ++ none :: post ∧
      pre.reduceOption = queue.take (before.count .action) ∧
      pre.countP (·.isNone) = before.count .cleaning := by
  induction before generalizing queue with
  | nil => exact ⟨[], jobs after queue, rfl, rfl, rfl⟩
  | cons t before ih =>
    cases t with
    | commit =>
      obtain ⟨pre, post, hjobs, hpre, hcount⟩ := ih queue
      exact ⟨pre, post, hjobs, by simpa using hpre, by simpa using hcount⟩
    | cleaning =>
      obtain ⟨pre, post, hjobs, hpre, hcount⟩ := ih queue
      exact ⟨none :: pre, post, congrArg (none :: ·) hjobs, by simpa using hpre, by simpa using hcount⟩
    | action =>
      cases queue with
      | nil =>
        obtain ⟨pre, post, hjobs, hpre, hcount⟩ := ih []
        exact ⟨pre, post, hjobs, by simpa using hpre, by simpa using hcount⟩
      | cons a queue =>
        obtain ⟨pre, post, hjobs, hpre, hcount⟩ := ih queue
        exact ⟨some a :: pre, post, congrArg (some a :: ·) hjobs, by simpa using hpre,
          by simpa using hcount⟩

theorem inTurn_jobs (turns : List Turn) (queue : List (Action σ)) :
    InTurn turns queue (jobs turns queue) where
  actions := reduceOption_jobs turns queue
  cleanings := countP_jobs turns queue
  place := by
    rintro before after rfl
    exact exists_jobs_cleaning before after queue

/-- The turns but for the commits. -/
def withoutCommits (turns : List Turn) : List Turn := turns.filter (· ≠ .commit)

theorem jobs_withoutCommits (turns : List Turn) (queue : List (Action σ)) :
    jobs (withoutCommits turns) queue = jobs turns queue := by
  fun_induction jobs turns queue with
  | case1 queue => rfl
  | case2 turns queue ih => exact ih
  | case3 turns queue ih => exact congrArg (none :: ·) ih
  | case4 turns ih => exact ih
  | case5 turns a queue ih => exact congrArg (some a :: ·) ih

/-! ## Runs -/

/-- What is committed in the end is the work of the jobs up to the first one that fails. -/
theorem run_eq_effect (cleaning : Action σ) (w : Writer σ) (turns : List Turn)
    (queue : List (Action σ)) :
    w.run cleaning turns queue =
      (start (effect w.current (actionsOf cleaning (jobs turns queue))).1,
        (effect w.current (actionsOf cleaning (jobs turns queue))).2) := by
  induction turns generalizing w queue with
  | nil =>
    have hactions : actionsOf cleaning (jobs [] queue) = queue := by simp [jobs, Function.comp_def]
    rw [run, hactions, drain_eq_effect]
  | cons t turns ih =>
    cases t with
    | commit => exact ih w.commit queue
    | cleaning =>
      simp only [run, jobs, List.map_cons, Option.getD_none, effect]
      cases h : cleaning w.current with
      | done s =>
        rw [execute_of_done h]
        exact ih _ queue
      | failed s cause => rw [execute_of_failed h]
    | action =>
      cases queue with
      | nil => exact ih w []
      | cons a queue =>
        simp only [run, jobs, List.map_cons, Option.getD_some, effect]
        cases h : a w.current with
        | done s =>
          rw [execute_of_done h]
          exact ih _ queue
        | failed s cause => rw [execute_of_failed h]

/-- Actions that are all done lead from one state to another. -/
inductive Leads : σ → List (Action σ) → σ → Prop where
  | nil (s : σ) : Leads s [] s
  | cons {s s' s'' : σ} {a : Action σ} {as : List (Action σ)} (h : a s = .done s')
      (hs : Leads s' as s'') : Leads s (a :: as) s''

theorem Leads.effect_eq {s s' : σ} {as : List (Action σ)} (h : Leads s as s') :
    effect s as = (s', .ok ()) := by
  induction h with
  | nil => rfl
  | cons h _ ih => rw [effect, h]; exact ih

theorem Leads.effect_eq_of_failed {s s' reached : σ} {before after : List (Action σ)} {a : Action σ}
    {cause : String} (h : Leads s before s') (ha : a s' = .failed reached cause) :
    effect s (before ++ a :: after) = (s', .error cause) := by
  induction h with
  | nil => rw [List.nil_append, effect, ha]
  | cons h _ ih => rw [List.cons_append, effect, h]; exact ih ha

/-- Either all actions are done or a first one fails. -/
theorem leads_or_fails (s : σ) (as : List (Action σ)) :
    (∃ s', Leads s as s') ∨
      ∃ before a after s' reached cause, as = before ++ a :: after ∧ Leads s before s' ∧
        a s' = .failed reached cause := by
  induction as generalizing s with
  | nil => exact .inl ⟨s, .nil s⟩
  | cons a as ih =>
    cases h : a s with
    | failed reached cause => exact .inr ⟨[], a, as, s, reached, cause, rfl, .nil s, h⟩
    | done s' =>
      rcases ih s' with ⟨s'', hs⟩ | ⟨before, b, after, s'', reached, cause, rfl, hs, hb⟩
      · exact .inl ⟨s'', .cons h hs⟩
      · exact .inr ⟨a :: before, b, after, s'', reached, cause, rfl, .cons h hs, hb⟩

/-- **Atomicity.** The jobs of a writer are the actions of its queue, each once and in order, with the
cleanings where it turned to them. If all of them are done, their work is committed. If one fails, the
writer ends with its cause, and what is committed is the work of the jobs before it. There is no third
case, and when the writer commits in between makes no difference. -/
theorem run_atomic (cleaning : Action σ) (s : σ) (turns : List Turn) (queue : List (Action σ)) :
    InTurn turns queue (jobs turns queue) ∧
      (∀ s', Leads s (actionsOf cleaning (jobs turns queue)) s' →
        (start s).run cleaning turns queue = (start s', .ok ())) ∧
      (∀ before a after s' reached cause,
        actionsOf cleaning (jobs turns queue) = before ++ a :: after → Leads s before s' →
        a s' = .failed reached cause →
        (start s).run cleaning turns queue = (start s', .error cause)) ∧
      ((∃ s', Leads s (actionsOf cleaning (jobs turns queue)) s') ∨
        ∃ before a after s' reached cause,
          actionsOf cleaning (jobs turns queue) = before ++ a :: after ∧ Leads s before s' ∧
            a s' = .failed reached cause) ∧
      ∀ turns', withoutCommits turns' = withoutCommits turns →
        (start s).run cleaning turns' queue = (start s).run cleaning turns queue := by
  refine ⟨inTurn_jobs turns queue, ?_, ?_, leads_or_fails s _, ?_⟩
  · intro s' h
    rw [run_eq_effect, current_start, h.effect_eq]
  · intro before a after s' reached cause hsplit h ha
    rw [run_eq_effect, current_start, hsplit, h.effect_eq_of_failed ha]
  · intro turns' h
    rw [run_eq_effect, run_eq_effect, ← jobs_withoutCommits turns', h, jobs_withoutCommits]

/-- A number is added at the end. -/
def add (n : Nat) : Action (List Nat) := fun s => .done (s ++ [n])

/-- A number is added at the end, and then something goes wrong. -/
def addAndFail (n : Nat) : Action (List Nat) := fun s => .failed (s ++ [n]) "no room"

/-- The first number is dropped. -/
def dropFirst : Action (List Nat) := fun s => .done (s.drop 1)

/-- Two numbers are added with a commit and a cleaning in between, and the third one fails. What is
left of it and of the fourth is nothing. -/
theorem run_failsAtThird :
    Leads [] [add 1, dropFirst, add 2] [2] ∧ addAndFail 3 [2] = .failed [2, 3] "no room" ∧
      (start []).run dropFirst [.action, .commit, .cleaning, .action, .action, .commit]
        [add 1, add 2, addAndFail 3, add 4] = (start [2], .error "no room") ∧
      withoutCommits [.commit, .action, .cleaning] = withoutCommits [.action, .cleaning, .commit] ∧
      (start []).run dropFirst [.commit, .action, .cleaning] [add 1, add 2] = (start [2], .ok ()) := by
  have hleads : Leads [] [add 1, dropFirst, add 2] [2] :=
    .cons rfl (.cons rfl (.cons rfl (.nil _)))
  refine ⟨hleads, rfl, ?_, by decide, ?_⟩
  · exact (run_atomic dropFirst [] [.action, .commit, .cleaning, .action, .action, .commit]
      [add 1, add 2, addAndFail 3, add 4]).2.2.1 [add 1, dropFirst, add 2] (addAndFail 3) [add 4] [2]
      [2, 3] "no room" rfl hleads rfl
  · rw [(run_atomic dropFirst [] [.action, .cleaning, .commit] [add 1, add 2]).2.2.2.2
      [.commit, .action, .cleaning] (by decide)]
    exact (run_atomic dropFirst [] [.action, .cleaning, .commit] [add 1, add 2]).2.1 [2] hleads

end MailTrace.Writer
