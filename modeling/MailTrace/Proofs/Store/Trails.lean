import Mathlib.Data.List.Perm.Subperm
import MailTrace.Proofs.Store.Keeper

/-!
# Following one job

A job that is done can lead to another, which is sent later and waits among jobs like it. To tell them
apart a job can be marked, and what a marked job leads to is marked as well. Marks change nothing of
what a keeper does.

1. A course of a keeper is any number of its moves while others send it jobs (`Course`). It tells which
   jobs were done and what they found.
2. In one move a keeper does one job, which waits no more, or none (`Step.does_or_idles`).
3. A course with marks is one without them, and every course can be given marks (`Course.unmark`,
   `Course.exists_marked`).
4. If all that waits can be done, a course can go on to where nothing waits in the queue, and from there
   to where a job was done that is sent later (`Course.exists_idle`, `Course.exists_later`).
-/

namespace MailTrace

/-- A job that was done, and the state that it found. -/
structure Deed (σ J : Type) where
  found : σ
  job : J

/-- A deed by another name of the job. -/
def Deed.map {σ J J' : Type} (f : J → J') (e : Deed σ J) : Deed σ J' := ⟨e.found, f e.job⟩

/-- The same duties for jobs that may be marked. -/
def Duties.marked {σ J : Type} (d : Duties σ J) : Duties σ (Bool × J) where
  capacity := d.capacity
  action j := d.action j.2
  again? s j := (d.again? s j.2).map fun next => (j.1, next)
  cleaning? := d.cleaning?

namespace Keeper

open Writer

variable {σ J J' : Type} {d : Duties σ J} {asked : Prop} {k k' : Keeper σ J} {j : J}

/-! ## Courses -/

/-- All jobs that wait. -/
def waiting (k : Keeper σ J) : List J := k.queue ++ k.later

/-- What a keeper did in a move. Unless it failed, it did the jobs that are gone from its queue. -/
def deeds (k k' : Keeper σ J) : List (Deed σ J) :=
  if k'.phase = .failed then []
  else (k.queue.take (k.queue.length - k'.queue.length)).map fun j => ⟨k.writer.current, j⟩

/-- The moves of a keeper from `k₀` on, between which it is sent jobs of some kind whenever it has room,
with all it did. -/
inductive Course (d : Duties σ J) (sent : J → Prop) (k₀ : Keeper σ J) :
    List (Deed σ J) → Keeper σ J → Prop where
  | start : Course d sent k₀ [] k₀
  | send {log : List (Deed σ J)} {k : Keeper σ J} {j : J} (h : Course d sent k₀ log k)
      (hroom : k.HasRoom d) (hsent : sent j) : Course d sent k₀ log (k.push j)
  | step {log : List (Deed σ J)} {k k' : Keeper σ J} {asked : Prop} (h : Course d sent k₀ log k)
      (hstep : Step d asked k k') : Course d sent k₀ (log ++ k.deeds k') k'

/-! ## One move -/

/-- A move in which a job is done. What it leads to waits instead of it. -/
structure Does (d : Duties σ J) (j : J) (k k' : Keeper σ J) : Prop where
  active : k.phase.Active
  phase : k'.phase = k.phase
  done : d.action j k.writer.current = .done k'.writer.current
  deeds : k.deeds k' = [⟨k.writer.current, j⟩]
  waiting : ∃ others, k.waiting.Perm (j :: others) ∧
    k'.waiting.Perm (others ++ (d.again? k.writer.current j).toList)

/-- A move in which no job is done. Unless the keeper failed the store is as it was, and as long as it
works all jobs go on waiting. -/
structure Idles (k k' : Keeper σ J) : Prop where
  deeds : k.deeds k' = []
  waiting : k'.waiting.Subperm k.waiting
  working : k'.phase = .working → k.phase = .working ∧ k'.waiting.Perm k.waiting
  store : k'.phase ≠ .failed → k.phase ≠ .failed ∧ k'.writer.current = k.writer.current

theorem deeds_of_failed (h : k'.phase = .failed) : k.deeds k' = [] := if_pos h

theorem deeds_of_queue_le (h : k.queue.length ≤ k'.queue.length) : k.deeds k' = [] := by
  unfold deeds
  rw [Nat.sub_eq_zero_of_le h]
  split <;> rfl

theorem deeds_of_cons {rest : List J} (hphase : k'.phase ≠ .failed) (hqueue : k.queue = j :: rest)
    (hrest : k'.queue = rest) : k.deeds k' = [⟨k.writer.current, j⟩] := by
  unfold deeds
  rw [if_neg hphase, hqueue, hrest, List.length_cons, Nat.add_sub_cancel_left]
  rfl

theorem idles_of_failed (hphase : k'.phase = .failed) (hwaiting : k'.waiting.Sublist k.waiting) :
    Idles k k' where
  deeds := deeds_of_failed hphase
  waiting := hwaiting.subperm
  working h := nomatch hphase.symm.trans h
  store h := absurd hphase h

/-- A move that leaves the jobs and the store. -/
theorem idles_of_eq (hqueue : k'.queue = k.queue) (hlater : k'.later = k.later)
    (hworking : k'.phase = .working → k.phase = .working)
    (hstore : k'.phase ≠ .failed → k.phase ≠ .failed ∧ k'.writer.current = k.writer.current) :
    Idles k k' := by
  have hwaiting : k'.waiting = k.waiting := by rw [waiting, hqueue, hlater, ← waiting]
  exact ⟨deeds_of_queue_le (Nat.le_of_eq (congrArg List.length hqueue.symm)),
    hwaiting ▸ List.Subperm.refl _, fun h => ⟨hworking h, hwaiting ▸ List.Perm.refl _⟩, hstore⟩

/-- A keeper that does not clean its store does one job in a move, or none. -/
theorem Step.does_or_idles (hd : d.cleaning? = none) (hstep : Step d asked k k') :
    (∃ j, Does d j k k') ∨ Idles k k' := by
  cases hstep with
  | @work j rest w hactive hqueue hdone =>
    refine .inl ⟨j, hactive, rfl, done_of_execute hdone,
      deeds_of_cons hactive.ne_failed hqueue rfl, rest ++ k.later, ?_, ?_⟩
    · rw [waiting, hqueue]
      exact List.Perm.refl _
    · rw [waiting, ← List.append_assoc]
  | @workFails j rest w cause hactive hqueue hfailed =>
    refine .inr (idles_of_failed rfl ?_)
    rw [waiting, waiting, hqueue]
    exact List.sublist_cons_self j _
  | commit hphase =>
    exact .inr (idles_of_eq rfl rfl id fun hwhole => ⟨hwhole, rfl⟩)
  | clean _ hcleaning | cleanNothing _ hcleaning | cleanFails _ hcleaning =>
    exact nomatch hd.symm.trans hcleaning
  | @again j before after hlater hroom =>
    have hwaiting : (k.queue ++ [j] ++ (before ++ after)).Perm k.waiting := by
      rw [waiting, hlater, List.append_assoc, List.singleton_append]
      exact List.Perm.append_left _ List.perm_middle.symm
    refine .inr ⟨deeds_of_queue_le ?_, hwaiting.subperm, fun h => ⟨h, hwaiting⟩, fun h => ⟨h, rfl⟩⟩
    show k.queue.length ≤ (k.queue ++ [j]).length
    rw [List.length_append]
    exact Nat.le_add_right _ _
  | @forget j before after hlater hphase =>
    have hwaiting : (k.queue ++ (before ++ after)).Sublist k.waiting := by
      rw [waiting, hlater]
      exact (((List.sublist_cons_self j after).append_left before).append_left k.queue)
    exact .inr ⟨deeds_of_queue_le (Nat.le_refl _), hwaiting.subperm, fun h => absurd h hphase,
      fun h => ⟨h, rfl⟩⟩
  | stop hphase => exact .inr (idles_of_eq rfl rfl nofun fun _ => ⟨hphase ▸ nofun, rfl⟩)
  | finish hphase => exact .inr (idles_of_eq rfl rfl nofun fun _ => ⟨hphase ▸ nofun, rfl⟩)
  | storeFails => exact .inr (idles_of_failed rfl (List.Sublist.refl _))

/-! ## Marks -/

/-- The keeper with its jobs by other names. -/
def map (f : J → J') (k : Keeper σ J) : Keeper σ J' :=
  ⟨k.phase, k.queue.map f, k.later.map f, k.writer, k.cleaned⟩

/-- No job is marked. -/
def unmarked (k : Keeper σ J) : Keeper σ (Bool × J) := k.map fun j => (false, j)

theorem map_push (f : J → J') (k : Keeper σ J) (j : J) : (k.push j).map f = (k.map f).push (f j) := by
  simp [map, push]

theorem map_unmarked (k : Keeper σ J) : k.unmarked.map Prod.snd = k := by
  simp [map, unmarked, Function.comp_def]

theorem deeds_map (f : J → J') (k k' : Keeper σ J) :
    (k.map f).deeds (k'.map f) = (k.deeds k').map (Deed.map f) := by
  unfold deeds
  show (if k'.phase = .failed then _ else _) = _
  split
  · rfl
  · simp [map, Deed.map, List.map_take, Function.comp_def]

theorem snd_again?_marked (d : Duties σ J) (s : σ) (j : Bool × J) :
    (d.marked.again? s j).toList.map Prod.snd = (d.again? s j.2).toList := by
  show ((d.again? s j.2).map fun next => (j.1, next)).toList.map Prod.snd = _
  cases d.again? s j.2 <;> rfl

/-- What leads to another job hands its mark on. -/
theorem filter_again?_marked (d : Duties σ J) (s : σ) (marked : Bool) (j : J) :
    (d.marked.again? s (marked, j)).toList.filter (·.1) =
      if marked then (d.marked.again? s (marked, j)).toList else [] := by
  show ((d.again? s j).map fun next => (marked, next)).toList.filter (·.1) =
    if marked then ((d.again? s j).map fun next => (marked, next)).toList else []
  cases d.again? s j <;> cases marked <;> rfl

variable {m m' : Keeper σ (Bool × J)}

theorem hasRoom_unmark : (m.map Prod.snd).HasRoom d ↔ m.HasRoom d.marked := by
  simp [HasRoom, map, Duties.marked]

theorem Step.unmark (hstep : Step d.marked asked m m') :
    Step d asked (m.map Prod.snd) (m'.map Prod.snd) := by
  have hqueue {j : Bool × J} {rest : List (Bool × J)} (h : m.queue = j :: rest) :
      (m.map Prod.snd).queue = j.2 :: rest.map Prod.snd := congrArg (List.map Prod.snd) h
  have hlater {j : Bool × J} {before after : List (Bool × J)} (h : m.later = before ++ j :: after) :
      (m.map Prod.snd).later = before.map Prod.snd ++ j.2 :: after.map Prod.snd := by
    simp [map, h]
  cases hstep with
  | @work j rest w hactive hfirst hdone =>
    have hmove : Step d asked (m.map Prod.snd) _ := .work hactive (hqueue hfirst) hdone
    rw [← snd_again?_marked] at hmove
    simpa only [map, List.map_append] using hmove
  | workFails hactive hfirst hfailed => exact .workFails hactive (hqueue hfirst) hfailed
  | commit hphase => exact .commit hphase
  | clean hphase hcleaning hdone hchanged => exact .clean hphase hcleaning hdone hchanged
  | cleanNothing hphase hcleaning hdone hsame => exact .cleanNothing hphase hcleaning hdone hsame
  | cleanFails hphase hcleaning hfailed => exact .cleanFails hphase hcleaning hfailed
  | again hplace hroom =>
    have hmove : Step d asked (m.map Prod.snd) _ := .again (hlater hplace) (hasRoom_unmark.2 hroom)
    simpa only [map, push, List.map_append, List.map_cons, List.map_nil] using hmove
  | forget hplace hphase =>
    have hmove : Step d asked (m.map Prod.snd) _ := .forget (hlater hplace) hphase
    simpa only [map, List.map_append] using hmove
  | stop hphase hasked => exact .stop hphase hasked
  | finish hphase hempty => exact .finish hphase (congrArg (List.map Prod.snd) hempty)
  | storeFails hactive => exact .storeFails hactive

/-- Every move is one of marked jobs, however the jobs that wait are marked. -/
theorem Step.exists_marked (hstep : Step d asked (m.map Prod.snd) k') :
    ∃ m', Step d.marked asked m m' ∧ m'.map Prod.snd = k' := by
  cases hstep with
  | work hactive hfirst hdone =>
    obtain ⟨j, rest, hqueue, rfl, rfl⟩ := List.map_eq_cons_iff.1 hfirst
    refine ⟨_, .work hactive hqueue hdone, ?_⟩
    simp only [map, List.map_append, snd_again?_marked]
  | workFails hactive hfirst hfailed =>
    obtain ⟨j, rest, hqueue, rfl, rfl⟩ := List.map_eq_cons_iff.1 hfirst
    exact ⟨_, .workFails hactive hqueue hfailed, rfl⟩
  | commit hphase => exact ⟨_, .commit hphase, rfl⟩
  | clean hphase hcleaning hdone hchanged => exact ⟨_, .clean hphase hcleaning hdone hchanged, rfl⟩
  | cleanNothing hphase hcleaning hdone hsame =>
    exact ⟨_, .cleanNothing hphase hcleaning hdone hsame, rfl⟩
  | cleanFails hphase hcleaning hfailed => exact ⟨_, .cleanFails hphase hcleaning hfailed, rfl⟩
  | again hplace hroom =>
    obtain ⟨before, others, hlater, rfl, hothers⟩ := List.map_eq_append_iff.1 hplace
    obtain ⟨j, after, rfl, rfl, rfl⟩ := List.map_eq_cons_iff.1 hothers
    refine ⟨_, .again hlater (hasRoom_unmark.1 hroom), ?_⟩
    simp only [map, push, List.map_append, List.map_cons, List.map_nil]
  | forget hplace hphase =>
    obtain ⟨before, others, hlater, rfl, hothers⟩ := List.map_eq_append_iff.1 hplace
    obtain ⟨j, after, rfl, rfl, rfl⟩ := List.map_eq_cons_iff.1 hothers
    refine ⟨_, .forget hlater hphase, ?_⟩
    simp only [map, List.map_append]
  | stop hphase hasked => exact ⟨_, .stop hphase hasked, rfl⟩
  | finish hphase hempty => exact ⟨_, .finish hphase (List.map_eq_nil_iff.1 hempty), rfl⟩
  | storeFails hactive => exact ⟨_, .storeFails hactive, rfl⟩

/-- Marked jobs with the marks taken off take the course of jobs. -/
theorem Course.unmark {sent : Bool × J → Prop} {log : List (Deed σ (Bool × J))}
    {m₀ : Keeper σ (Bool × J)} (h : Course d.marked sent m₀ log m) :
    Course d (fun _ => True) (m₀.map Prod.snd) (log.map (Deed.map Prod.snd)) (m.map Prod.snd) := by
  induction h with
  | start => exact .start
  | send _ hroom _ ih =>
    rw [map_push]
    exact ih.send (hasRoom_unmark.2 hroom) trivial
  | step _ hstep ih =>
    rw [List.map_append, ← deeds_map]
    exact ih.step hstep.unmark

/-- Whatever course jobs take, the same course is taken by jobs of which none is marked when it is
sent. -/
theorem Course.exists_marked {log : List (Deed σ J)} {m₀ : Keeper σ (Bool × J)}
    (h : Course d (fun _ => True) (m₀.map Prod.snd) log k) :
    ∃ log' m, Course d.marked (fun j => j.1 = false) m₀ log' m ∧
      log'.map (Deed.map Prod.snd) = log ∧ m.map Prod.snd = k := by
  induction h with
  | start => exact ⟨[], m₀, .start, rfl, rfl⟩
  | @send log k j _ hroom _ ih =>
    obtain ⟨log', m, hcourse, hlog, rfl⟩ := ih
    exact ⟨log', _, hcourse.send (j := (false, j)) (hasRoom_unmark.1 hroom) rfl, hlog, map_push ..⟩
  | step _ hstep ih =>
    obtain ⟨log', m, hcourse, rfl, rfl⟩ := ih
    obtain ⟨m', hmarked, rfl⟩ := hstep.exists_marked
    refine ⟨_, m', hcourse.step hmarked, ?_, rfl⟩
    rw [List.map_append, deeds_map]

/-! ## Working off -/

/-- A keeper does the job that waits first, if it can be done. -/
theorem exists_does (hphase : k.phase = .working) {rest : List J} (hqueue : k.queue = j :: rest)
    (hpossible : IsPossible d j) :
    ∃ k', Step d False k k' ∧ k'.phase = .working ∧ k'.queue = rest ∧
      k'.later = k.later ++ (d.again? k.writer.current j).toList ∧
      k.deeds k' = [⟨k.writer.current, j⟩] := by
  obtain ⟨s, hs⟩ := hpossible k.writer.current
  exact ⟨_, .work (hphase ▸ trivial) hqueue (execute_of_done hs), hphase, rfl, rfl,
    deeds_of_cons (hphase ▸ nofun) hqueue rfl⟩

variable {sent : J → Prop} {k₀ : Keeper σ J} {log : List (Deed σ J)}

/-- A keeper can do all jobs in its queue, if they can be done. -/
theorem Course.exists_idle (h : Course d sent k₀ log k) (hphase : k.phase = .working)
    (hpossible : ∀ j ∈ k.queue, IsPossible d j) :
    ∃ more k', Course d sent k₀ (log ++ more) k' ∧ k'.phase = .working ∧ k'.queue = [] := by
  induction hqueue : k.queue generalizing log k with
  | nil => exact ⟨[], k, (List.append_nil log).symm ▸ h, hphase, hqueue⟩
  | cons j rest ih =>
    rw [hqueue] at hpossible
    obtain ⟨k', hstep, hphase', hrest, -, -⟩ :=
      exists_does hphase hqueue (hpossible j List.mem_cons_self)
    obtain ⟨more, k'', hcourse, hworking, hidle⟩ := ih (h.step hstep) hphase'
      (fun i hi => hpossible i (List.mem_cons_of_mem j (hrest ▸ hi))) hrest
    exact ⟨_, k'', (List.append_assoc log _ _) ▸ hcourse, hworking, hidle⟩

/-- When nothing waits in the queue, a job that is to be sent later can be sent and done. -/
theorem Course.exists_later (h : Course d sent k₀ log k) (hphase : k.phase = .working)
    (hqueue : k.queue = []) (hj : j ∈ k.later) (hpossible : IsPossible d j) :
    ∃ k', Course d sent k₀ (log ++ [⟨k.writer.current, j⟩]) k' ∧ k'.phase = .working ∧
      k'.queue = [] := by
  obtain ⟨before, after, hlater⟩ := List.append_of_mem hj
  have hroom : k.HasRoom d := by
    refine ⟨hphase, ?_⟩
    rw [hqueue]
    exact Nat.lt_of_lt_of_le Nat.one_pos (Nat.le_max_right _ _)
  obtain ⟨k₁, hsent, hphase₁, hqueue₁, hsame⟩ : ∃ k₁, Course d sent k₀ log k₁ ∧
      k₁.phase = .working ∧ k₁.queue = [j] ∧ k₁.writer.current = k.writer.current := by
    have hstep : Step d False k { k.push j with later := before ++ after } := .again hlater hroom
    have hsent := h.step hstep
    rw [deeds_of_queue_le (by simp [push]), List.append_nil] at hsent
    exact ⟨_, hsent, hphase, by simp [push, hqueue], rfl⟩
  obtain ⟨k', hstep, hworking, hidle, -, hdeeds⟩ := exists_does hphase₁ hqueue₁ hpossible
  have hdone := hsent.step hstep
  rw [hdeeds, hsame] at hdone
  exact ⟨k', hdone, hworking, hidle⟩

end Keeper

end MailTrace
