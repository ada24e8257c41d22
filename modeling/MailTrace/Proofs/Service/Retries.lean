import MailTrace.Proofs.Service.References
import MailTrace.Proofs.Store.Bounces
import MailTrace.Proofs.Store.Trails
import MailTrace.Service.Flow

/-!
# Retries of a bounce

A bounce that tells of no delivery yet is tried again later, when other jobs have changed the ledger. Its
attempts are jobs like all others, so they are followed by a mark.

1. Which attempt is due is known from the attempts that were made (`due`): the next one, as long as all
   of them missed and some are left. It waits among the jobs, and no other attempt does (`Pursued`).
2. Every move keeps this so (`Pursued.step`). If the attempt that was due is made, what it leads to is
   the attempt that is due then (`again?_eq_due`).
3. The attempt that finds a delivery is the last one (`Pursued.bouncedBy`).
4. As long as the keeper works, the attempts can be made until none is due (`exists_settled`).
-/

namespace MailTrace.Ledger

open Keeper

/-! ## Attempts -/

/-- A job that the keeper of the ledger did, and the ledger that it found. -/
abbrev JobDeed := Deed Ledger (Bool × Job)

/-- The attempts at the bounce that is followed. -/
def attempts (log : List JobDeed) : List JobDeed := log.filter (·.job.1)

/-- There was no delivery that the bounce tells of. -/
def Missed (b : BounceReport) (e : JobDeed) : Prop := ∀ r ∈ e.found.deliveries.rows, ¬ Tells b r.2

instance (b : BounceReport) (e : JobDeed) : Decidable (Missed b e) :=
  inferInstanceAs (Decidable (∀ r ∈ _, _))

/-- All attempts so far missed, and one is left. -/
def IsOpen (b : BounceReport) (retries : Nat) (made : List JobDeed) : Prop :=
  made.length ≤ retries ∧ ∀ e ∈ made, Missed b e

instance (b : BounceReport) (retries : Nat) (made : List JobDeed) : Decidable (IsOpen b retries made) :=
  inferInstanceAs (Decidable (_ ∧ _))

/-- The attempt that is due after those that were made, if one is. -/
def due (b : BounceReport) (retries : Nat) (made : List JobDeed) : List (Bool × Job) :=
  if IsOpen b retries made then [(true, ⟨.bounce b, retries - made.length⟩)] else []

/-- What the jobs make of a ledger, of the attempts only those that did not miss. -/
def outcome (b : BounceReport) (l : Ledger) (log : List JobDeed) : Ledger :=
  (log.filter fun e => !(e.job.1 && decide (Missed b e))).foldl (fun l e => l.apply e.job.2.write) l

section Attempts

variable {b : BounceReport} {retries : Nat} {l : Ledger} {log made : List JobDeed} {e : JobDeed}

theorem attempts_append (log more : List JobDeed) :
    attempts (log ++ more) = attempts log ++ attempts more := List.filter_append ..

theorem attempts_concat_of_marked (h : e.job.1 = true) : attempts (log ++ [e]) = attempts log ++ [e] := by
  rw [attempts_append, attempts, attempts, List.filter_singleton, h]
  rfl

theorem attempts_concat_of_unmarked (h : e.job.1 = false) : attempts (log ++ [e]) = attempts log := by
  rw [attempts_append, attempts, attempts, List.filter_singleton, h]
  exact List.append_nil _

theorem missed_iff : Missed b e ↔ e.found.matchedBy b = [] := matchedBy_eq_nil_iff.symm

theorem outcome_concat (b : BounceReport) (l : Ledger) (log : List JobDeed) (e : JobDeed) :
    outcome b l (log ++ [e]) =
      if e.job.1 = true ∧ Missed b e then outcome b l log
      else (outcome b l log).apply e.job.2.write := by
  unfold outcome
  rw [List.filter_append, List.foldl_append, List.filter_singleton]
  by_cases h : e.job.1 = true ∧ Missed b e
  · simp [h]
  · have hcounts : (!(e.job.1 && decide (Missed b e))) = true := by
      rw [Bool.not_eq_true', ← Bool.not_eq_true]
      simpa using h
    rw [if_neg h, hcounts]
    rfl

theorem isOpen_concat_iff :
    IsOpen b retries (made ++ [e]) ↔ IsOpen b retries made ∧ Missed b e ∧ 0 < retries - made.length := by
  unfold IsOpen
  simp only [List.length_append, List.length_singleton, List.forall_mem_append,
    List.forall_mem_singleton]
  constructor
  · rintro ⟨hleft, hmissed, hlast⟩
    exact ⟨⟨by omega, hmissed⟩, hlast, by omega⟩
  · rintro ⟨⟨-, hmissed⟩, hlast, hleft⟩
    exact ⟨by omega, hmissed, hlast⟩

/-- A bounce is tried again if it missed and attempts are left. -/
theorem again?_bounce (l : Ledger) (b : BounceReport) (n : Nat) :
    Job.again? l ⟨.bounce b, n⟩ =
      if l.matchedBy b = [] ∧ 0 < n then some ⟨.bounce b, n - 1⟩ else none := by
  show (l.attempt ⟨b, n⟩).2.map _ = _
  unfold attempt
  by_cases hmissed : l.matchedBy b = []
  · cases n with
    | zero => simp [hmissed, BounceAttempt.again?]
    | succ n => simp [hmissed, BounceAttempt.again?]
  · simp [hmissed]

/-- What the attempt that was due leads to is the attempt that is due then. -/
theorem again?_eq_due (c : Config) (hopen : IsOpen b retries made) (l : Ledger) :
    ((duties c).marked.again? l (true, ⟨.bounce b, retries - made.length⟩)).toList =
      due b retries (made ++ [⟨l, (true, ⟨.bounce b, retries - made.length⟩)⟩]) := by
  have hagain : (duties c).marked.again? l (true, ⟨.bounce b, retries - made.length⟩) =
      (Job.again? l ⟨.bounce b, retries - made.length⟩).map fun next => (true, next) := rfl
  have hopens : IsOpen b retries (made ++ [⟨l, (true, ⟨.bounce b, retries - made.length⟩)⟩]) ↔
      l.matchedBy b = [] ∧ 0 < retries - made.length := by
    rw [isOpen_concat_iff, missed_iff]
    exact and_iff_right hopen
  rw [hagain, again?_bounce]
  by_cases h : l.matchedBy b = [] ∧ 0 < retries - made.length
  · rw [if_pos h, due, if_pos (hopens.2 h), List.length_append]
    rfl
  · rw [if_neg h, due, if_neg (mt hopens.1 h)]
    rfl

end Attempts

/-! ## The attempt that waits -/

/-- What is known of a keeper from `l` on that was sent a bounce with a number of retries, and of all it
did since. Its attempts are made one after the other with fewer and fewer retries, and all but the last
one missed. If one is due it is the only one that waits. The ledger is what the jobs made of it, where
attempts that missed made nothing. -/
structure Pursued (b : BounceReport) (retries : Nat) (l : Ledger) (log : List JobDeed)
    (k : Keeper Ledger (Bool × Job)) : Prop where
  count : (attempts log).length ≤ retries + 1
  jobs : (attempts log).map (·.job.2) =
    (List.range (attempts log).length).map fun i => ⟨.bounce b, retries - i⟩
  missed : ∀ e ∈ (attempts log).dropLast, Missed b e
  found : ∀ before e, before ++ [e] <+: log → e.found = outcome b l before
  ledger : k.phase ≠ .failed → k.writer.current = outcome b l log
  waiting : (k.waiting.filter (·.1)).Subperm (due b retries (attempts log))
  working : k.phase = .working → (k.waiting.filter (·.1)).Perm (due b retries (attempts log))

/-- The keeper of the ledger goes on after it was sent a bounce, and only this one is followed. -/
abbrev Pursuit (c : Config) (b : BounceReport) (retries : Nat) (k₀ : Keeper Ledger Job) :
    List JobDeed → Keeper Ledger (Bool × Job) → Prop :=
  Course (duties c).marked (fun j => j.1 = false) (k₀.unmarked.push (true, ⟨.bounce b, retries⟩))

section Pursued

variable {c : Config} {b : BounceReport} {retries : Nat} {l : Ledger} {log : List JobDeed}
  {k k' : Keeper Ledger (Bool × Job)} {k₀ : Keeper Ledger Job}

theorem Pursued.start (b : BounceReport) (retries : Nat) (k₀ : Keeper Ledger Job) :
    Pursued b retries k₀.writer.current [] (k₀.unmarked.push (true, ⟨.bounce b, retries⟩)) := by
  have hone : (k₀.unmarked.push (true, ⟨.bounce b, retries⟩)).waiting.filter (·.1) =
      [(true, ⟨.bounce b, retries⟩)] := by
    simp [Keeper.waiting, push, unmarked, Keeper.map, List.filter_map, Function.comp_def]
  have hdue : due b retries [] = [(true, ⟨.bounce b, retries⟩)] :=
    if_pos ⟨Nat.zero_le _, fun _ he => absurd he List.not_mem_nil⟩
  refine ⟨Nat.zero_le _, rfl, fun _ he => absurd he List.not_mem_nil, fun before e h => ?_,
    fun _ => rfl, ?_, fun _ => ?_⟩
  · simp at h
  · rw [hone]
    exact hdue ▸ List.Subperm.refl _
  · rw [hone]
    exact hdue ▸ List.Perm.refl _

theorem Pursued.send (h : Pursued b retries l log k) {j : Bool × Job} (hj : j.1 = false) :
    Pursued b retries l log (k.push j) := by
  have hsame : (k.push j).waiting.filter (·.1) = k.waiting.filter (·.1) := by
    simp [Keeper.waiting, push, hj]
  exact ⟨h.count, h.jobs, h.missed, h.found, h.ledger, hsame ▸ h.waiting, hsame ▸ h.working⟩

theorem Pursued.idles (h : Pursued b retries l log k) (hmove : Idles k k') :
    Pursued b retries l log k' := by
  refine ⟨h.count, h.jobs, h.missed, h.found, fun hwhole => ?_, ?_, fun hworking => ?_⟩
  · obtain ⟨hbefore, hsame⟩ := hmove.store hwhole
    exact hsame.trans (h.ledger hbefore)
  · exact (hmove.waiting.filter _).trans h.waiting
  · obtain ⟨hbefore, hsame⟩ := hmove.working hworking
    exact (hsame.filter _).trans (h.working hbefore)

/-- Every job finds what those before it made. -/
theorem Pursued.found_concat (h : Pursued b retries l log k) (hwhole : k.phase ≠ .failed)
    (j : Bool × Job) :
    ∀ before e, before ++ [e] <+: log ++ [⟨k.writer.current, j⟩] → e.found = outcome b l before := by
  intro before e hprefix
  rcases List.prefix_concat_iff.1 hprefix with heq | hprefix
  · obtain ⟨rfl, he⟩ := List.append_inj' heq rfl
    cases he
    exact h.ledger hwhole
  · exact h.found before e hprefix

/-- An attempt that missed makes nothing of the ledger. -/
theorem Pursued.ledger_concat (h : Pursued b retries l log k) {j : Bool × Job}
    (hdoes : Does (duties c).marked j k k') (hj : j.1 = true → j.2.write = .bounce b) :
    k'.writer.current = outcome b l (log ++ [⟨k.writer.current, j⟩]) := by
  have hdone : k'.writer.current = k.writer.current.apply j.2.write := action_done hdoes.done
  rw [outcome_concat, hdone, ← h.ledger hdoes.active.ne_failed]
  split
  · next hmissed =>
    rw [hj hmissed.1]
    exact bounce_of_matchedBy_eq_nil (missed_iff.1 hmissed.2)
  · rfl

/-- A job that is no attempt leaves the attempts as they are. -/
theorem Pursued.does_unmarked (h : Pursued b retries l log k) {j : Job}
    (hdoes : Does (duties c).marked (false, j) k k') :
    Pursued b retries l (log ++ [⟨k.writer.current, (false, j)⟩]) k' := by
  obtain ⟨others, hbefore, hafter⟩ := hdoes.waiting
  have hsame : (k'.waiting.filter (·.1)).Perm (k.waiting.filter (·.1)) := by
    refine (hafter.filter _).trans (List.Perm.trans ?_ (hbefore.filter _).symm)
    rw [List.filter_append, filter_again?_marked, List.filter_cons_of_neg Bool.false_ne_true]
    exact List.Perm.of_eq (List.append_nil _)
  have hattempts : attempts (log ++ [⟨k.writer.current, (false, j)⟩]) = attempts log :=
    attempts_concat_of_unmarked rfl
  refine ⟨?_, ?_, ?_, h.found_concat hdoes.active.ne_failed _, fun _ => h.ledger_concat hdoes nofun,
    ?_, fun hworking => ?_⟩
  all_goals rw [hattempts]
  · exact h.count
  · exact h.jobs
  · exact h.missed
  · exact hsame.subperm.trans h.waiting
  · exact hsame.trans (h.working (hdoes.phase ▸ hworking))

/-- An attempt that is done is the one that was due. -/
theorem Pursued.does_marked (h : Pursued b retries l log k) {j : Job}
    (hdoes : Does (duties c).marked (true, j) k k') :
    Pursued b retries l (log ++ [⟨k.writer.current, (true, j)⟩]) k' := by
  obtain ⟨others, hbefore, hafter⟩ := hdoes.waiting
  have hwaits := h.waiting
  rw [(hbefore.filter _).subperm_right, List.filter_cons_of_pos rfl] at hwaits
  have hopen : IsOpen b retries (attempts log) := by
    by_contra hclosed
    rw [due, if_neg hclosed] at hwaits
    exact List.cons_ne_nil _ _ (List.subperm_nil.1 hwaits)
  rw [due, if_pos hopen] at hwaits
  have hothers : others.filter (·.1) = [] :=
    List.length_eq_zero_iff.1 (Nat.le_zero.1 (Nat.le_of_succ_le_succ hwaits.length_le))
  rw [hothers] at hwaits
  obtain ⟨-, rfl⟩ := Prod.mk.inj (List.mem_singleton.1 (hwaits.subset (List.mem_singleton_self _)))
  have hwaiting : (k'.waiting.filter (·.1)).Perm (due b retries (attempts log ++
      [⟨k.writer.current, (true, ⟨.bounce b, retries - (attempts log).length⟩)⟩])) := by
    rw [← again?_eq_due c hopen]
    refine (hafter.filter _).trans (List.Perm.of_eq ?_)
    rw [List.filter_append, filter_again?_marked, hothers]
    rfl
  have hattempts : attempts (log ++
      [⟨k.writer.current, (true, ⟨.bounce b, retries - (attempts log).length⟩)⟩]) = _ :=
    attempts_concat_of_marked rfl
  refine ⟨?_, ?_, ?_, h.found_concat hdoes.active.ne_failed _,
    fun _ => h.ledger_concat hdoes fun _ => rfl, ?_, fun _ => ?_⟩
  all_goals rw [hattempts]
  · rw [List.length_append]
    exact Nat.succ_le_succ hopen.1
  · rw [List.map_append, h.jobs, List.length_append, List.length_singleton, List.range_succ,
      List.map_append]
    rfl
  · rw [List.dropLast_concat]
    exact hopen.2
  · exact hwaiting.subperm
  · exact hwaiting

theorem Pursued.step {asked : Prop} (h : Pursued b retries l log k)
    (hstep : Step (duties c).marked asked k k') : Pursued b retries l (log ++ k.deeds k') k' := by
  rcases hstep.does_or_idles rfl with ⟨⟨marked, j⟩, hdoes⟩ | hidles
  · rw [hdoes.deeds]
    cases marked with
    | false => exact h.does_unmarked hdoes
    | true => exact h.does_marked hdoes
  · rw [hidles.deeds, List.append_nil]
    exact h.idles hidles

/-- This is known as long as the bounce is followed. -/
theorem pursued_of_pursuit (h : Pursuit c b retries k₀ log k) :
    Pursued b retries k₀.writer.current log k := by
  induction h with
  | start => exact .start b retries k₀
  | send _ _ hsent ih => exact ih.send hsent
  | step _ hstep ih => exact ih.step hstep

theorem Pursued.eq_bounce (h : Pursued b retries l log k) {e : JobDeed} (he : e ∈ attempts log) :
    e.job.2.write = .bounce b := by
  have hmem : e.job.2 ∈ (attempts log).map (·.job.2) := List.mem_map_of_mem he
  rw [h.jobs] at hmem
  obtain ⟨i, -, hi⟩ := List.mem_map.1 hmem
  rw [← hi]

/-- An attempt that finds a delivery is the last one, and makes what the bounce makes. -/
theorem Pursued.bouncedBy (h : Pursued b retries l log k) {before after : List JobDeed} {e : JobDeed}
    (hlog : log = before ++ e :: after) (hmarked : e.job.1 = true) (hfound : ¬ Missed b e) :
    attempts after = [] ∧ BouncedBy b e.found (outcome b l (before ++ [e])) := by
  have hattempts : attempts log = attempts before ++ e :: attempts after := by
    rw [hlog, ← List.singleton_append, attempts_append, attempts_append, attempts, attempts, attempts,
      List.filter_singleton, hmarked]
    rfl
  constructor
  · by_contra hmore
    refine hfound (h.missed e ?_)
    rw [hattempts, List.dropLast_append_cons, List.dropLast_cons_of_ne_nil hmore]
    exact List.mem_append_right _ List.mem_cons_self
  · have hwrite : e.job.2.write = .bounce b := h.eq_bounce (by rw [hattempts]; simp)
    have hprefix : before ++ [e] <+: log := ⟨after, by simp [hlog]⟩
    rw [outcome_concat, if_neg fun hmissed => hfound hmissed.2, ← h.found before e hprefix, hwrite]
    exact bouncedBy_bounce e.found b

/-- If all attempts missed, the ledger is what the other jobs made of it. -/
theorem outcome_of_missed (l : Ledger) (h : ∀ e ∈ attempts log, Missed b e) :
    outcome b l log =
      (log.filter fun e => !e.job.1).foldl (fun l e => l.apply e.job.2.write) l := by
  unfold outcome
  congr 1
  refine List.filter_congr fun e he => ?_
  cases hmarked : e.job.1 with
  | false => rfl
  | true => simp [h e (List.mem_filter.2 ⟨he, hmarked⟩)]

/-! ## The attempts to come -/

theorem isPossible_bounce (c : Config) (marked : Bool) (b : BounceReport) (n : Nat) :
    IsPossible (duties c).marked (marked, ⟨.bounce b, n⟩) := fun l => ⟨l.bounce b, rfl⟩

/-- A keeper that has come to the end of its queue can make the attempts that are due. -/
theorem exists_settled_of_idle (h : Pursuit c b retries k₀ log k) (hphase : k.phase = .working)
    (hqueue : k.queue = []) :
    ∃ more k', Pursuit c b retries k₀ (log ++ more) k' ∧ k'.phase = .working ∧
      ¬ IsOpen b retries (attempts (log ++ more)) := by
  induction hleft : retries + 1 - (attempts log).length generalizing log k with
  | zero => exact ⟨[], k, (List.append_nil log).symm ▸ h, hphase, fun hopen => by
      have := hopen.1
      rw [List.append_nil] at this
      omega⟩
  | succ n ih =>
    by_cases hopen : IsOpen b retries (attempts log)
    · have hwaits := (pursued_of_pursuit h).working hphase
      rw [due, if_pos hopen, Keeper.waiting, hqueue, List.nil_append] at hwaits
      have hlater := (List.mem_filter.1 (hwaits.mem_iff.2 (List.mem_singleton_self _))).1
      obtain ⟨k', hdone, hphase', hqueue'⟩ :=
        h.exists_later hphase hqueue hlater (isPossible_bounce c true b _)
      obtain ⟨more, k'', hmore, hworking, hclosed⟩ := ih hdone hphase' hqueue' (by
        rw [attempts_concat_of_marked rfl, List.length_append, List.length_singleton]
        omega)
      rw [List.append_assoc] at hmore hclosed
      exact ⟨_, k'', hmore, hworking, hclosed⟩
    · exact ⟨[], k, (List.append_nil log).symm ▸ h, hphase, (List.append_nil log).symm ▸ hopen⟩

theorem exists_settled (h : Pursuit c b retries k₀ log k) (hphase : k.phase = .working)
    (hpossible : ∀ j ∈ k.queue, IsPossible (duties c) j.2) :
    ∃ more k', Pursuit c b retries k₀ (log ++ more) k' ∧ k'.phase = .working ∧
      ¬ IsOpen b retries (attempts (log ++ more)) := by
  obtain ⟨before, k', hidle, hphase', hqueue'⟩ := h.exists_idle hphase hpossible
  obtain ⟨after, k'', hsettled, hworking, hclosed⟩ := exists_settled_of_idle hidle hphase' hqueue'
  rw [List.append_assoc] at hsettled hclosed
  exact ⟨_, k'', hsettled, hworking, hclosed⟩

end Pursued

/-! ## Neither missed nor made twice -/

/-- **Retries of a bounce.** Whatever else the keeper of the ledger is sent and however it turns to its
jobs, the attempts at a bounce can be followed among them.

There are at most as many as the retries and one more, and each finds the ledger that the jobs before it
made. The first one that finds a delivery makes what the bounce makes, and no other follows. If none does,
the ledger is what the other jobs made of it. As long as the keeper works the attempt that is due waits,
and can be made. -/
theorem bounce_pursued (c : Config) (b : BounceReport) (retries : Nat) (k₀ : Keeper Ledger Job) :
    (∀ log k, Course (duties c) (fun _ => True) (k₀.push ⟨.bounce b, retries⟩) log k ↔
      ∃ log' k', Pursuit c b retries k₀ log' k' ∧ log'.map (Deed.map Prod.snd) = log ∧
        k'.map Prod.snd = k) ∧
      ∀ log k, Pursuit c b retries k₀ log k →
        Pursued b retries k₀.writer.current log k ∧
          (∀ before e after, log = before ++ e :: after → e.job.1 = true → ¬ Missed b e →
            attempts after = [] ∧
              BouncedBy b e.found (outcome b k₀.writer.current (before ++ [e]))) ∧
          ((∀ e ∈ attempts log, Missed b e) → k.phase ≠ .failed →
            k.writer.current = (log.filter fun e => !e.job.1).foldl
              (fun l e => l.apply e.job.2.write) k₀.writer.current) ∧
          (k.phase = .working → (∀ j ∈ k.queue, IsPossible (duties c) j.2) →
            ∃ more k', Pursuit c b retries k₀ (log ++ more) k' ∧ k'.phase = .working ∧
              ¬ IsOpen b retries (attempts (log ++ more))) := by
  refine ⟨fun log k => ?_, fun log k hpursuit => ?_⟩
  · have hstart : (k₀.unmarked.push (true, ⟨.bounce b, retries⟩)).map Prod.snd =
        k₀.push ⟨.bounce b, retries⟩ := by rw [map_push, map_unmarked]
    rw [← hstart]
    constructor
    · exact Course.exists_marked
    · rintro ⟨log', k', hpursuit, rfl, rfl⟩
      exact hpursuit.unmark
  · have hpursued := pursued_of_pursuit hpursuit
    refine ⟨hpursued, fun _ _ _ => hpursued.bouncedBy, fun hmissed hwhole => ?_,
      exists_settled hpursuit⟩
    rw [hpursued.ledger hwhole, outcome_of_missed _ hmissed]

end MailTrace.Ledger
