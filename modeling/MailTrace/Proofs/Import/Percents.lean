import Mathlib.Data.List.Induction
import Mathlib.Data.List.TakeWhile
import MailTrace.Proofs.Source.Connections

/-!
# Percents that ascend

A step is announced for a percent that was not announced before, whatever was announced since. As long
as the moments of the records go on the percents ascend, but a record from before can have a percent
that is lower than the last one and new.

1. The percents that were announced are the shares of the records so far, each where it came first, and
   then the hundred of the end (`Paced`). Every move keeps it so (`Paced.step`).
2. So they ascend unless a record falls back: its share is below an earlier one and new
   (`ascends_of_paced`).
-/

namespace MailTrace.Import

open MailTrace.Time

/-! ## Percents and shares -/

/-- The percent of a step. -/
def Announcement.percent? : Announcement → Option Int
  | .start _ => none
  | .step s => some s.percent

/-- The percents of the steps among some announcements. -/
def percentsOf (as : List Announcement) : List Int := as.filterMap (·.percent?)

/-- An event is the finished step of an import. -/
def Event.finishes : Event → Bool
  | .published _ => false
  | .announced a => a.finishes

/-- The moments of the records that are published while the import goes on: before its finished step,
and but for one past the clock, which ends it. -/
def goingTimes (clock : Instant) (events : List Event) : List Instant :=
  ((published (events.takeWhile fun e => !e.finishes)).map (·.time)).filter (· ≤ clock)

/-- The share of the expected time that had passed at one of some moments. -/
def shareOf (clock : Instant) (times : List Instant) (time : Instant) : Int :=
  (Progress.start clock).percent (times.headD clock) time

/-- The shares at all of the moments. -/
def shares (clock : Instant) (times : List Instant) : List Int := times.map (shareOf clock times)

/-- One of the moments falls back: the share at it is below one before and equal to none. -/
def FallsBack (clock : Instant) (times : List Instant) : Prop :=
  ∃ before time after, times = before ++ time :: after ∧
    (∀ u ∈ before, shareOf clock times u ≠ shareOf clock times time) ∧
    ∃ u ∈ before, shareOf clock times time < shareOf clock times u

section Lists

theorem eraseDups_concat (l : List Int) (b : Int) :
    (l ++ [b]).eraseDups = l.eraseDups ++ if b ∈ l then [] else [b] := by
  rw [List.eraseDups_append]
  by_cases h : b ∈ l
  · simp [List.removeAll, h]
  · have hone : [b].eraseDups = [b] := by rw [List.eraseDups_cons]; rfl
    simp [List.removeAll, h, hone]

/-- Numbers ascend, each where it came first, unless a new one is below one before. -/
theorem pairwise_eraseDups_iff (l : List Int) :
    l.eraseDups.Pairwise (· ≤ ·) ↔
      ∀ before b after, l = before ++ b :: after → b ∉ before → ∀ a ∈ before, a ≤ b := by
  induction l using List.reverseRecOn with
  | nil => simp
  | append_singleton l c ih =>
    have hsplit : (∀ before b after, l ++ [c] = before ++ b :: after → b ∉ before →
        ∀ a ∈ before, a ≤ b) ↔
        (∀ before b after, l = before ++ b :: after → b ∉ before → ∀ a ∈ before, a ≤ b) ∧
          (c ∉ l → ∀ a ∈ l, a ≤ c) := by
      constructor
      · refine fun h => ⟨fun before b after hl => h before b (after ++ [c]) ?_, h l c [] rfl⟩
        rw [hl, List.append_assoc]
        rfl
      · rintro ⟨hl, hc⟩ before b after hsplit
        rcases List.eq_nil_or_concat after with rfl | ⟨after, c', rfl⟩
        · obtain ⟨rfl, h⟩ := List.append_inj' hsplit rfl
          obtain rfl := List.singleton_inj.1 h
          exact hc
        · rw [List.concat_eq_append, ← List.cons_append, ← List.append_assoc] at hsplit
          exact hl before b after (List.append_inj' hsplit rfl).1
    rw [hsplit, ← ih, eraseDups_concat, List.pairwise_append]
    refine and_congr_right fun _ => ?_
    by_cases hc : c ∈ l
    · simp [hc]
    · simp [hc]

theorem pairwise_map_eraseDups_iff {α : Type} (f : α → Int) (l : List α) :
    (l.map f).eraseDups.Pairwise (· ≤ ·) ↔ ¬ ∃ before x after, l = before ++ x :: after ∧
      (∀ u ∈ before, f u ≠ f x) ∧ ∃ u ∈ before, f x < f u := by
  rw [pairwise_eraseDups_iff]
  constructor
  · rintro h ⟨before, x, after, rfl, hnew, u, hu, hlt⟩
    have hle := h (before.map f) (f x) (after.map f) List.map_append ?_ (f u)
      (List.mem_map_of_mem hu)
    · omega
    · rintro hmem
      obtain ⟨v, hv, hsame⟩ := List.mem_map.1 hmem
      exact hnew v hv hsame
  · intro h before b after hsplit hnew a ha
    obtain ⟨before, rest, rfl, rfl, hrest⟩ := List.map_eq_append_iff.1 hsplit
    obtain ⟨x, after, rfl, rfl, rfl⟩ := List.map_eq_cons_iff.1 hrest
    obtain ⟨u, hu, rfl⟩ := List.mem_map.1 ha
    refine Int.not_lt.1 fun hlt => h ⟨before, x, after, rfl, fun v hv hsame => ?_, u, hu, hlt⟩
    exact hnew (List.mem_map.2 ⟨v, hv, hsame⟩)

end Lists

section Shares

variable {clock first time u : Instant} {times : List Instant}

/-- The share does not fall when time goes on. -/
theorem percent_mono (hfirst : first ≤ clock) (h : time.second ≤ u.second) :
    (Progress.start clock).percent first time ≤ (Progress.start clock).percent first u := by
  have hspan : first.second ≤ clock.second := Instant.second_le_second hfirst
  unfold Progress.percent
  dsimp only [Progress.start]
  split
  · exact Int.le_refl _
  · have hpos : 0 < clock.second - first.second := by omega
    have hquotient : ((time.second - first.second) * 100).tdiv (clock.second - first.second) ≤
        ((u.second - first.second) * 100).tdiv (clock.second - first.second) :=
      Int.tdiv_le_tdiv hpos (by omega)
    omega

/-- One more moment adds one more share and leaves the others. -/
theorem shares_concat (clock : Instant) (times : List Instant) (time : Instant) :
    shares clock (times ++ [time]) =
      shares clock times ++ [(Progress.start clock).percent ((times.head?).getD time) time] := by
  cases times with
  | nil => rfl
  | cons first times =>
    unfold shares
    rw [List.map_append]
    rfl

theorem mem_shares_bounds {n : Int} (h : n ∈ shares clock times) : 0 ≤ n ∧ n ≤ 99 := by
  obtain ⟨time, -, rfl⟩ := List.mem_map.1 h
  exact Progress.percent_bounds ..

/-- The shares ascend, each where it came first, unless a moment falls back. -/
theorem pairwise_shares_iff :
    (shares clock times).eraseDups.Pairwise (· ≤ ·) ↔ ¬ FallsBack clock times :=
  pairwise_map_eraseDups_iff (shareOf clock times) times

/-- Moments up to the clock of which none is before an earlier one do not fall back. -/
theorem not_fallsBack_of_sorted (hclock : ∀ t ∈ times, t ≤ clock)
    (h : times.Pairwise fun t u => t.second ≤ u.second) : ¬ FallsBack clock times := by
  rintro ⟨before, time, after, rfl, -, u, hu, hlt⟩
  obtain ⟨-, -, hsorted⟩ := List.pairwise_append.1 h
  have hfirst : (before ++ time :: after).headD clock ≤ clock := by
    cases before with
    | nil => exact absurd hu List.not_mem_nil
    | cons first before => exact hclock first List.mem_cons_self
  have hle := percent_mono hfirst (hsorted u hu time List.mem_cons_self)
  unfold shareOf at hlt
  omega

end Shares

/-! ## Progress -/

section GoingTimes

variable {clock : Instant} {events more : List Event}

theorem percentsOf_append (as more : List Announcement) :
    percentsOf (as ++ more) = percentsOf as ++ percentsOf more := List.filterMap_append

theorem not_finishes_of_any (h : events.any (·.finishes) = false) :
    ∀ e ∈ events, (!e.finishes) = true := fun e he => by
  rw [List.any_eq_false] at h
  simp [h e he]

theorem goingTimes_of_any (h : events.any (·.finishes) = false) :
    goingTimes clock events = ((published events).map (·.time)).filter (· ≤ clock) := by
  unfold goingTimes
  rw [List.takeWhile_eq_self_iff.2 (not_finishes_of_any h)]

theorem goingTimes_append (h : events.any (·.finishes) = false) :
    goingTimes clock (events ++ more) = goingTimes clock events ++ goingTimes clock more := by
  rw [goingTimes_of_any h]
  unfold goingTimes
  rw [List.takeWhile_append_of_pos (not_finishes_of_any h), published_append, List.map_append,
    List.filter_append]

/-- What is published after the end of an import does not count. -/
theorem goingTimes_append_of_any (h : events.any (·.finishes) = true) :
    goingTimes clock (events ++ more) = goingTimes clock events := by
  obtain ⟨e, he, hfinishes⟩ := List.any_eq_true.1 h
  obtain ⟨before, after, rfl⟩ := List.append_of_mem he
  have hstop : ∀ rest, (before ++ e :: rest).takeWhile (fun e => !e.finishes) =
      before.takeWhile fun e => !e.finishes := fun rest => by
    rw [List.takeWhile_append, List.takeWhile_cons_of_neg (by simp [hfinishes]), List.append_nil,
      ite_eq_right_iff]
    exact fun hlength => ((List.takeWhile_prefix _).eq_of_length hlength).symm
  unfold goingTimes
  rw [List.append_assoc, List.cons_append, hstop, hstop]

theorem goingTimes_announced (as : List Announcement) :
    goingTimes clock (as.map .announced) = [] := by
  have hnone : published ((as.map Event.announced).takeWhile fun e => !e.finishes) = [] := by
    rw [List.takeWhile_map, published_announced]
  unfold goingTimes
  rw [hnone]
  rfl

/-- A record is published, and what it leads to is announced. -/
def tell (r : Record) (as : List Announcement) : List Event := .published r :: as.map .announced

theorem published_tell (r : Record) (as : List Announcement) : published (tell r as) = [r] :=
  congrArg (r :: ·) (published_announced as)

theorem announced_tell (r : Record) (as : List Announcement) : announced (tell r as) = as :=
  announced_announced as

theorem any_finishes_tell (r : Record) (as : List Announcement) :
    (tell r as).any (·.finishes) = as.any (·.finishes) := by
  rw [tell, List.any_cons, List.any_map]
  rfl

theorem goingTimes_tell (r : Record) (as : List Announcement) :
    goingTimes clock (tell r as) = if r.time ≤ clock then [r.time] else [] := by
  have hgoing : [Event.published r].any (·.finishes) = false := rfl
  show goingTimes clock ([.published r] ++ as.map .announced) = _
  rw [goingTimes_append hgoing, goingTimes_announced, List.append_nil, goingTimes_of_any hgoing]
  show [r.time].filter (fun t => decide (t ≤ clock)) = _
  rw [List.filter_cons]
  simp only [decide_eq_true_eq, List.filter_nil]

theorem le_of_mem_goingTimes {t : Instant} (h : t ∈ goingTimes clock events) : t ≤ clock :=
  of_decide_eq_true (List.mem_filter.1 h).2

end GoingTimes

/-- What was announced fits the shares of the records so far: the percents of an import that goes on are
those, each where it came first, and at its end the hundred comes after them. -/
structure Paced (clock : Instant) (p : Progress) (events : List Event) : Prop where
  clock_eq : p.expectedEnd = clock
  first_eq : p.first = (published events).head?.map (·.time)
  ended_eq : events.any (·.finishes) = p.ended
  within : p.ended = false → ∀ r ∈ published events, r.time ≤ clock
  reported_eq : p.ended = false →
    p.reported.reverse = (shares clock (goingTimes clock events)).eraseDups
  percents_eq : percentsOf (announced events) =
    (shares clock (goingTimes clock events)).eraseDups ++ if p.ended then [100] else []

section Paced

variable {clock : Instant} {p : Progress} {events : List Event} {as : List Announcement}

theorem paced_start (clock : Instant) : Paced clock (.start clock) [] where
  clock_eq := rfl
  first_eq := rfl
  ended_eq := rfl
  within _ _ hr := absurd hr List.not_mem_nil
  reported_eq _ := rfl
  percents_eq := rfl

/-- The share of one more record is the percent that is looked up for it. -/
theorem Paced.shares_concat (h : Paced clock p events) (hgoing : p.ended = false) (time : Instant) :
    shares clock (goingTimes clock events ++ [time]) =
      shares clock (goingTimes clock events) ++ [p.percent (p.first.getD time) time] := by
  have hall : goingTimes clock events = (published events).map (·.time) := by
    rw [goingTimes_of_any (h.ended_eq.trans hgoing), List.filter_eq_self]
    rintro t ht
    obtain ⟨r, hr, rfl⟩ := List.mem_map.1 ht
    exact decide_eq_true (h.within hgoing r hr)
  have hpercent : ∀ first, (Progress.start clock).percent first time = p.percent first time :=
    fun first => by
      unfold Progress.percent
      rw [h.clock_eq]
      rfl
  rw [Import.shares_concat, hall, List.head?_map, ← h.first_eq, hpercent]

theorem Paced.mem_reported_iff (h : Paced clock p events) (hgoing : p.ended = false) (n : Int) :
    n ∈ p.reported ↔ n ∈ shares clock (goingTimes clock events) := by
  rw [← List.mem_reverse, h.reported_eq hgoing, List.mem_eraseDups]

/-- The import ends. -/
theorem Paced.finishAt (h : Paced clock p events) (as : List Announcement) (hgoing : p.ended = false)
    (hopening : percentsOf as = []) (time : Instant) :
    Paced clock (p.finishAt time).1
      (events ++ (as ++ (p.finishAt time).2).map .announced) where
  clock_eq := h.clock_eq
  first_eq := by
    rw [published_append, published_announced, List.append_nil]
    exact h.first_eq
  ended_eq := by
    have hfinal : Event.announced (.step (.final (some time))) ∈
        (as ++ (p.finishAt time).2).map Event.announced :=
      List.mem_map_of_mem (List.mem_append_right _ (List.mem_singleton_self _))
    exact List.any_eq_true.2 ⟨_, List.mem_append_right _ hfinal, rfl⟩
  within hended := absurd hended Bool.noConfusion
  reported_eq hended := absurd hended Bool.noConfusion
  percents_eq := by
    rw [goingTimes_append (h.ended_eq.trans hgoing), goingTimes_announced, List.append_nil,
      announced_append, announced_announced, percentsOf_append, percentsOf_append, h.percents_eq,
      hopening, hgoing]
    simp [Progress.finishAt, percentsOf, Announcement.percent?, Step.final]

/-- What is left to show when a record is told: the shares so far, and that the record is not past the
clock if the import goes on. -/
theorem Paced.append_tell (h : Paced clock p events) {q : Progress} {r : Record}
    (hclock : q.expectedEnd = p.expectedEnd) (hfirst : q.first = some (p.first.getD r.time))
    (hended : q.ended = (p.ended || as.any (·.finishes))) (hwithin : q.ended = false → r.time ≤ clock)
    (hreported : q.ended = false →
      q.reported.reverse = (shares clock (goingTimes clock (events ++ tell r as))).eraseDups)
    (hpercents : percentsOf (announced events) ++ percentsOf as =
      (shares clock (goingTimes clock (events ++ tell r as))).eraseDups ++
        if q.ended then [100] else []) : Paced clock q (events ++ tell r as) where
  clock_eq := hclock.trans h.clock_eq
  first_eq := by
    rw [hfirst, published_append, published_tell, h.first_eq]
    cases published events <;> rfl
  ended_eq := by rw [List.any_append, h.ended_eq, any_finishes_tell, hended]
  within hgoing r' hr' := by
    have hbefore : p.ended = false := (Bool.or_eq_false_iff.1 (hended.symm.trans hgoing)).1
    rw [published_append, published_tell] at hr'
    rcases List.mem_append.1 hr' with hr' | hr'
    · exact h.within hbefore r' hr'
    · exact List.mem_singleton.1 hr' ▸ hwithin hgoing
  reported_eq := hreported
  percents_eq := by rw [announced_append, percentsOf_append, announced_tell, hpercents]

/-- A record is told, and the import starts with it if it is the first. -/
theorem record_eq (p : Progress) (time : Instant) :
    ∃ opening, percentsOf opening = [] ∧ opening.any (·.finishes) = false ∧
      let advanced := { p with first := some (p.first.getD time), last := some time }.advance
        (p.first.getD time) time
      p.record time = (advanced.1, opening ++ advanced.2) := by
  cases hf : p.first with
  | none =>
    refine ⟨[.start (some time)], rfl, rfl, ?_⟩
    rw [record_of_none hf]
    rfl
  | some first =>
    refine ⟨[], rfl, rfl, ?_⟩
    rw [record_of_first hf, Option.getD_some, ← hf]
    rfl

/-- One more record, after which the import goes on, ends or was at its end before. -/
theorem Paced.record (h : Paced clock p events) (r : Record) :
    Paced clock (p.record r.time).1 (events ++ tell r (p.record r.time).2) := by
  obtain ⟨opening, hopening, hstarts, heq⟩ := record_eq p r.time
  obtain rfl := h.clock_eq
  rw [heq]
  unfold Progress.advance
  dsimp only
  split
  · rename_i hended
    refine h.append_tell rfl rfl ?_ (fun hgoing => absurd hended (Bool.eq_false_iff.1 hgoing))
      (fun hgoing => absurd hended (Bool.eq_false_iff.1 hgoing)) ?_
    · rw [hended, Bool.true_or]
    · rw [goingTimes_append_of_any (h.ended_eq.trans hended), List.append_nil, hopening,
        List.append_nil, h.percents_eq]
  · rename_i hgoing
    have hgoing : p.ended = false := Bool.eq_false_iff.2 hgoing
    have hsofar := h.percents_eq
    rw [hgoing, if_neg Bool.false_ne_true, List.append_nil] at hsofar
    split
    · -- the record is past the clock, and no share of it counts
      rename_i hpast
      refine h.append_tell rfl rfl ?_ nofun nofun ?_
      · rw [List.any_append]
        simp [Progress.finishAt, Announcement.finishes, Step.final]
      · rw [goingTimes_append (h.ended_eq.trans hgoing), goingTimes_tell, if_neg (Int.not_le.2 hpast),
          List.append_nil, hsofar, percentsOf_append, hopening]
        rfl
    · rename_i hwithin
      have hwithin : r.time ≤ p.expectedEnd := Int.not_lt.1 hwithin
      have hshares : ∀ as, (shares p.expectedEnd
          (goingTimes p.expectedEnd (events ++ tell r as))).eraseDups =
            (shares p.expectedEnd (goingTimes p.expectedEnd events)).eraseDups ++
              if p.percent (p.first.getD r.time) r.time ∈ p.reported then []
              else [p.percent (p.first.getD r.time) r.time] := fun as => by
        rw [goingTimes_append (h.ended_eq.trans hgoing), goingTimes_tell, if_pos hwithin,
          h.shares_concat hgoing, eraseDups_concat]
        simp only [h.mem_reported_iff hgoing]
      split
      · rename_i hold
        have hold : p.percent (p.first.getD r.time) r.time ∈ p.reported := hold
        refine h.append_tell rfl rfl ?_ (fun _ => hwithin) (fun _ => ?_) ?_
        · rw [List.append_nil, hstarts, Bool.or_false]
        · rw [hshares, if_pos hold, List.append_nil]
          exact h.reported_eq hgoing
        · rw [hshares, if_pos hold, List.append_nil, List.append_nil, hopening, hsofar, hgoing]
          rfl
      · rename_i hnew
        have hnew : p.percent (p.first.getD r.time) r.time ∉ p.reported := hnew
        refine h.append_tell rfl rfl ?_ (fun _ => hwithin) (fun _ => ?_) ?_
        · rw [List.any_append, hstarts]
          exact (Bool.or_false _).symm
        · rw [hshares, if_neg hnew, ← h.reported_eq hgoing]
          exact List.reverse_cons
        · rw [hshares, if_neg hnew, percentsOf_append, hopening, hsofar, hgoing]
          exact (List.append_nil _).symm

/-- The input is at its end. -/
theorem Paced.finish (h : Paced clock p events) :
    Paced clock p.finish.1 (events ++ p.finish.2.map .announced) := by
  unfold Progress.finish
  generalize hstarted : (if p.first.isNone then [Announcement.start (some p.expectedEnd)] else []) =
    started
  have hopening : percentsOf started = [] := by
    rw [← hstarted]
    split <;> rfl
  dsimp only
  split
  · rename_i hended
    have hany : (events ++ started.map Event.announced).any (·.finishes) = true := by
      rw [List.any_append, h.ended_eq, hended, Bool.true_or]
    refine ⟨h.clock_eq, ?_, hany.trans hended.symm, fun hgoing => absurd hended (Bool.eq_false_iff.1 hgoing),
      fun hgoing => absurd hended (Bool.eq_false_iff.1 hgoing), ?_⟩
    · rw [published_append, published_announced, List.append_nil]
      exact h.first_eq
    · rw [goingTimes_append_of_any (h.ended_eq.trans hended), announced_append, announced_announced,
        percentsOf_append, hopening, List.append_nil, h.percents_eq]
  · rename_i hgoing
    exact h.finishAt started (Bool.eq_false_iff.2 hgoing) hopening p.endTime

theorem Paced.take {r r' : Reader} {line : SourceLine} {taken : Trace} {events : List Event}
    (h : Paced clock r.progress events) (htake : r.take? line = some (r', taken)) :
    Paced clock r'.progress (events ++ taken.events) := by
  obtain ⟨_, rfl, rfl⟩ | ⟨_, record, rfl, rfl⟩ := take?_cases htake
  · rwa [show Trace.events [] = [] from rfl, List.append_nil]
  · have hrecord := h.record record
    unfold tell at hrecord
    rwa [← events_announce r.now] at hrecord

theorem Paced.close {r : Reader} {events : List Event} (h : Paced clock r.progress events)
    (ending : Ending) : ∃ p, Paced clock p (events ++ (r.close ending).1.events) := by
  have hfinish := h.finish
  rw [← events_announce r.now] at hfinish
  cases ending with
  | exhausted => exact ⟨_, hfinish⟩
  | failed cause =>
    unfold Reader.close
    dsimp only
    split
    · exact ⟨_, hfinish⟩
    · refine ⟨r.progress, ?_⟩
      rwa [show Trace.events [] = [] from rfl, List.append_nil]

end Paced

/-! ## Runs -/

namespace Handshake

variable {clock : Instant} {t : Transformer} {lines : List SourceLine} {ending : Ending}
  {h h' : Handshake}

/-- What was announced fits the shares, and the progress until the reading is over. -/
structure Paces (clock : Instant) (h : Handshake) : Prop where
  paced : ∃ p, Paced clock p h.events
  progress : (∀ result, h.taker ≠ .returned result) → Paced clock h.progress h.events

theorem paces_of_paced (h : Paced clock h'.progress h'.events) : h'.Paces clock :=
  ⟨⟨_, h⟩, fun _ => h⟩

theorem Paces.step (hpaces : h.Paces clock) (hstep : Step h h') : h'.Paces clock := by
  cases hstep with
  | cancel | scanLine | scanEnd | scanStopped | send | sendRefused | takeReply | replyRefused =>
    exact ⟨hpaces.paced, hpaces.progress⟩
  | stop htaker | stopAtEnd htaker | breakOff _ _ htaker | reply htaker | stopAtReply htaker =>
    exact paces_of_paced (hpaces.progress fun result => htaker ▸ nofun)
  | take now lastRecord htaker hsent htake =>
    have hpaced : Paced clock (h.reader now lastRecord).progress h.events :=
      hpaces.progress fun result => htaker ▸ nofun
    exact paces_of_paced (hpaced.take htake)
  | silence htaker hfirst hended =>
    have hpaced := hpaces.progress fun result => htaker ▸ nofun
    exact paces_of_paced (hpaced.finishAt [] hended rfl h.progress.endTime)
  | close now lastRecord htaker =>
    have hpaced : Paced clock (h.reader now lastRecord).progress h.events :=
      hpaces.progress fun result => htaker ▸ nofun
    exact ⟨hpaced.close _, fun hreturned => absurd rfl (hreturned _)⟩
  | closeCancelled => exact ⟨hpaces.paced, fun hreturned => absurd rfl (hreturned _)⟩

theorem paced_of_reaches (hreaches : Reaches (start t clock lines ending) h) :
    ∃ p, Paced clock p h.events := by
  have hpaces : h.Paces clock := by
    induction hreaches with
    | refl => exact paces_of_paced (paced_start clock)
    | tail _ hstep ih => exact ih.step hstep
  exact hpaces.paced

end Handshake

/-- What the percents of a run come to: the shares of its records, each where it came first, and the
hundred at the end. They ascend exactly if no record falls back, and so they do if the seconds of the
records do. -/
structure Ascends (clock : Instant) (events : List Event) : Prop where
  percents_eq : percentsOf (announced events) = (shares clock (goingTimes clock events)).eraseDups ++
    if events.any (·.finishes) then [100] else []
  ascend_iff : (percentsOf (announced events)).Pairwise (· ≤ ·) ↔
    ¬ FallsBack clock (goingTimes clock events)
  ascend : (goingTimes clock events).Pairwise (fun t u => t.second ≤ u.second) →
    (percentsOf (announced events)).Pairwise (· ≤ ·)

theorem ascends_of_paced {clock : Instant} {p : Progress} {events : List Event}
    (h : Paced clock p events) : Ascends clock events := by
  have heq : percentsOf (announced events) = (shares clock (goingTimes clock events)).eraseDups ++
      if events.any (·.finishes) then [100] else [] := by rw [h.percents_eq, h.ended_eq]
  have hiff : (percentsOf (announced events)).Pairwise (· ≤ ·) ↔
      ¬ FallsBack clock (goingTimes clock events) := by
    rw [heq, List.pairwise_append, pairwise_shares_iff]
    refine ⟨fun h => h.1, fun h => ⟨h, ?_, fun n hn m hm => ?_⟩⟩
    · split
      · exact List.pairwise_singleton _ _
      · exact List.Pairwise.nil
    · split at hm
      · obtain ⟨-, hle⟩ := mem_shares_bounds (List.mem_eraseDups.1 hn)
        rw [List.mem_singleton.1 hm]
        omega
      · exact absurd hm List.not_mem_nil
  exact ⟨heq, hiff, fun hsorted =>
    hiff.2 (not_fallsBack_of_sorted (fun _ => le_of_mem_goingTimes) hsorted)⟩

/-- **When percents ascend.** However the moves of the two tasks are chosen, the percents that they
announce are the shares of the records before the end, each where it came first, and the hundred at the
end; they never decrease exactly if no record falls back. So it is for every run of `read`. -/
theorem percents_ascend_iff (t : Transformer) (clock : Instant) :
    (∀ (lines : List SourceLine) (ending : Ending) (h : Handshake),
      Handshake.Reaches (.start t clock lines ending) h → Ascends clock h.events) ∧
    ∀ (s : ReadSettings) (feed : Feed), Ascends clock (read s t clock feed).1.events := by
  have hmoves (lines : List SourceLine) (ending : Ending) (h : Handshake)
      (hreaches : Handshake.Reaches (.start t clock lines ending) h) : Ascends clock h.events := by
    obtain ⟨p, hpaced⟩ := Handshake.paced_of_reaches hreaches
    exact ascends_of_paced hpaced
  refine ⟨hmoves, fun s feed => ?_⟩
  obtain ⟨h, hreaches, -, hevents, -⟩ := (readsSequentially s t clock feed).moves
  exact hevents ▸ hmoves feed.lines feed.ending h hreaches

/-- A client connects, at a moment as lines tell it. -/
def connectAt (time : String) : SourceLine :=
  ⟨time ++ " mail postfix/smtpd[20252]: connect from unknown[192.168.42.12]", none⟩

/-- Ten days and two days before the clock. -/
def forwardFeed : Feed := .ofLines [connectAt "Jun  6 16:00:00", connectAt "Jun 14 16:00:00"]

/-- And then eight days before it. -/
def backwardFeed : Feed := .ofLines (forwardFeed.lines ++ [connectAt "Jun  8 16:00:00"])

/-- The percents ascend with the moments, in a run of the two tasks as in that of `read`. -/
theorem forwardFeed_ascends :
    ∃ h, Handshake.Reaches (.start (sameYear teatime) teatime forwardFeed.lines .exhausted) h ∧
      (goingTimes teatime h.events).Pairwise (fun t u => t.second ≤ u.second) ∧
      (percentsOf (announced h.events)).Pairwise (· ≤ ·) ∧
      percentsOf (announced h.events) = [0, 80, 100] := by
  obtain ⟨h, hreaches, -, hevents, -⟩ :=
    (readsSequentially patient (sameYear teatime) teatime forwardFeed).moves
  have hascends : Ascends teatime h.events :=
    (percents_ascend_iff (sameYear teatime) teatime).1 forwardFeed.lines .exhausted h hreaches
  have hsorted : (goingTimes teatime h.events).Pairwise fun t u => t.second ≤ u.second := by
    rw [hevents]
    decide
  refine ⟨h, hreaches, hsorted, hascends.ascend hsorted, ?_⟩
  rw [hevents]
  decide

/-- The third record falls back, and a step of twenty percent is announced after one of eighty. -/
theorem backwardFeed_descends :
    percentsOf (read patient (sameYear teatime) teatime backwardFeed).1.announcements =
        [0, 80, 20, 100] ∧
      ¬ (percentsOf (read patient (sameYear teatime) teatime backwardFeed).1.announcements).Pairwise
        (· ≤ ·) ∧
      FallsBack teatime
        (goingTimes teatime (read patient (sameYear teatime) teatime backwardFeed).1.events) := by
  have htimes : goingTimes teatime (read patient (sameYear teatime) teatime backwardFeed).1.events =
      [teatime - .ofSecond 864000, teatime - .ofSecond 172800, teatime - .ofSecond 691200] := by decide
  refine ⟨by decide, by decide, ?_⟩
  rw [htimes]
  exact ⟨[teatime - .ofSecond 864000, teatime - .ofSecond 172800], teatime - .ofSecond 691200, [], rfl,
    by decide, teatime - .ofSecond 172800, by decide, by decide⟩

end MailTrace.Import
