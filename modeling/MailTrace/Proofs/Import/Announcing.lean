import Mathlib.Algebra.GroupWithZero.Nat
import MailTrace.Import.Reader

/-!
# What a reader announces

An import is announced as a start, then percents that differ, then its end. A record past the clock,
a silence and the end of the source can each end it, and cancelling can come before any of them.

1. A percent lies between 0 and 99 and is found without a division by zero, whatever the moments
   (`bucket?_eq`).
2. What was announced so far fits the progress (`Fits`): nothing before the first record, then that
  of a going import (`Going`), then that of a complete one (`Complete`). A record, a silence and the
  end of the source keep it so.
3. A run is an induction over its lines (`Fits.run`), and what it announces matches its result
  (`Kept`, `import_announced`).
-/

namespace MailTrace.Import

open MailTrace.Time

/-! ## Percents -/

/-- A quotient rounded toward zero. There is none by zero. -/
def quotient? (a b : Int) : Option Int := if b = 0 then none else some (a.tdiv b)

namespace Progress

/-- The place of the step of a record among a hundred. There is none if a quotient by zero is asked for
on the way or the place is out of range. -/
def bucket? (p : Progress) (first time : Instant) : Option (Fin 100) :=
  let span := p.expectedEnd.second - first.second
  let share? := if span = 0 then some 100
    else (quotient? ((time.second - first.second) * 100) span).map (max 0)
  share?.bind fun share =>
    let place := min share 99
    if h : 0 ≤ place ∧ place < 100 then some ⟨place.toNat, by omega⟩ else none

variable {p : Progress} {first time : Instant}

theorem percent_bounds (p : Progress) (first time : Instant) :
    0 ≤ p.percent first time ∧ p.percent first time ≤ 99 := by
  unfold percent
  dsimp only
  split <;> omega

theorem bucket?_eq (p : Progress) (first time : Instant) :
    ∃ b, p.bucket? first time = some b ∧ (b.val : Int) = p.percent first time := by
  obtain ⟨hlow, hhigh⟩ := percent_bounds p first time
  have hbucket : p.bucket? first time = if h : 0 ≤ p.percent first time ∧ p.percent first time < 100
      then some ⟨(p.percent first time).toNat, by omega⟩ else none := by
    unfold bucket? percent quotient?
    dsimp only
    split <;> rfl
  rw [hbucket, dif_pos ⟨hlow, by omega⟩]
  exact ⟨_, rfl, Int.toNat_of_nonneg hlow⟩

end Progress

/-! ## Announcements -/

/-- What is announced of an import that is going on: its start, then percents that differ. -/
structure Going (percents : List Int) (as : List Announcement) : Prop where
  differ : percents.Nodup
  range : ∀ n ∈ percents, 0 ≤ n ∧ n ≤ 99
  shape : ∃ (time : Option Instant) (steps : List Step), (∀ s ∈ steps, s.finished = false) ∧
    steps.map (·.percent) = percents ∧ as = .start time :: steps.map .step

/-- What is announced of an import that is at its end: one finished step comes last. -/
def Complete (as : List Announcement) : Prop :=
  ∃ (percents : List Int) (before : List Announcement) (time : Option Instant),
    Going percents before ∧ as = before ++ [.step (.final time)]

/-- What may be announced of an import. -/
def Announced (as : List Announcement) : Prop :=
  as = [] ∨ (∃ percents, Going percents as) ∨ Complete as

/-- What was announced fits the progress. -/
def Fits (p : Progress) (as : List Announcement) : Prop :=
  match p.first, p.ended with
  | none, ended => as = [] ∧ p.reported = [] ∧ ended = false
  | some _, false => Going p.reported.reverse as
  | some _, true => Complete as

section Fits

variable {p : Progress} {as : List Announcement} {first time : Instant}

theorem going_start (time : Option Instant) : Going [] [.start time] where
  differ := .nil
  range _ h := absurd h List.not_mem_nil
  shape := ⟨time, [], fun _ h => absurd h List.not_mem_nil, rfl, rfl⟩

theorem Going.step {percents : List Int} (h : Going percents as) {n : Int} (hn : n ∉ percents)
    (hrange : 0 ≤ n ∧ n ≤ 99) (time : Option Instant) :
    Going (percents ++ [n]) (as ++ [.step ⟨false, time, n⟩]) where
  differ := List.nodup_append.2 ⟨h.differ, by simp, by
    intro a ha b hb
    rw [List.mem_singleton.1 hb]
    rintro rfl
    exact hn ha⟩
  range m hm := by
    rcases List.mem_append.1 hm with hm | hm
    · exact h.range m hm
    · exact List.mem_singleton.1 hm ▸ hrange
  shape := by
    obtain ⟨start, steps, hgoing, hmap, rfl⟩ := h.shape
    refine ⟨start, steps ++ [⟨false, time, n⟩], ?_, by simp [hmap], by simp⟩
    intro s hs
    rcases List.mem_append.1 hs with hs | hs
    · exact hgoing s hs
    · rw [List.mem_singleton.1 hs]

theorem Going.complete {percents : List Int} (h : Going percents as) (time : Option Instant) :
    Complete (as ++ [.step (.final time)]) := ⟨percents, as, time, h, rfl⟩

theorem fits_start (clock : Instant) : Fits (.start clock) [] := ⟨rfl, rfl, rfl⟩

theorem fits_none_iff (h : p.first = none) :
    Fits p as ↔ as = [] ∧ p.reported = [] ∧ p.ended = false := by
  unfold Fits
  rw [h]

theorem fits_going_iff (h : p.first.isSome = true) (he : p.ended = false) :
    Fits p as ↔ Going p.reported.reverse as := by
  obtain ⟨first, h⟩ := Option.isSome_iff_exists.1 h
  unfold Fits
  rw [h, he]

theorem fits_ended_iff (h : p.first.isSome = true) (he : p.ended = true) :
    Fits p as ↔ Complete as := by
  obtain ⟨first, h⟩ := Option.isSome_iff_exists.1 h
  unfold Fits
  rw [h, he]

theorem Fits.announced (h : Fits p as) : Announced as := by
  cases hf : p.first with
  | none => exact .inl ((fits_none_iff hf).1 h).1
  | some first =>
    have hsome : p.first.isSome = true := by rw [hf]; rfl
    cases he : p.ended with
    | false => exact .inr (.inl ⟨_, (fits_going_iff hsome he).1 h⟩)
    | true => exact .inr (.inr ((fits_ended_iff hsome he).1 h))

theorem Fits.finishAt (h : Fits p as) (hf : p.first.isSome = true) (he : p.ended = false)
    (time : Instant) : Fits (p.finishAt time).1 (as ++ (p.finishAt time).2) := by
  have hgoing := (fits_going_iff hf he).1 h
  have hended : (p.finishAt time).1.ended = true := rfl
  have hfirst : (p.finishAt time).1.first.isSome = true := hf
  rw [fits_ended_iff hfirst hended]
  exact hgoing.complete (some time)

/-- A percent that was not reported yet is. -/
theorem Fits.report (h : Fits p as) (hf : p.first.isSome = true) (he : p.ended = false)
    (hnew : p.percent first time ∉ p.reported) :
    Fits { p with reported := p.percent first time :: p.reported }
      (as ++ [.step ⟨false, some time, p.percent first time⟩]) := by
  have hgoing := (fits_going_iff hf he).1 h
  generalize hq : { p with reported := p.percent first time :: p.reported } = q
  have hfirst : q.first.isSome = true := by rw [← hq]; exact hf
  have hended : q.ended = false := by rw [← hq]; exact he
  rw [fits_going_iff hfirst hended, ← hq, List.reverse_cons]
  exact hgoing.step (by simpa using hnew) (p.percent_bounds first time) (some time)

/-- A record changes the progress in one of four ways. -/
theorem Fits.advance (h : Fits p as) (hf : p.first.isSome = true) (first time : Instant) :
    Fits (p.advance first time).1 (as ++ (p.advance first time).2) := by
  unfold Progress.advance
  dsimp only
  split
  · simpa using h
  · rename_i he
    have he : p.ended = false := by simpa using he
    split
    · exact h.finishAt hf he time
    · split
      · simpa using h
      · rename_i hnew
        exact h.report hf he hnew

theorem record_of_first (hf : p.first = some first) (time : Instant) :
    p.record time = { p with last := some time }.advance first time := by
  simp only [Progress.record, hf]

theorem record_of_none (hf : p.first = none) (time : Instant) :
    p.record time =
      ({ p with first := some time, last := some time }.advance time time).map id
        (.start (some time) :: ·) := by
  simp only [Progress.record, hf, Prod.map, id]

theorem Fits.record (h : Fits p as) (time : Instant) :
    Fits (p.record time).1 (as ++ (p.record time).2) := by
  cases hf : p.first with
  | some first =>
    rw [record_of_first hf]
    have hlast : Fits { p with last := some time } as := h
    have hfirst : p.first.isSome = true := by rw [hf]; rfl
    exact hlast.advance hfirst first time
  | none =>
    obtain ⟨rfl, hreported, hended⟩ := (fits_none_iff hf).1 h
    rw [record_of_none hf]
    generalize hq : { p with first := some time, last := some time } = q
    have hfirst : q.first.isSome = true := by rw [← hq]; rfl
    have hstarted : Fits q [.start (some time)] := by
      rw [fits_going_iff hfirst (by rw [← hq]; exact hended), ← hq, hreported]
      exact going_start (some time)
    exact hstarted.advance hfirst time time

/-- At the end of the input, whatever was not announced before is. -/
theorem Fits.finish (h : Fits p as) : Complete (as ++ p.finish.2) := by
  unfold Progress.finish
  cases hf : p.first with
  | none =>
    obtain ⟨rfl, -, hended⟩ := (fits_none_iff hf).1 h
    rw [hended]
    exact (going_start (some p.expectedEnd)).complete (some p.endTime)
  | some first =>
    have hsome : p.first.isSome = true := by rw [hf]; rfl
    cases he : p.ended with
    | false => exact ((fits_going_iff hsome he).1 h).complete (some p.endTime)
    | true => simpa using (fits_ended_iff hsome he).1 h

end Fits

/-! ## Runs -/

namespace Trace

variable {t u : Trace}

@[simp] theorem announcements_append : (t ++ u).announcements = t.announcements ++ u.announcements :=
  List.filterMap_append

@[simp] theorem announcements_announce (now : Duration) (as : List Announcement) :
    (announce now as).announcements = as := by
  unfold announcements announce
  rw [List.filterMap_map]
  exact List.filterMap_some

@[simp] theorem announcements_published (now : Duration) (r : Record) :
    announcements ((now, .published r) :: t) = t.announcements := rfl

end Trace

/-- The reading is cancelled by a moment. -/
def ReadSettings.CancelledBy (s : ReadSettings) (moment : Duration) : Prop :=
  ∃ c ∈ s.cancelAt, c ≤ moment

/-- What is announced is allowed and matches the result: a run that is not cancelled and ends well
announced a whole import, and one that could read no line announced nothing. -/
structure Kept (cancelled : Prop) (as : List Announcement) (result : Except ReadFault Unit) : Prop where
  announced : Announced as
  complete : ¬ cancelled → result = .ok () → Complete as
  silent : ∀ cause, result = .error (.noLine cause) → as = []

theorem Kept.of_complete {cancelled : Prop} {as : List Announcement} (h : Complete as) :
    Kept cancelled as (.ok ()) where
  announced := .inr (.inr h)
  complete _ _ := h
  silent _ hresult := by cases hresult

/-- How long it takes for a source to end. -/
def Feed.length (feed : Feed) : Duration := (feed.arrivals.map (·.delay)).sum + feed.delay

section Runs

variable {s : ReadSettings} {r r' : Reader} {as : List Announcement} {timeout moment : Duration}
  {line : SourceLine} {taken : Trace}

theorem cancelledBy_of_some {c : Duration} (h : Reader.cancelled? s moment = some c)
    (later : Duration) : s.CancelledBy (moment + later) := by
  obtain ⟨hc, hle⟩ := Option.filter_eq_some_iff.1 h
  exact ⟨c, hc, Nat.le_trans (by simpa using hle) (Nat.le_add_right moment later)⟩

theorem Fits.waitUntil (h : Fits r.progress as) (timeout moment : Duration) :
    Fits (r.waitUntil timeout moment).1.progress
      (as ++ (r.waitUntil timeout moment).2.announcements) := by
  unfold Reader.waitUntil
  cases hd : r.deadline? timeout with
  | none => simpa [Trace.announcements] using h
  | some deadline =>
    dsimp only
    split
    · unfold Reader.deadline? at hd
      split at hd
      · rename_i hwaits
        rw [Bool.and_eq_true, Bool.not_eq_true'] at hwaits
        rw [Trace.announcements_announce]
        exact h.finishAt hwaits.1 hwaits.2 r.progress.endTime
      · cases hd
    · simpa [Trace.announcements] using h

theorem now_waitUntil : (r.waitUntil timeout moment).1.now = moment := by
  unfold Reader.waitUntil
  split
  · split <;> rfl
  · rfl

theorem Fits.take (h : Fits r.progress as) (ht : r.take? line = some (r', taken)) :
    Fits r'.progress (as ++ taken.announcements) ∧ r'.now = r.now := by
  unfold Reader.take? at ht
  split at ht
  · split at ht
    · cases ht
    · obtain ⟨rfl, rfl⟩ := Prod.mk.inj (Option.some.inj ht)
      exact ⟨by simpa [Trace.announcements] using h, rfl⟩
  · obtain ⟨rfl, rfl⟩ := Prod.mk.inj (Option.some.inj ht)
    rw [Trace.announcements_published, Trace.announcements_announce]
    exact ⟨h.record _, rfl⟩

theorem Fits.closeOk (h : Fits r.progress as) :
    Complete (as ++ (announce r.now r.progress.finish.2).announcements) := by
  rw [Trace.announcements_announce]
  exact h.finish

theorem Fits.close (h : Fits r.progress as) (ending : Ending) (cancelled : Prop) :
    Kept cancelled (as ++ (r.close ending).1.announcements) (r.close ending).2 := by
  unfold Reader.close
  cases ending with
  | exhausted => exact .of_complete h.closeOk
  | failed cause =>
    cases hf : r.progress.first with
    | some first => exact .of_complete h.closeOk
    | none =>
      obtain ⟨rfl, -, -⟩ := (fits_none_iff hf).1 h
      exact ⟨.inl rfl, fun _ hok => (by cases hok), fun _ _ => rfl⟩

theorem Fits.cancel (h : Fits r.progress as) {cancelled : Prop} (hc : cancelled) (c : Duration) :
    Kept cancelled (as ++ (r.waitUntil timeout c).2.announcements) (.ok ()) where
  announced := (h.waitUntil timeout c).announced
  complete hnot := absurd hc hnot
  silent _ hresult := by cases hresult

/-- What is announced from between two lines on, after what was announced before. -/
theorem Fits.run (h : Fits r.progress as) (s : ReadSettings) (delay : Duration) (ending : Ending)
    (arrivals : List Arrival) :
    Kept (s.CancelledBy (r.now + ((arrivals.map (·.delay)).sum + delay)))
      (as ++ (r.run s delay ending arrivals).1.announcements) (r.run s delay ending arrivals).2 := by
  induction arrivals generalizing r as with
  | nil =>
    unfold Reader.run
    dsimp only
    rw [List.map_nil, List.sum_nil, Nat.zero_add]
    cases hc : Reader.cancelled? s (r.now + delay) with
    | some c => exact h.cancel (cancelledBy_of_some hc 0) c
    | none =>
      dsimp only
      rw [Trace.announcements_append, ← List.append_assoc]
      exact (h.waitUntil s.idleTimeout _).close ending _
  | cons a rest ih =>
    unfold Reader.run
    dsimp only
    -- the moment of the line, and how long it takes from there to the end
    rw [List.map_cons, List.sum_cons, Nat.add_assoc, ← Nat.add_assoc]
    cases hc : Reader.cancelled? s (r.now + a.delay) with
    | some c => exact h.cancel (cancelledBy_of_some hc _) c
    | none =>
      dsimp only
      have hwaited := h.waitUntil s.idleTimeout (r.now + a.delay)
      cases ht : (r.waitUntil s.idleTimeout (r.now + a.delay)).1.take? a.line with
      | none => exact ⟨hwaited.announced, fun _ hok => (by cases hok), fun _ hn => (by cases hn)⟩
      | some taken =>
        obtain ⟨htaken, hnow⟩ := hwaited.take ht
        have hlater := ih htaken
        rw [hnow, now_waitUntil] at hlater
        rw [Trace.announcements_append, Trace.announcements_append, ← List.append_assoc,
          ← List.append_assoc]
        exact hlater

end Runs

/-- **The announcements of an import.** Whatever the lines, their moments and the end of the source,
the clock, the timeout and the moment of cancelling, an import is announced as `Kept` says. No record
leads to a division by zero or to a percent out of range. -/
theorem import_announced (s : ReadSettings) (t : Transformer) (clock : Instant) (feed : Feed) :
    Kept (s.CancelledBy feed.length) (read s t clock feed).1.announcements (read s t clock feed).2 ∧
      ∀ (p : Progress) (first time : Instant),
        ∃ b, p.bucket? first time = some b ∧ (b.val : Int) = p.percent first time := by
  refine ⟨?_, Progress.bucket?_eq⟩
  have hstart : Fits (Reader.start t clock).progress [] := fits_start clock
  have hrun := hstart.run s feed.delay feed.ending feed.arrivals
  rw [List.nil_append] at hrun
  have hlength : (Reader.start t clock).now + ((feed.arrivals.map (·.delay)).sum + feed.delay) =
      feed.length := Nat.zero_add _
  rw [hlength] at hrun
  exact hrun

/-- One line that is read and one that is not, a silence that ends the import, and the end. -/
def silentFeed : Feed :=
  ⟨[⟨10, ⟨"Jun 16 13:53:50 mail postfix/smtpd[20252]: connect from unknown[192.168.42.12]", none⟩⟩,
    ⟨700, ⟨"no line of a log", none⟩⟩], 20, .exhausted⟩

/-- A source that fails before its first line. -/
def failingFeed : Feed := ⟨[], 5, .failed "gone"⟩

/-- Four in the afternoon of a day in June. -/
def teatime : Instant := .ofDate ⟨2020, .june, 16⟩ 57600

/-- Reading that stops after a thousand nanoseconds. -/
def hasty : ReadSettings := ⟨500, some 1000⟩

/-- Lines without a year, read in that of a moment. -/
def sameYear (clock : Instant) : Transformer := .start .classic none clock

theorem silentFeed_announced :
    ((read hasty (sameYear teatime) teatime silentFeed).2 = .ok () ∧
      Complete (read hasty (sameYear teatime) teatime silentFeed).1.announcements) ∧
    (read hasty (sameYear teatime) teatime failingFeed).2 = .error (.noLine "gone") ∧
      (read hasty (sameYear teatime) teatime failingFeed).1.announcements = [] := by
  have hlate : ¬ hasty.CancelledBy silentFeed.length := by
    rintro ⟨c, hc, hle⟩
    cases hc
    exact absurd hle (by decide)
  have hread : (read hasty (sameYear teatime) teatime silentFeed).2 = .ok () := rfl
  have hfailed :
      (read hasty (sameYear teatime) teatime failingFeed).2 = .error (.noLine "gone") := rfl
  exact ⟨⟨hread, (import_announced _ _ _ silentFeed).1.complete hlate hread⟩,
    hfailed, (import_announced _ _ _ failingFeed).1.silent "gone" hfailed⟩

end MailTrace.Import
