import Mathlib.Data.Set.Card
import MailTrace.Proofs.Import.Holding

/-!
# Waiting for a probe ends

A wait goes on as long as what the probe answers changes, and the time for it to stand still begins
anew with every change. So it ends if the probe changes a limited number of times.

1. A value is read at most `stay` times before the wait gives up on it (`lt_stay`).
2. With `k` changes to come, a value that was read `u` times since it was first seen leaves at most
   `k * stay + (stay - u)` readings (`endsWithin_of_seen`). Either the value stays, and `u` grows, or it
   changes, and `k` falls.
3. Before the first reading no value was seen, which costs one reading more (`endsWithin_waitPast`).
-/

namespace MailTrace.Import

open MailTrace.Time

/-! ## Changes -/

/-- From some reading on, what the probe answers changes at most `k` times. -/
def Probe.ChangesAtMost (probe : Probe) (first k : Nat) : Prop :=
  {n | first ≤ n ∧ (probe n).value ≠ (probe (n + 1)).value}.encard ≤ k

section Changes

variable {probe : Probe} {first k : Nat}

theorem Probe.ChangesAtMost.next (h : probe.ChangesAtMost first k) :
    probe.ChangesAtMost (first + 1) k := by
  refine (Set.encard_le_encard ?_).trans h
  rintro n ⟨hfirst, hchange⟩
  exact ⟨Nat.le_of_succ_le hfirst, hchange⟩

/-- A change is one of those that may come. -/
theorem Probe.ChangesAtMost.spend (h : probe.ChangesAtMost first k)
    (hchange : (probe first).value ≠ (probe (first + 1)).value) :
    ∃ less, k = less + 1 ∧ probe.ChangesAtMost (first + 1) less := by
  have hinsert : {n | first ≤ n ∧ (probe n).value ≠ (probe (n + 1)).value} =
      insert first {n | first + 1 ≤ n ∧ (probe n).value ≠ (probe (n + 1)).value} := by
    ext n
    constructor
    · rintro ⟨hfirst, hn⟩
      rcases Nat.eq_or_lt_of_le hfirst with rfl | hlt
      · exact .inl rfl
      · exact .inr ⟨hlt, hn⟩
    · rintro (rfl | ⟨hlt, hn⟩)
      · exact ⟨Nat.le_refl _, hchange⟩
      · exact ⟨Nat.le_of_succ_le hlt, hn⟩
  have hnew : first ∉ {n | first + 1 ≤ n ∧ (probe n).value ≠ (probe (n + 1)).value} :=
    fun hn => Nat.not_succ_le_self first hn.1
  unfold Probe.ChangesAtMost at h
  rw [hinsert, Set.encard_insert_of_notMem hnew] at h
  cases k with
  | zero => simp at h
  | succ less =>
    refine ⟨less, rfl, ?_⟩
    rw [Nat.cast_succ] at h
    exact (ENat.add_le_add_iff_right ENat.one_ne_top).1 h

end Changes

/-! ## How often one value is read -/

/-- The most readings of one value, but for the first, before the wait gives up on it. -/
def stay (sleep timeout : Duration) : Nat := max 1 ((timeout + sleep - 1) / sleep)

theorem stay_pos (sleep timeout : Duration) : 0 < stay sleep timeout :=
  Nat.lt_of_lt_of_le Nat.one_pos (Nat.le_max_left _ _)

/-- As long as the wait does not give up on a value, it can be read once more. -/
theorem lt_stay {sleep timeout : Duration} {u : Nat} (hsleep : 0 < sleep)
    (h : u * sleep < timeout) : u < stay sleep timeout := by
  refine Nat.lt_of_lt_of_le ?_ (Nat.le_max_right _ _)
  refine (Nat.le_div_iff_mul_le hsleep).2 ?_
  rw [Nat.succ_mul]
  omega

theorem maxReadings_eq (k : Nat) (sleep timeout : Duration) :
    maxReadings k sleep timeout = k * stay sleep timeout + stay sleep timeout + k + 1 := by
  unfold maxReadings
  rw [← stay, Nat.mul_succ, Nat.succ_mul]
  rfl

/-! ## How long a wait takes -/

/-- A wait with some moves takes at most `n` readings, and is not cancelled if it has as many moves. -/
structure Wait.EndsWithin (n moves : Nat) (w : Wait) : Prop where
  length_le : w.readings.length ≤ n
  ne_cancelled : n ≤ moves → w.result ≠ .cancelled

namespace Wait.EndsWithin

variable {n m moves : Nat} {w : Wait}

theorem mono (h : EndsWithin n moves w) (hle : n ≤ m) : EndsWithin m moves w where
  length_le := Nat.le_trans h.length_le hle
  ne_cancelled hmoves := h.ne_cancelled (Nat.le_trans hle hmoves)

theorem before (h : EndsWithin n moves w) (r : Reading) :
    EndsWithin (n + 1) (moves + 1) (w.before r) where
  length_le := Nat.succ_le_succ h.length_le
  ne_cancelled hmoves := h.ne_cancelled (Nat.le_of_succ_le_succ hmoves)

/-- A wait that is over at its first reading. -/
theorem of_one {r : Reading} {clock : Instant} {left : Nat} {result : WaitResult} (hn : 0 < n)
    (hresult : result ≠ .cancelled) : EndsWithin n moves ⟨[r], clock, left, result⟩ where
  length_le := hn
  ne_cancelled _ := hresult

/-- A wait that may not begin. -/
theorem of_cancelled {clock : Instant} (hn : 0 < n) :
    EndsWithin n 0 ⟨[], clock, 0, .cancelled⟩ where
  length_le := Nat.zero_le n
  ne_cancelled hmoves := absurd (Nat.lt_of_lt_of_le hn hmoves) (Nat.lt_irrefl 0)

end Wait.EndsWithin

section Waits

variable {probe : Probe} {sleep timeout : Duration} {target : Instant} {k : Nat}

/-- The wait for a value that was read `u` times since it was first seen. -/
theorem endsWithin_of_seen (hsleep : 0 < sleep) (hclock : ∀ n, 0 ≤ (probe n).moved)
    {moves last u : Nat} {value : Option Instant} {since clock : Int}
    (hchanges : probe.ChangesAtMost last k) (hvalue : (probe last).value = .ok value)
    (hu : u < stay sleep timeout) (hlate : since + ((u + 1) * sleep : Nat) ≤ clock) :
    (waitPast probe sleep timeout target moves (last + 1) (some value) since clock).EndsWithin
      (k * stay sleep timeout + (stay sleep timeout - u)) moves := by
  induction moves generalizing last u k value since clock with
  | zero => exact .of_cancelled (by omega)
  | succ moves ih =>
    have hmoved := hclock (last + 1)
    unfold waitPast
    dsimp only
    cases hnext : (probe (last + 1)).value with
    | error cause => exact .of_one (by omega) (by simp)
    | ok value' =>
      dsimp only
      by_cases hpast : isPast target value' = true
      · rw [if_pos hpast]
        exact .of_one (by omega) (by simp)
      rw [if_neg hpast]
      by_cases hsame : some value = some value'
      · -- the value stays
        rw [if_neg (not_not.2 hsame)]
        by_cases hlong : clock + (probe (last + 1)).moved - since ≥ (timeout : Int)
        · rw [if_pos hlong]
          exact .of_one (by omega) (by simp)
        rw [if_neg hlong]
        have hshort : clock + (probe (last + 1)).moved - since < (timeout : Int) := Int.not_le.1 hlong
        have hroom : u + 1 < stay sleep timeout := lt_stay hsleep (by omega)
        have hlater : since + ((u + 1 + 1) * sleep : Nat) ≤
            clock + (probe (last + 1)).moved + sleep := by
          rw [Nat.succ_mul (u + 1)]
          omega
        cases hsame
        refine ((ih hchanges.next hnext hroom hlater).before _).mono ?_
        omega
      · -- the value changes, and the time to stand still begins anew
        rw [if_pos hsame]
        have hchange : (probe last).value ≠ (probe (last + 1)).value := by
          rw [hvalue, hnext]
          exact fun he => hsame (congrArg some (Except.ok.inj he))
        obtain ⟨less, rfl, hless⟩ := hchanges.spend hchange
        refine ((ih hless hnext (stay_pos sleep timeout) ?_).before _).mono ?_
        · omega
        · rw [Nat.succ_mul]
          omega

theorem endsWithin_waitPast (hsleep : 0 < sleep) (hclock : ∀ n, 0 ≤ (probe n).moved)
    {calls : Nat} (hchanges : probe.ChangesAtMost calls k) (moves : Nat) (since clock : Instant) :
    (waitPast probe sleep timeout target moves calls none since clock).EndsWithin
      (maxReadings k sleep timeout) moves := by
  have hpos := stay_pos sleep timeout
  rw [maxReadings_eq]
  cases moves with
  | zero => exact .of_cancelled (by omega)
  | succ moves =>
    unfold waitPast
    dsimp only
    cases hfirst : (probe calls).value with
    | error cause => exact .of_one (by omega) (by simp)
    | ok value =>
      dsimp only
      by_cases hpast : isPast target value = true
      · rw [if_pos hpast]
        exact .of_one (by omega) (by simp)
      rw [if_neg hpast, if_pos (Option.some_ne_none value).symm]
      refine ((endsWithin_of_seen hsleep hclock hchanges hfirst hpos ?_).before _).mono ?_
      · omega
      · omega

/-! ## What was read -/

theorem endsPast_iff {rs : List Reading} :
    EndsPast target rs ↔
      ∃ last value, rs.getLast? = some last ∧ last.value = .ok (some value) ∧ target < value := by
  constructor
  · rintro ⟨before, last, value, rfl, hlast⟩
    exact ⟨last, value, List.getLast?_concat, hlast⟩
  · rintro ⟨last, value, hlast, hvalue⟩
    obtain ⟨before, rfl⟩ := List.getLast?_eq_some_iff.1 hlast
    exact ⟨before, last, value, rfl, hvalue⟩

/-- Readings that go on after one that is not past the target end as those that go on do. -/
theorem EndsPast.of_cons {rs : List Reading} {r : Reading} {value : Option Instant}
    (h : EndsPast target (r :: rs)) (hr : r.value = .ok value) (hpast : ¬ isPast target value = true) :
    EndsPast target rs := by
  rw [endsPast_iff] at h ⊢
  obtain ⟨last, late, hlast, hlate, htarget⟩ := h
  rw [List.getLast?_cons] at hlast
  cases hrs : rs.getLast? with
  | none =>
    rw [hrs] at hlast
    obtain rfl : r = last := Option.some.inj hlast
    obtain rfl : value = some late := Except.ok.inj (hr.symm.trans hlate)
    exact absurd (decide_eq_true htarget) hpast
  | some s =>
    rw [hrs] at hlast
    obtain rfl : s = last := Option.some.inj hlast
    exact ⟨s, late, rfl, hlate, htarget⟩

/-- A wait whose last reading is later than the target passed. -/
theorem passed_of_endsPast {moves calls : Nat} {seen : Option (Option Instant)}
    {since clock : Instant}
    (h : EndsPast target (waitPast probe sleep timeout target moves calls seen since clock).readings) :
    (waitPast probe sleep timeout target moves calls seen since clock).result = .passed := by
  fun_induction waitPast probe sleep timeout target moves calls seen since clock with
  | case1 =>
    obtain ⟨last, value, hlast, -⟩ := endsPast_iff.1 h
    cases hlast
  | case2 moves calls seen since clock now reading cause hvalue =>
    obtain ⟨last, value, hlast, hlate, -⟩ := endsPast_iff.1 h
    cases hlast
    cases hvalue.symm.trans hlate
  | case3 => rfl
  | case4 moves calls seen since clock now reading value hvalue hpast hchanged ih =>
    exact ih (h.of_cons hvalue hpast)
  | case5 moves calls seen since clock now reading value hvalue hpast hsame hlong =>
    obtain ⟨last, late, hlast, -⟩ := endsPast_iff.1 (h.of_cons hvalue hpast)
    cases hlast
  | case6 moves calls seen since clock now reading value hvalue hpast hsame hearly ih =>
    exact ih (h.of_cons hvalue hpast)

/-- What is read are the answers of the probe in turn. -/
theorem values_waitPast {moves calls : Nat} {seen : Option (Option Instant)} {since clock : Instant} :
    (waitPast probe sleep timeout target moves calls seen since clock).readings.map (·.value) =
      (List.range' calls
        (waitPast probe sleep timeout target moves calls seen since clock).readings.length).map
          fun n => (probe n).value := by
  fun_induction waitPast probe sleep timeout target moves calls seen since clock with
  | case1 => rfl
  | case2 => rfl
  | case3 => rfl
  | case4 moves calls seen since clock now reading value hvalue hpast hchanged ih =>
    exact congrArg ((probe calls).value :: ·) ih
  | case5 => rfl
  | case6 moves calls seen since clock now reading value hvalue hpast hsame hearly ih =>
    exact congrArg ((probe calls).value :: ·) ih

end Waits

/-- **Waiting for a probe ends.** If what a probe answers changes at most `k` times and its clock is not
set back, a wait for it takes no more than `maxReadings` readings, and with as many moves it is not
cancelled. What it reads are the answers of the probe in turn. It passes if and only if the last of them
is later than the target, fails only with one that failed, and gives up only on one that stood still for
the timeout. -/
theorem waiting_ends {probe : Probe} {sleep : Duration} {k calls : Nat} (timeout : Duration)
    (target : Instant) (hsleep : 0 < sleep) (hclock : ∀ n, 0 ≤ (probe n).moved)
    (hchanges : probe.ChangesAtMost calls k) (moves : Nat) (clock : Instant) :
    let w := waitPast probe sleep timeout target moves calls none clock clock
    w.readings.length ≤ maxReadings k sleep timeout ∧
      (maxReadings k sleep timeout ≤ moves → w.result ≠ .cancelled) ∧
      w.readings.map (·.value) =
        (List.range' calls w.readings.length).map (fun n => (probe n).value) ∧
      (w.result = .passed ↔ EndsPast target w.readings) ∧
      (∀ cause, w.result = .failed cause →
        ∃ before time, w.readings = before ++ [⟨time, .error cause⟩]) ∧
      (w.result = .stalled → StandsStill timeout w.readings) := by
  have hends : (waitPast probe sleep timeout target moves calls none clock clock).EndsWithin
      (maxReadings k sleep timeout) moves :=
    endsWithin_waitPast hsleep hclock hchanges moves clock clock
  exact ⟨hends.length_le, hends.ne_cancelled, values_waitPast,
    ⟨endsPast_waitPast, passed_of_endsPast⟩, fun _ => last_of_failed, standsStill_waitPast [] nofun⟩

/-- A probe that knows of no moment at first, and of the moment 5 from its third reading on. -/
def lateProbe : Probe := .ofReadings [.ok none, .ok none, .ok (some 5)]

theorem changesAtMost_lateProbe : lateProbe.ChangesAtMost 0 1 := by
  refine (Set.encard_le_encard (t := {1}) ?_).trans (Set.encard_singleton 1).le
  rintro n ⟨-, hchange⟩
  match n, hchange with
  | 0, h => exact absurd rfl h
  | 1, _ => rfl
  | n + 2, h => exact absurd (by cases n <;> rfl) h

/-- The probe is read five times, and at most six times, before the wait gives up on the moment 5. -/
theorem waiting_ends_lateProbe :
    0 < 2 ∧ (∀ n, 0 ≤ (lateProbe n).moved) ∧ lateProbe.ChangesAtMost 0 1 ∧
      maxReadings 1 2 3 = 6 ∧ (waitPast lateProbe 2 3 10 6 0 none 0 0).readings.length = 5 ∧
      (waitPast lateProbe 2 3 10 6 0 none 0 0).readings.length ≤ 6 ∧
      (waitPast lateProbe 2 3 10 6 0 none 0 0).result ≠ .cancelled := by
  have hclock : ∀ n, 0 ≤ (lateProbe n).moved := by
    intro n
    unfold lateProbe Probe.ofReadings
    split <;> exact Int.le_refl 0
  obtain ⟨hlength, hresult, -⟩ := waiting_ends 3 10 Nat.two_pos hclock
    changesAtMost_lateProbe 6 0
  exact ⟨by decide, hclock, changesAtMost_lateProbe, rfl, rfl, hlength, hresult (Nat.le_refl 6)⟩

end MailTrace.Import
