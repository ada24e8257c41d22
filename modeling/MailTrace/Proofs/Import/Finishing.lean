import Mathlib.Data.List.Chain
import MailTrace.Proofs.Import.Percents

/-!
# When an import ends

Three things can end an import: a record past the clock, a silence after a record, and the end of the
source. Each has its moment and a time to be announced (`Ends`), and the first of them is announced.

1. As long as none of them came the reader awaits them: its progress tells of the records so far, none
   of which is past the clock, and none of which was followed by a silence (`Awaits`).
2. Then nothing that ends the import lies before a moment up to which it was not silent
   (`le_of_ends`), so what ends it first is what the reader comes to first (`Awaits.run`).
-/

namespace MailTrace.Import

open MailTrace.Time

/-! ## What ends an import -/

/-- The records that are published, and when. -/
def publications (t : Trace) : List (Duration × Record) :=
  t.filterMap fun e => match e.2 with
    | .published r => some (e.1, r)
    | .announced _ => none

/-- The finished steps that are announced: when, and with what time. -/
def finishedSteps (t : Trace) : List (Duration × Option Instant) :=
  t.filterMap fun e => match e.2 with
    | .announced (.step s) => if s.finished then some (e.1, s.time) else none
    | _ => none

/-- What can end an import over a source of a length whose records are published at some moments: at
which moment, and with what time. -/
inductive Ends (timeout : Duration) (clock : Instant) (length : Duration)
    (pubs : List (Duration × Record)) : Duration → Instant → Prop where
  /-- The first record past the clock is published. -/
  | past {before after : List (Duration × Record)} {moment : Duration} {r : Record}
      (hsplit : pubs = before ++ (moment, r) :: after) (hbefore : ∀ e ∈ before, e.2.time ≤ clock)
      (hpast : clock < r.time) : Ends timeout clock length pubs moment r.time
  /-- For the timeout no record is published after one. -/
  | silent {before after : List (Duration × Record)} {moment : Duration} {r : Record}
      (hsplit : pubs = before ++ (moment, r) :: after)
      (hquiet : ∀ e ∈ after.head?, moment + timeout < e.1) :
      Ends timeout clock length pubs (moment + timeout) r.time
  /-- The source is at its end. -/
  | atEnd : Ends timeout clock length pubs length ((pubs.getLast?.map (·.2.time)).getD clock)

section Trace

variable {t u : Trace} {now : Duration} {as : List Announcement}

@[simp] theorem publications_append (t u : Trace) :
    publications (t ++ u) = publications t ++ publications u := List.filterMap_append

@[simp] theorem finishedSteps_append (t u : Trace) :
    finishedSteps (t ++ u) = finishedSteps t ++ finishedSteps u := List.filterMap_append

@[simp] theorem publications_announce (now : Duration) (as : List Announcement) :
    publications (announce now as) = [] := by
  unfold publications announce
  rw [List.filterMap_map]
  exact List.filterMap_eq_nil_iff.2 fun _ _ => rfl

theorem publications_published (now : Duration) (r : Record) (t : Trace) :
    publications ((now, .published r) :: t) = (now, r) :: publications t := rfl

theorem finishedSteps_published (now : Duration) (r : Record) (t : Trace) :
    finishedSteps ((now, .published r) :: t) = finishedSteps t := rfl

theorem finishedSteps_of_going (h : as.any (·.finishes) = false) (now : Duration) :
    finishedSteps (announce now as) = [] := by
  unfold finishedSteps announce
  rw [List.filterMap_map, List.filterMap_eq_nil_iff]
  intro a ha
  have hgoing := List.any_eq_false.1 h a ha
  cases a with
  | start => rfl
  | step s => exact if_neg hgoing

theorem finishedSteps_final (h : as.any (·.finishes) = false) (now : Duration) (time : Instant) :
    finishedSteps (announce now (as ++ [.step (.final (some time))])) = [(now, some time)] := by
  have hsplit : announce now (as ++ [.step (.final (some time))]) =
      announce now as ++ announce now [.step (.final (some time))] := List.map_append
  rw [hsplit, finishedSteps_append, finishedSteps_of_going h]
  rfl

end Trace

/-! ## Nothing ends the import before -/

/-- No record is past the clock, and none was followed by a silence. -/
structure Steady (timeout : Duration) (clock : Instant) (pubs : List (Duration × Record)) : Prop where
  within : ∀ e ∈ pubs, e.2.time ≤ clock
  prompt : pubs.IsChain fun e e' => e'.1 ≤ e.1 + timeout

section Steady

variable {timeout moment length m : Duration} {clock t : Instant}
  {pubs later : List (Duration × Record)} {r : Record}

theorem steady_nil (timeout : Duration) (clock : Instant) : Steady timeout clock [] where
  within _ he := absurd he List.not_mem_nil
  prompt := .nil

theorem Steady.concat (h : Steady timeout clock pubs)
    (hprompt : ∀ e ∈ pubs.getLast?, moment ≤ e.1 + timeout) (hwithin : r.time ≤ clock) :
    Steady timeout clock (pubs ++ [(moment, r)]) where
  within e he := by
    rcases List.mem_append.1 he with he | he
    · exact h.within e he
    · exact List.mem_singleton.1 he ▸ hwithin
  prompt := by
    rw [List.isChain_append]
    refine ⟨h.prompt, .singleton _, fun e he e' he' => ?_⟩
    obtain rfl : (moment, r) = e' := Option.some.inj he'
    exact hprompt e he

/-- After records of which none ended the import, nothing ends it before a moment up to which it is not
silent, if all other records and the end come then or later. -/
theorem le_of_ends (hsteady : Steady timeout clock pubs)
    (hprompt : ∀ e ∈ pubs.getLast?, moment ≤ e.1 + timeout) (hlater : ∀ e ∈ later, moment ≤ e.1)
    (hlength : moment ≤ length) (h : Ends timeout clock length (pubs ++ later) m t) : moment ≤ m := by
  cases h with
  | @past before after _ r hsplit _ hpast =>
    have hmem : (m, r) ∈ pubs ++ later := hsplit ▸ List.mem_append_right _ List.mem_cons_self
    rcases List.mem_append.1 hmem with hmem | hmem
    · exact absurd (hsteady.within _ hmem) (Int.not_le.2 hpast)
    · exact hlater _ hmem
  | @silent before after a r hsplit hquiet =>
    rcases List.append_eq_append_iff.1 hsplit with ⟨mid, -, hlate⟩ | ⟨mid, hpubs, hrest⟩
    · have hmem : (a, r) ∈ later := hlate ▸ List.mem_append_right _ List.mem_cons_self
      exact Nat.le_trans (hlater _ hmem) (Nat.le_add_right ..)
    · cases mid with
      | nil =>
        have hmem : (a, r) ∈ later := by
          rw [List.nil_append] at hrest
          exact hrest ▸ List.mem_cons_self
        exact Nat.le_trans (hlater _ hmem) (Nat.le_add_right ..)
      | cons e mid =>
        obtain ⟨rfl, hafter⟩ := List.cons.inj hrest
        cases mid with
        | nil => exact hprompt (a, r) (by rw [hpubs, List.getLast?_concat]; rfl)
        | cons e' mid =>
          -- the next record came in time
          have hnext := hquiet e' (by rw [hafter]; rfl)
          have hchain := (List.isChain_append.1 (hpubs ▸ hsteady.prompt)).2.1
          exact absurd hnext (Nat.not_lt.2 (List.isChain_cons_cons.1 hchain).1)
  | atEnd => exact hlength

/-- One finished step is announced: at the first moment at which something ends the import, and with the
time that goes with it. -/
def EndsFirst (timeout : Duration) (clock : Instant) (length : Duration)
    (pubs : List (Duration × Record)) (steps : List (Duration × Option Instant)) : Prop :=
  ∃ m t, steps = [(m, some t)] ∧ Ends timeout clock length pubs m t ∧
    ∀ m' t', Ends timeout clock length pubs m' t' → m ≤ m'

theorem endsFirst_of_silence {a : Duration} (hsteady : Steady timeout clock pubs)
    (hlast : pubs.getLast? = some (a, r)) (hsilent : a + timeout < moment)
    (hlater : ∀ e ∈ later, moment ≤ e.1) (hlength : moment ≤ length) :
    EndsFirst timeout clock length (pubs ++ later) [(a + timeout, some r.time)] := by
  refine ⟨_, _, rfl, ?_, fun m' t' h => le_of_ends hsteady ?_ ?_ ?_ h⟩
  · obtain ⟨before, rfl⟩ := List.getLast?_eq_some_iff.1 hlast
    refine .silent (List.append_assoc ..) fun e he => ?_
    exact Nat.lt_of_lt_of_le hsilent (hlater e (List.mem_of_mem_head? he))
  · rintro e he
    obtain rfl : (a, r) = e := Option.some.inj (hlast.symm.trans he)
    exact Nat.le_refl _
  · exact fun e he => Nat.le_trans (Nat.le_of_lt hsilent) (hlater e he)
  · exact Nat.le_trans (Nat.le_of_lt hsilent) hlength

theorem endsFirst_of_past (hsteady : Steady timeout clock pubs)
    (hprompt : ∀ e ∈ pubs.getLast?, moment ≤ e.1 + timeout) (hpast : clock < r.time)
    (hlater : ∀ e ∈ later, moment ≤ e.1) (hlength : moment ≤ length) :
    EndsFirst timeout clock length (pubs ++ (moment, r) :: later) [(moment, some r.time)] := by
  refine ⟨_, _, rfl, .past rfl hsteady.within hpast, fun m' t' h =>
    le_of_ends hsteady hprompt (fun e he => ?_) hlength h⟩
  rcases List.mem_cons.1 he with rfl | he
  · exact Nat.le_refl _
  · exact hlater e he

theorem endsFirst_of_over (hsteady : Steady timeout clock pubs)
    (hprompt : ∀ e ∈ pubs.getLast?, length ≤ e.1 + timeout) :
    EndsFirst timeout clock length pubs
      [(length, some ((pubs.getLast?.map (·.2.time)).getD clock))] := by
  refine ⟨_, _, rfl, .atEnd, fun m' t' h => ?_⟩
  rw [← List.append_nil pubs] at h
  exact le_of_ends hsteady hprompt (fun _ he => absurd he List.not_mem_nil) (Nat.le_refl _) h

end Steady

/-! ## Readers that await the end -/

/-- The import is at its end. -/
def Progress.IsOver (p : Progress) : Prop := p.first.isSome = true ∧ p.ended = true

/-- Nothing ended the import after some records were published, and the reader knows of the last. -/
structure Awaits (timeout : Duration) (clock : Instant) (pubs : List (Duration × Record)) (r : Reader) :
    Prop where
  steady : Steady timeout clock pubs
  going : r.progress.ended = false
  clock_eq : r.progress.expectedEnd = clock
  first_eq : r.progress.first.isSome = pubs.getLast?.isSome
  last_eq : r.progress.last = pubs.getLast?.map (·.2.time)
  lastRecord_eq : r.lastRecord = pubs.getLast?.map (·.1)

section Awaits

variable {timeout moment : Duration} {clock : Instant} {pubs : List (Duration × Record)}
  {r r' : Reader} {line : SourceLine} {taken : Trace} {p : Progress} {time : Instant}

theorem awaits_start (timeout : Duration) (t : Transformer) (clock : Instant) :
    Awaits timeout clock [] (.start t clock) := ⟨steady_nil timeout clock, rfl, rfl, rfl, rfl, rfl⟩

theorem Awaits.deadline?_eq (h : Awaits timeout clock pubs r) :
    r.deadline? timeout = pubs.getLast?.map (·.1 + timeout) := by
  unfold Reader.deadline?
  rw [h.going, h.first_eq, h.lastRecord_eq]
  cases pubs.getLast? <;> rfl

theorem Awaits.waitUntil_of_silence (h : Awaits timeout clock pubs r) {a : Duration} {x : Record}
    (hlast : pubs.getLast? = some (a, x)) (hsilent : a + timeout < moment) :
    r.waitUntil timeout moment =
      ({ r with progress := { r.progress with ended := true }, now := moment },
        announce (a + timeout) [.step (.final (some x.time))]) := by
  have htime : r.progress.endTime = x.time := by
    rw [Progress.endTime, h.last_eq, hlast]
    rfl
  unfold Reader.waitUntil
  rw [h.deadline?_eq, hlast]
  dsimp only [Option.map_some]
  rw [if_pos hsilent, htime]
  rfl

theorem Awaits.waitUntil_of_prompt (h : Awaits timeout clock pubs r)
    (hprompt : ∀ e ∈ pubs.getLast?, moment ≤ e.1 + timeout) :
    r.waitUntil timeout moment = ({ r with now := moment }, []) := by
  unfold Reader.waitUntil
  rw [h.deadline?_eq]
  cases hlast : pubs.getLast? with
  | none => rfl
  | some e => exact if_neg (Nat.not_lt.2 (hprompt e hlast))

theorem Awaits.at (h : Awaits timeout clock pubs r) (moment : Duration) :
    Awaits timeout clock pubs { r with now := moment } :=
  ⟨h.steady, h.going, h.clock_eq, h.first_eq, h.last_eq, h.lastRecord_eq⟩

/-- A record past the clock ends the import. -/
theorem record_of_past (hgoing : p.ended = false) (hpast : p.expectedEnd < time) :
    (p.record time).1.IsOver ∧
      ∀ now, finishedSteps (announce now (p.record time).2) = [(now, some time)] := by
  obtain ⟨opening, -, hstarts, heq⟩ := record_eq p time
  rw [heq]
  unfold Progress.advance
  dsimp only
  rw [hgoing, if_neg Bool.false_ne_true, if_pos hpast]
  exact ⟨⟨rfl, rfl⟩, fun now => finishedSteps_final hstarts now time⟩

/-- Any other record does not. -/
theorem record_of_within (hgoing : p.ended = false) (hwithin : time ≤ p.expectedEnd) :
    (p.record time).1.ended = false ∧ (p.record time).1.expectedEnd = p.expectedEnd ∧
      (p.record time).1.first.isSome = true ∧ (p.record time).1.last = some time ∧
      ∀ now, finishedSteps (announce now (p.record time).2) = [] := by
  obtain ⟨opening, -, hstarts, heq⟩ := record_eq p time
  rw [heq]
  unfold Progress.advance
  dsimp only
  rw [hgoing, if_neg Bool.false_ne_true, if_neg (Int.not_lt.2 hwithin)]
  split
  · refine ⟨rfl, rfl, rfl, rfl, fun now => finishedSteps_of_going ?_ now⟩
    rwa [List.append_nil]
  · refine ⟨rfl, rfl, rfl, rfl, fun now => finishedSteps_of_going ?_ now⟩
    rw [List.any_append, hstarts]
    rfl

/-- A line that comes before a silence ends the import by a record past the clock, or not at all. -/
theorem Awaits.take (h : Awaits timeout clock pubs r)
    (hprompt : ∀ e ∈ pubs.getLast?, r.now ≤ e.1 + timeout) (htake : r.take? line = some (r', taken)) :
    (finishedSteps taken = [] ∧ Awaits timeout clock (pubs ++ publications taken) r') ∨
      ∃ record, clock < record.time ∧ publications taken = [(r.now, record)] ∧
        finishedSteps taken = [(r.now, some record.time)] ∧ r'.progress.IsOver := by
  obtain ⟨_, rfl, rfl⟩ | ⟨_, record, rfl, rfl⟩ := take?_cases htake
  · rw [show publications [] = [] from rfl, List.append_nil]
    exact .inl ⟨rfl, h.steady, h.going, h.clock_eq, h.first_eq, h.last_eq, h.lastRecord_eq⟩
  · rw [publications_published, publications_announce, finishedSteps_published]
    by_cases hpast : clock < record.time
    · obtain ⟨hover, hsteps⟩ := record_of_past h.going (h.clock_eq.symm ▸ hpast)
      exact .inr ⟨record, hpast, rfl, hsteps r.now, hover⟩
    · have hwithin : record.time ≤ clock := Int.not_lt.1 hpast
      obtain ⟨hgoing, hclock, hfirst, hlast, hsteps⟩ :=
        record_of_within h.going (h.clock_eq.symm ▸ hwithin)
      refine .inl ⟨hsteps r.now, h.steady.concat hprompt hwithin, hgoing, hclock.trans h.clock_eq, ?_,
        ?_, ?_⟩
      · rw [List.getLast?_concat]
        exact hfirst
      · rw [List.getLast?_concat]
        exact hlast
      · rw [List.getLast?_concat]
        rfl

/-- The source ends before a silence. -/
theorem Awaits.close (h : Awaits timeout clock pubs r) {ending : Ending}
    (hok : (r.close ending).2 = .ok ()) :
    publications (r.close ending).1 = [] ∧ finishedSteps (r.close ending).1 =
      [(r.now, some ((pubs.getLast?.map (·.2.time)).getD clock))] := by
  have hfinish : finishedSteps (announce r.now r.progress.finish.2) =
      [(r.now, some ((pubs.getLast?.map (·.2.time)).getD clock))] := by
    have htime : r.progress.endTime = (pubs.getLast?.map (·.2.time)).getD clock := by
      rw [Progress.endTime, h.last_eq, h.clock_eq]
    unfold Progress.finish
    dsimp only
    rw [h.going, if_neg Bool.false_ne_true, htime]
    refine finishedSteps_final ?_ r.now _
    split <;> rfl
  unfold Reader.close at hok ⊢
  cases ending with
  | exhausted => exact ⟨publications_announce .., hfinish⟩
  | failed cause =>
    dsimp only at hok ⊢
    split at hok
    · rename_i hfirst
      rw [if_pos hfirst]
      exact ⟨publications_announce .., hfinish⟩
    · cases hok

end Awaits

/-! ## After the end -/

section Over

variable {timeout moment : Duration} {r r' : Reader} {line : SourceLine} {taken : Trace}

theorem waitUntil_of_over (h : r.progress.IsOver) (timeout moment : Duration) :
    r.waitUntil timeout moment = ({ r with now := moment }, []) := by
  unfold Reader.waitUntil Reader.deadline?
  rw [h.2, Bool.not_true, Bool.and_false, if_neg Bool.false_ne_true]

theorem take_of_over (h : r.progress.IsOver) (htake : r.take? line = some (r', taken)) :
    finishedSteps taken = [] ∧ r'.progress.IsOver := by
  obtain ⟨_, rfl, rfl⟩ | ⟨_, record, rfl, rfl⟩ := take?_cases htake
  · exact ⟨rfl, h⟩
  · obtain ⟨first, hfirst⟩ := Option.isSome_iff_exists.1 h.1
    rw [finishedSteps_published, record_of_first hfirst, Progress.advance, if_pos h.2]
    exact ⟨rfl, h⟩

theorem close_of_over (h : r.progress.IsOver) (ending : Ending) :
    (r.close ending).1 = [] := by
  obtain ⟨first, hfirst⟩ := Option.isSome_iff_exists.1 h.1
  have hfinish : announce r.now r.progress.finish.2 = [] := by
    rw [Progress.finish, hfirst, if_pos h.2]
    rfl
  unfold Reader.close
  rw [hfinish]
  cases ending with
  | exhausted => rfl
  | failed cause => exact congrArg Prod.fst (if_pos h.1)

/-- Once an import is at its end no finished step is announced. -/
theorem finishedSteps_of_over (h : r.progress.IsOver) (s : ReadSettings) (delay : Duration)
    (ending : Ending) (arrivals : List Arrival) :
    finishedSteps (r.run s delay ending arrivals).1 = [] := by
  induction arrivals generalizing r with
  | nil =>
    unfold Reader.run
    dsimp only
    split
    · rw [waitUntil_of_over h]
      rfl
    · have hwaited : ({ r with now := r.now + delay } : Reader).progress.IsOver := h
      rw [waitUntil_of_over h]
      exact congrArg finishedSteps (close_of_over hwaited ending)
  | cons a rest ih =>
    unfold Reader.run
    dsimp only
    split
    · rw [waitUntil_of_over h]
      rfl
    · have hwaited : ({ r with now := r.now + a.delay } : Reader).progress.IsOver := h
      rw [waitUntil_of_over h]
      dsimp only
      split
      · rfl
      · rename_i r' taken htake
        obtain ⟨htaken, hover⟩ := take_of_over hwaited htake
        dsimp only
        rw [List.nil_append, finishedSteps_append, htaken, ih hover]
        rfl

end Over

/-! ## Runs -/

section Runs

variable {s : ReadSettings} {r r' : Reader} {line : SourceLine} {taken : Trace} {moment : Duration}
  {clock : Instant} {pubs : List (Duration × Record)}

theorem publications_waitUntil (r : Reader) (timeout moment : Duration) :
    publications (r.waitUntil timeout moment).2 = [] := by
  unfold Reader.waitUntil
  split
  · split
    · exact publications_announce ..
    · rfl
  · rfl

theorem publications_close (r : Reader) (ending : Ending) : publications (r.close ending).1 = [] := by
  unfold Reader.close
  cases ending with
  | exhausted => exact publications_announce ..
  | failed cause =>
    dsimp only
    split
    · exact publications_announce ..
    · rfl

theorem eq_now_of_mem_take (htake : r.take? line = some (r', taken)) :
    ∀ e ∈ publications taken, e.1 = r.now := by
  intro e he
  obtain ⟨_, rfl, rfl⟩ | ⟨_, record, rfl, rfl⟩ := take?_cases htake
  · cases he
  · rw [publications_published, publications_announce, List.mem_singleton] at he
    rw [he]

/-- What is published is published from now on. -/
theorem now_le_of_mem_run (s : ReadSettings) (delay : Duration) (ending : Ending)
    (arrivals : List Arrival) :
    ∀ e ∈ publications (r.run s delay ending arrivals).1, r.now ≤ e.1 := by
  induction arrivals generalizing r with
  | nil =>
    unfold Reader.run
    dsimp only
    intro e he
    split at he
    · rw [publications_waitUntil] at he
      cases he
    · rw [publications_append, publications_waitUntil, publications_close] at he
      cases he
  | cons a rest ih =>
    unfold Reader.run
    dsimp only
    intro e he
    split at he
    · rw [publications_waitUntil] at he
      cases he
    · split at he
      · rw [publications_waitUntil] at he
        cases he
      · rename_i r' taken htake
        dsimp only at he
        rw [publications_append, publications_append, publications_waitUntil, List.nil_append] at he
        rcases List.mem_append.1 he with he | he
        · rw [eq_now_of_mem_take htake e he, now_waitUntil]
          exact Nat.le_add_right ..
        · have hle := ih e he
          rw [Handshake.now_take? htake, now_waitUntil] at hle
          exact Nat.le_trans (Nat.le_add_right ..) hle

theorem cancelled?_eq_none (later : Duration) (h : ¬ s.CancelledBy (moment + later)) :
    Reader.cancelled? s moment = none := by
  cases hc : Reader.cancelled? s moment with
  | none => rfl
  | some c => exact absurd (cancelledBy_of_some hc later) h

theorem run_nil {delay : Duration} (h : Reader.cancelled? s (r.now + delay) = none) (ending : Ending) :
    r.run s delay ending [] =
      ((r.waitUntil s.idleTimeout (r.now + delay)).2 ++
          ((r.waitUntil s.idleTimeout (r.now + delay)).1.close ending).1,
        ((r.waitUntil s.idleTimeout (r.now + delay)).1.close ending).2) := by
  simp only [Reader.run, h]

theorem run_cons_of_none {a : Arrival} (h : Reader.cancelled? s (r.now + a.delay) = none)
    (htake : (r.waitUntil s.idleTimeout (r.now + a.delay)).1.take? a.line = none) (delay : Duration)
    (ending : Ending) (rest : List Arrival) :
    r.run s delay ending (a :: rest) =
      ((r.waitUntil s.idleTimeout (r.now + a.delay)).2, .error .brokenOff) := by
  simp only [Reader.run, h, htake]

theorem run_cons_of_some {a : Arrival} (h : Reader.cancelled? s (r.now + a.delay) = none)
    (htake : (r.waitUntil s.idleTimeout (r.now + a.delay)).1.take? a.line = some (r', taken))
    (delay : Duration) (ending : Ending) (rest : List Arrival) :
    r.run s delay ending (a :: rest) =
      ((r.waitUntil s.idleTimeout (r.now + a.delay)).2 ++ taken ++ (r'.run s delay ending rest).1,
        (r'.run s delay ending rest).2) := by
  simp only [Reader.run, h, htake]

/-- A silence comes before a moment, or none does. -/
theorem silence_or_prompt (timeout moment : Duration) (pubs : List (Duration × Record)) :
    (∃ a x, pubs.getLast? = some (a, x) ∧ a + timeout < moment) ∨
      ∀ e ∈ pubs.getLast?, moment ≤ e.1 + timeout := by
  cases hlast : pubs.getLast? with
  | none => exact .inr fun _ he => by cases he
  | some e =>
    by_cases hsilent : e.1 + timeout < moment
    · exact .inl ⟨e.1, e.2, rfl, hsilent⟩
    · refine .inr fun e' he' => ?_
      obtain rfl : e = e' := Option.some.inj he'
      exact Nat.not_lt.1 hsilent

/-- What ends the import first from between two lines on is announced. -/
theorem Awaits.run (h : Awaits s.idleTimeout clock pubs r) {delay : Duration} {ending : Ending}
    {arrivals : List Arrival}
    (hgoing : ¬ s.CancelledBy (r.now + ((arrivals.map (·.delay)).sum + delay)))
    (hok : (r.run s delay ending arrivals).2 = .ok ()) :
    EndsFirst s.idleTimeout clock (r.now + ((arrivals.map (·.delay)).sum + delay))
      (pubs ++ publications (r.run s delay ending arrivals).1)
      (finishedSteps (r.run s delay ending arrivals).1) := by
  induction arrivals generalizing r pubs with
  | nil =>
    rw [List.map_nil, List.sum_nil, Nat.zero_add] at hgoing ⊢
    rw [run_nil (cancelled?_eq_none 0 hgoing)] at hok ⊢
    dsimp only at hok ⊢
    rw [publications_append, publications_waitUntil, publications_close, finishedSteps_append]
    rcases silence_or_prompt s.idleTimeout (r.now + delay) pubs with ⟨m, x, hlast, hsilent⟩ | hprompt
    · have hover : ({ r with progress := { r.progress with ended := true }, now := r.now + delay } :
          Reader).progress.IsOver := ⟨by rw [h.first_eq, hlast]; rfl, rfl⟩
      rw [h.waitUntil_of_silence hlast hsilent]
      dsimp only
      rw [close_of_over hover]
      exact endsFirst_of_silence h.steady hlast hsilent (fun _ he => absurd he List.not_mem_nil)
        (Nat.le_refl _)
    · rw [h.waitUntil_of_prompt hprompt] at hok ⊢
      obtain ⟨-, hsteps⟩ := (h.at (r.now + delay)).close hok
      rw [hsteps, List.append_nil, List.append_nil]
      exact endsFirst_of_over h.steady hprompt
  | cons a rest ih =>
    -- the moment of the line, and how long it takes from there to the end
    rw [List.map_cons, List.sum_cons, Nat.add_assoc, ← Nat.add_assoc] at hgoing ⊢
    have hcancelled := cancelled?_eq_none _ hgoing
    cases htake : (r.waitUntil s.idleTimeout (r.now + a.delay)).1.take? a.line with
    | none =>
      rw [run_cons_of_none hcancelled htake] at hok
      cases hok
    | some out =>
      obtain ⟨r', taken⟩ := out
      rw [run_cons_of_some hcancelled htake] at hok ⊢
      dsimp only at hok ⊢
      have hnow : r'.now = r.now + a.delay := (Handshake.now_take? htake).trans now_waitUntil
      have hlength : r.now + a.delay ≤ r.now + a.delay + ((rest.map (·.delay)).sum + delay) :=
        Nat.le_add_right ..
      have hrest : ∀ e ∈ publications (r'.run s delay ending rest).1, r.now + a.delay ≤ e.1 :=
        hnow ▸ now_le_of_mem_run s delay ending rest
      rw [publications_append, publications_append, publications_waitUntil, List.nil_append,
        finishedSteps_append, finishedSteps_append]
      rcases silence_or_prompt s.idleTimeout (r.now + a.delay) pubs with
        ⟨m, x, hlast, hsilent⟩ | hprompt
      · have hover : ({ r with progress := { r.progress with ended := true }, now := r.now + a.delay } :
            Reader).progress.IsOver := ⟨by rw [h.first_eq, hlast]; rfl, rfl⟩
        have hlater : ∀ e ∈ publications taken ++ publications (r'.run s delay ending rest).1,
            r.now + a.delay ≤ e.1 := fun e he => by
          rcases List.mem_append.1 he with he | he
          · rw [eq_now_of_mem_take htake e he, now_waitUntil]
          · exact hrest e he
        rw [h.waitUntil_of_silence hlast hsilent] at htake ⊢
        obtain ⟨htaken, hover'⟩ := take_of_over hover htake
        rw [htaken, finishedSteps_of_over hover']
        exact endsFirst_of_silence h.steady hlast hsilent hlater hlength
      · rw [h.waitUntil_of_prompt hprompt] at htake ⊢
        rcases (h.at (r.now + a.delay)).take hprompt htake with
          ⟨htaken, hawaits⟩ | ⟨record, hpast, hpublished, htaken, hover⟩
        · rw [← hnow] at hgoing ⊢
          rw [htaken, ← List.append_assoc]
          exact ih hawaits hgoing hok
        · rw [hpublished, htaken, finishedSteps_of_over hover]
          exact endsFirst_of_past h.steady hprompt hpast hrest hlength

end Runs

/-- **When an import ends.** A run that is not cancelled and ends well announces one finished step: at the
first moment at which a record past the clock is published, the timeout has passed since a record with
none after it, or the source is at its end, and with the time that goes with it. -/
theorem finished_at_first (s : ReadSettings) (t : Transformer) (clock : Instant) (feed : Feed)
    (hgoing : ¬ s.CancelledBy feed.length) (hok : (read s t clock feed).2 = .ok ()) :
    EndsFirst s.idleTimeout clock feed.length (publications (read s t clock feed).1)
      (finishedSteps (read s t clock feed).1) := by
  have hlength : (Reader.start t clock).now + ((feed.arrivals.map (·.delay)).sum + feed.delay) =
      feed.length := Nat.zero_add _
  have hrun := (awaits_start s.idleTimeout t clock).run (hlength.symm ▸ hgoing) hok
  rwa [hlength, List.nil_append] at hrun

/-- Reading with a timeout and without an end. -/
def watchful : ReadSettings := ⟨500, none⟩

/-- A line that is read comes after ten nanoseconds, and the import ends five hundred later: the line
that is not read then does not count, and the source ends later still. -/
theorem silentFeed_finished_at_first :
    let out := read watchful (sameYear teatime) teatime silentFeed
    (¬ watchful.CancelledBy silentFeed.length ∧ out.2 = .ok ()) ∧
      EndsFirst 500 teatime 730 (publications out.1) (finishedSteps out.1) ∧
      finishedSteps out.1 = [(510, some (teatime - .ofSecond 7570))] := by
  intro out
  have hgoing : ¬ watchful.CancelledBy silentFeed.length := by
    rintro ⟨c, hc, -⟩
    cases hc
  have hok : out.2 = .ok () := rfl
  exact ⟨⟨hgoing, hok⟩, finished_at_first watchful (sameYear teatime) teatime silentFeed hgoing hok,
    by decide⟩

end MailTrace.Import
