import Mathlib.Data.List.Induction
import MailTrace.Proofs.Tracker.Standings

/-!
# What is told of a recipient while a message is open

From the record that opens a message to the one that closes it, a recipient is reported as put off at
most once, then given a result at most once, and every later result takes the place of that one
(`Protocol`).

1. What was told so far is determined by how the recipient stands (`Fits`), and every turn keeps it
   so (`Turn.fits`).
2. Every result that a mail program gives is told exactly once (`results_of_attempt`), unless the
   message went on in another queue of its host (`HandsOff`); then nothing is told at all (`Silent`).
3. Every record belongs to such an opening of every message that it is about (`exists_opening`).
-/

namespace MailTrace.Tracker

open MailTrace.Time

/-! ## The protocol -/

/-- A recipient was reported at least once: as put off, with a result, or both in this order, and
then with results in place of the earlier ones. -/
def Reported (told : List Finding) : Prop :=
  ∃ ending later, Ending ending ∧ (∀ f ∈ later, f.IsReplacement) ∧ told = ending ++ later

/-- What may be told of a recipient while a message is open. -/
def Protocol (told : List Finding) : Prop := told = [] ∨ Reported told

/-- What was told so far fits how the recipient stands. -/
def Fits : Option (Option Standing) → List Finding → Prop
  | none, told => Protocol told
  | some (some .done), told => Reported told
  | some none, told | some (some (.pending _)), told | some (some .handedOff), told => told = []

theorem Ending.reported {told : List Finding} (h : Ending told) : Reported told :=
  ⟨told, [], h, fun _ hf => absurd hf List.not_mem_nil, (List.append_nil _).symm⟩

theorem Reported.append {told : List Finding} (h : Reported told) {f : Finding}
    (hf : f.IsReplacement) : Reported (told ++ [f]) := by
  obtain ⟨ending, later, he, hl, rfl⟩ := h
  refine ⟨ending, later ++ [f], he, fun g hg => ?_, List.append_assoc ..⟩
  rcases List.mem_append.1 hg with hg | hg
  · exact hl g hg
  · exact List.mem_singleton.1 hg ▸ hf

theorem Fits.eq_nil {s : Option Standing} {told : List Finding} (h : Fits (some s) told)
    (hs : Fresh s) : told = [] := by
  rcases s with _ | s
  · exact h
  · cases s with
    | pending d => exact h
    | handedOff => exact hs.elim
    | done => exact hs.elim

theorem Fits.protocol {s : Option (Option Standing)} {told : List Finding} (h : Fits s told) :
    Protocol told := by
  rcases s with _ | _ | s
  · exact h
  · exact .inl h
  · cases s with
    | pending d => exact .inl h
    | handedOff => exact .inl h
    | done => exact .inr h

/-- A turn keeps what was told fitting how the recipient stands. -/
theorem Turn.fits {handed : Prop} {s : Option Standing} {s' : Option (Option Standing)}
    {told more : List Finding} (h : Turn handed s more s') (hs : Fits (some s) told) : Fits s' (told ++ more) := by
  cases h with
  | quiet => rwa [List.append_nil]
  | closed => rw [List.append_nil]; exact hs.protocol
  | putOff hfresh => rw [List.append_nil]; exact hs.eq_nil hfresh
  | handedOff hfresh => rw [List.append_nil]; exact hs.eq_nil hfresh
  | settled hfresh hend =>
    rw [hs.eq_nil hfresh, List.nil_append]
    exact hend.reported
  | settledAndClosed hfresh hend =>
    rw [hs.eq_nil hfresh, List.nil_append]
    exact .inr hend.reported
  | replaced hf => exact Reported.append hs hf

/-- Of a recipient whose message went on in another queue nothing is told. -/
theorem Turn.of_handedOff {handed : Prop} {s' : Option (Option Standing)} {told : List Finding}
    (h : Turn handed (some .handedOff) told s') :
    told = [] ∧ (s' = none ∨ s' = some (some .handedOff)) := by
  cases h with
  | quiet => exact ⟨rfl, .inr rfl⟩
  | closed => exact ⟨rfl, .inl rfl⟩
  | putOff hs => exact hs.elim
  | handedOff hs => exact hs.elim
  | settled hs => exact hs.elim
  | settledAndClosed hs => exact hs.elim

/-! ## Records -/

/-- The invariant that every run keeps: the attempts kept for a recipient are those at that
recipient. -/
abbrev Sorted (s : State) : Prop := AllKept (fun _ => True) s.entries

theorem sorted_run (settings : Settings) (rs : List Record) :
    Sorted (State.empty.run settings rs).1 :=
  AllKept.run every_empty fun _ _ => trivial

theorem Sorted.run {s : State} (h : Sorted s) (settings : Settings) (rs : List Record) :
    Sorted (s.run settings rs).1 :=
  AllKept.run h fun _ _ => trivial

theorem Sorted.handle {s : State} (h : Sorted s) (settings : Settings) (r : Record) :
    Sorted (s.handle settings r).1 :=
  AllKept.handle h trivial

/-! ## Openings -/

namespace State

/-- The message under a key is open whenever one of the records comes. -/
def OpenDuring (settings : Settings) (key : QueueKey) : State → List Record → Prop
  | _, [] => True
  | s, r :: rs => s.entries.contains key = true ∧ OpenDuring settings key (s.handle settings r).1 rs

/-- The records belong to one opening of the message under a key: it is not open when the first comes
and open whenever one of the others does. -/
def Opening (settings : Settings) (key : QueueKey) (s : State) : List Record → Prop
  | [] => False
  | r :: rs => s.entries.contains key = false ∧ OpenDuring settings key (s.handle settings r).1 rs

instance decidableOpenDuring (settings : Settings) (key : QueueKey) :
    (s : State) → (rs : List Record) → Decidable (s.OpenDuring settings key rs)
  | _, [] => .isTrue trivial
  | s, r :: rs =>
    have := decidableOpenDuring settings key (s.handle settings r).1 rs
    inferInstanceAs (Decidable (_ ∧ _))

instance decidableOpening (settings : Settings) (key : QueueKey) (s : State) :
    (rs : List Record) → Decidable (s.Opening settings key rs)
  | [] => .isFalse id
  | _ :: _ => inferInstanceAs (Decidable (_ ∧ _))

end State

section Keep

variable {settings : Settings} {s : State} {r : Record} {rs : List Record} {key : QueueKey}
  {x : Address} {told : List Finding}

theorem stateAt_of_contains (h : s.entries.contains key = true) (x : Address) :
    stateAt s.entries key x = some (standingAt s.entries key x) := by
  obtain ⟨e, he⟩ := Table.contains_iff.1 h
  rw [stateAt, standingAt, he]
  rfl

theorem prune_of_closed {entries : Entries} (hk : AllKept (fun _ => True) entries)
    (h : stateAt entries key x = none) (timeout : Duration) (now : Instant) :
    about key x (prune timeout now entries).2 = [] ∧
      stateAt (prune timeout now entries).1 key x = none := by
  constructor
  · have hd : deferralAt entries key x = none := by
      rw [deferralAt, standingAt_eq, h]
      rfl
    rw [about_prune hk, hd]
    split <;> rfl
  · rcases (shrunk_prune timeout now entries).stateAt with hs | hs
    · exact hs
    · exact hs.trans h

/- What every turn keeps of how a recipient stands and what was told so far. -/
variable {I : Option (Option Standing) → List Finding → Prop}

theorem keep_handle
    (hI : ∀ s₀ told more s', I (some s₀) told → Turn (HandsOff s.entries key x r) s₀ more s' →
      I s' (told ++ more))
    (hs : Sorted s) (h : I (some (standingAt s.entries key x)) told) :
    I (stateAt (s.handle settings r).1.entries key x)
      (told ++ about key x (s.handle settings r).2) := by
  have htake := hI _ _ _ _ h (turn_take hs r key x)
  rcases s.handle_cases settings r with ⟨he, hf⟩ | ⟨he, hf⟩
  · rwa [he, hf]
  · have hkept : AllKept (fun _ => True) (take s.entries r).1 := AllKept.take hs trivial
    rw [he, hf, about_append, ← List.append_assoc]
    cases hst : stateAt (take s.entries r).1 key x with
    | none =>
      obtain ⟨htold, hclosed⟩ := prune_of_closed hkept hst settings.idleTimeout r.time
      rw [htold, hclosed, List.append_nil]
      rwa [hst] at htake
    | some s₂ =>
      have hprune : Turn False _ _ _ := turn_prune hkept settings.idleTimeout r.time key x
      rw [standingAt_eq, hst] at hprune
      rw [hst] at htake
      exact hI _ _ _ _ htake (hprune.mono False.elim)

theorem keep_run
    (hI : ∀ s₀ told more s', I (some s₀) told → Turn True s₀ more s' → I s' (told ++ more))
    (hs : Sorted s) (hopen : s.OpenDuring settings key rs) (h : I (stateAt s.entries key x) told) :
    I (stateAt (s.run settings rs).1.entries key x) (told ++ about key x (s.run settings rs).2) := by
  induction rs generalizing s told with
  | nil => rwa [State.run, about_nil, List.append_nil]
  | cons r rs ih =>
    rw [stateAt_of_contains hopen.1] at h
    have hstep : I (stateAt (s.handle settings r).1.entries key x)
        (told ++ about key x (s.handle settings r).2) :=
      keep_handle (fun s₀ told more s' h ht => hI s₀ told more s' h (ht.mono fun _ => trivial)) hs h
    have hrest := ih (hs.handle settings r) hopen.2 hstep
    rwa [List.append_assoc, ← about_append] at hrest

theorem turn_closeAll {handed : Prop} (hs : Sorted s) (key : QueueKey) (x : Address) :
    Turn handed (standingAt s.entries key x) (about key x s.closeAll.2) none := by
  rw [about_closeAll hs]
  split
  · cases hd : deferralAt s.entries key x with
    | none => exact .closed _
    | some d => exact .settledAndClosed (fresh_of_deferralAt hd) (.putOff (isPutOff_summary ..))
  · exact .closed _

theorem keep_closeAll
    (hI : ∀ s₀ told more s', I (some s₀) told → Turn True s₀ more s' → I s' (told ++ more))
    (hs : Sorted s) (h : I (stateAt s.entries key x) told) :
    I none (told ++ about key x s.closeAll.2) := by
  cases hc : s.entries.contains key with
  | true =>
    rw [stateAt_of_contains hc] at h
    exact hI _ _ _ _ h (turn_closeAll hs key x)
  | false =>
    rw [stateAt_eq_none_iff.2 hc] at h
    rw [about_closeAll hs, hc, if_neg Bool.false_ne_true, List.append_nil]
    exact h

end Keep

/-! ## Results of mail programs -/

/-- A finding tells of a result, the first one or another one. -/
def Finding.isFinal (f : Finding) : Bool := f.delivery?.any fun d => d.status.isFinal

/-- The results that are told. -/
def results (found : List Finding) : List Finding := found.filter (·.isFinal)

/-- A finding tells what a mail program said of a recipient of the message under a key. -/
def Finding.Tells (f : Finding) (key : QueueKey) (a : Attempt) (time : Instant) : Prop :=
  ∃ d, f.delivery? = some d ∧ d.host = key.host ∧ d.queue = key.queue ∧
    d.recipient = a.recipient ∧ d.status = a.status ∧ d.deliveryTime = time

section Results

variable {entries : Entries} {key : QueueKey} {a : Attempt} {daemon : String} {line : LineRef}

theorem results_flush (entries : Entries) (key : QueueKey) : results (flush entries key) = [] := by
  refine List.filter_eq_nil_iff.2 fun f hf => ?_
  obtain ⟨d, -, rfl⟩ := List.mem_map.1 hf
  exact Bool.false_ne_true

theorem results_prune (timeout : Duration) (now : Instant) (entries : Entries) :
    results (prune timeout now entries).2 = [] := by
  refine List.filter_eq_nil_iff.2 fun f hf => ?_
  obtain ⟨row, -, hf⟩ := List.mem_flatMap.1 hf
  exact List.filter_eq_nil_iff.1 (results_flush entries row.1) f hf

theorem isFinal_of_delivery? {f : Finding} {d : Delivery} (hf : f.delivery? = some d)
    (h : d.status ≠ .deferred) : f.isFinal = true := by
  rw [Finding.isFinal, hf]
  exact bne_iff_ne.2 h

theorem results_attemptOpen (waiting : Option Deferral) (h : a.status ≠ .deferred)
    (hstay : a.handOff? = none) :
    ∃ f, results (attemptOpen entries key waiting a daemon line).2 = [f] ∧ f.Tells key a line.time := by
  have hstep := attemptOpen_step entries key waiting a daemon line
  generalize attemptOpen entries key waiting a daemon line = out at hstep ⊢
  cases hstep with
  | putOff hs => exact absurd hs h
  | handedOff _ hc =>
    rw [hstay] at hc
    cases hc
  | settled =>
    generalize stand entries key a.recipient .done = entries₁
    have hfinal : (Finding.delivery (final entries₁ key a daemon line)).isFinal = true :=
      isFinal_of_delivery? rfl h
    refine ⟨.delivery (final entries₁ key a daemon line), ?_, _, rfl, rfl, rfl, rfl, rfl, rfl⟩
    cases waiting with
    | none => exact List.filter_cons_of_pos hfinal
    | some d =>
      exact (List.filter_cons_of_neg Bool.false_ne_true).trans (List.filter_cons_of_pos hfinal)

theorem map_pending_ne_handedOff (waiting : Option Deferral) :
    waiting.map Standing.pending ≠ some .handedOff := by
  cases waiting <;> simp

theorem results_attempt {host : String} (h : a.status ≠ .deferred) (hstay : a.handOff? = none) :
    (standingAt entries ⟨host, a.queue⟩ a.recipient = some .handedOff →
      results (attempt entries host daemon a line).2 = []) ∧
    (standingAt entries ⟨host, a.queue⟩ a.recipient ≠ some .handedOff →
      ∃ f, results (attempt entries host daemon a line).2 = [f] ∧
        f.Tells ⟨host, a.queue⟩ a line.time) := by
  have hquiet : Quiet entries (touch entries ⟨host, a.queue⟩ line.time id) ⟨host, a.queue⟩
      a.recipient := quiet_touch fun _ => rfl
  have hstep := attempt_step entries host daemon a line
  rw [← hquiet.standingAt_eq]
  generalize attempt entries host daemon a line = out at hstep ⊢
  generalize touch entries ⟨host, a.queue⟩ line.time id = touched at hstep ⊢
  cases hstep with
  | @fresh waiting hw =>
    rw [hw]
    exact ⟨fun e => absurd e (map_pending_ne_handedOff waiting),
      fun _ => results_attemptOpen waiting h hstay⟩
  | handedOff hw => exact ⟨fun _ => rfl, fun hne => absurd hw hne⟩
  | replaced hw =>
    rw [hw]
    refine ⟨fun e => (by cases e), fun _ => ?_⟩
    exact ⟨_, List.filter_cons_of_pos (isFinal_of_delivery? rfl h), _, rfl, rfl, rfl, rfl, rfl, rfl⟩
  | ignored _ hn =>
    have hchild := hn h
    rw [hstay] at hchild
    exact absurd hchild Bool.false_ne_true

theorem results_handle (settings : Settings) (s : State) (r : Record) :
    results (s.handle settings r).2 = results (take s.entries r).2 := by
  rcases s.handle_cases settings r with ⟨-, hf⟩ | ⟨-, hf⟩
  · rw [hf]
  · rw [hf, results, List.filter_append]
    have hprune := results_prune settings.idleTimeout r.time (take s.entries r).1
    unfold results at hprune ⊢
    rw [hprune, List.append_nil]

/-- A result that a mail program gives is told exactly once, unless the message went on. -/
theorem results_of_attempt (settings : Settings) (s : State) {r : Record} {x : Address}
    (ha : r.payload = .attempt a) (hk : (⟨r.header.host, a.queue⟩ : QueueKey) = key)
    (hx : a.recipient = x) (h : a.status ≠ .deferred) (hstay : a.handOff? = none) :
    (standingAt s.entries key x = some .handedOff → results (s.handle settings r).2 = []) ∧
    (standingAt s.entries key x ≠ some .handedOff →
      ∃ f, results (s.handle settings r).2 = [f] ∧ f.Tells key a r.time) := by
  subst hk hx
  rw [results_handle, take, ha]
  exact results_attempt h hstay

end Results

/-! ## Messages that go on -/

/-- One of the records hands the message on from a recipient. -/
def HandedOffDuring (settings : Settings) (key : QueueKey) (x : Address) (s : State)
    (rs : List Record) : Prop :=
  ∃ before r rest, rs = before ++ r :: rest ∧
    HandsOff (s.run settings before).1.entries key x r

section HandedOff

variable {settings : Settings} {s : State} {r : Record} {rs more : List Record} {key : QueueKey}
  {x : Address}

theorem stateAt_take_of_handsOff {entries : Entries} (h : HandsOff entries key x r) :
    stateAt (take entries r).1 key x = some (some .handedOff) := by
  obtain ⟨hfresh, a, ha, rfl, rfl, hstatus, hchild⟩ := h
  obtain ⟨child, hchild⟩ := Option.isSome_iff_exists.1 hchild
  have hquiet : Quiet entries (touch entries ⟨r.header.host, a.queue⟩ r.ref.time id)
      ⟨r.header.host, a.queue⟩ a.recipient := quiet_touch fun _ => rfl
  rw [← hquiet.standingAt_eq] at hfresh
  have hopen := get?_touch_self entries ⟨r.header.host, a.queue⟩ r.ref.time id
  have hstep := attempt_step entries r.header.host r.header.daemonName a r.ref
  rw [take, ha]
  dsimp only
  generalize attempt entries r.header.host r.header.daemonName a r.ref = out at hstep ⊢
  generalize touch entries ⟨r.header.host, a.queue⟩ r.ref.time id = touched at hfresh hopen hstep
  cases hstep with
  | @fresh waiting hw =>
    have hgo := attemptOpen_step touched ⟨r.header.host, a.queue⟩ waiting a r.header.daemonName r.ref
    generalize attemptOpen touched ⟨r.header.host, a.queue⟩ waiting a r.header.daemonName r.ref = out
      at hgo ⊢
    cases hgo with
    | putOff hs => exact absurd hs hstatus
    | handedOff => exact quiet_handOff.stateAt_eq_some (stateAt_stand_self hopen _ _)
    | settled _ hc =>
      rw [hchild] at hc
      cases hc
  | handedOff hw => rw [hw] at hfresh; exact hfresh.elim
  | replaced hw => rw [hw] at hfresh; exact hfresh.elim
  | ignored hw => rw [hw] at hfresh; exact hfresh.elim

theorem stateAt_handle_of_handsOff (hs : Sorted s) (h : HandsOff s.entries key x r) :
    stateAt (s.handle settings r).1.entries key x = none ∨
      stateAt (s.handle settings r).1.entries key x = some (some .handedOff) := by
  have htake := stateAt_take_of_handsOff h
  rcases s.handle_cases settings r with ⟨he, -⟩ | ⟨he, -⟩
  · rw [he]
    exact .inr htake
  · have hkept : AllKept (fun _ => True) (take s.entries r).1 := AllKept.take hs trivial
    have hprune : Turn False _ _ _ := turn_prune hkept settings.idleTimeout r.time key x
    rw [standingAt_eq, htake, Option.getD_some] at hprune
    rw [he]
    exact hprune.of_handedOff.2

/-- The message of a recipient went on only if a record handed it on. -/
theorem handsOff_of_standingAt_handle (hs : Sorted s)
    (h : standingAt (s.handle settings r).1.entries key x = some .handedOff) :
    standingAt s.entries key x = some .handedOff ∨ HandsOff s.entries key x r := by
  have hkeep : stateAt (s.handle settings r).1.entries key x = some (some .handedOff) →
      standingAt s.entries key x = some .handedOff ∨ HandsOff s.entries key x r := by
    refine @keep_handle settings s r key x [] (fun s' _ => s' = some (some .handedOff) → _) ?_ hs ?_
    · intro s₀ told more s' h ht hs'
      subst hs'
      cases ht with
      | quiet => exact h rfl
      | handedOff _ hh => exact .inr hh
    · exact fun h => .inl (Option.some.inj h)
  exact hkeep (stateAt_eq_some h)

theorem handedOffDuring_of_standingAt (hs : Sorted s)
    (h : standingAt (s.run settings rs).1.entries key x = some .handedOff) :
    standingAt s.entries key x = some .handedOff ∨ HandedOffDuring settings key x s rs := by
  induction rs generalizing s with
  | nil => exact .inl h
  | cons r rs ih =>
    rcases ih (hs.handle settings r) h with hstand | ⟨before, r', rest, rfl, hh⟩
    · rcases handsOff_of_standingAt_handle hs hstand with hstand | hh
      · exact .inl hstand
      · exact .inr ⟨[], r, rs, rfl, hh⟩
    · exact .inr ⟨r :: before, r', rest, rfl, hh⟩

/-- The message of a recipient went on or is closed, and nothing was told. -/
def Silent (s' : Option (Option Standing)) (told : List Finding) : Prop :=
  told = [] ∧ (s' = none ∨ s' = some (some .handedOff))

theorem Turn.silent {handed : Prop} {s₀ : Option Standing} {told more : List Finding}
    {s' : Option (Option Standing)} (h : Silent (some s₀) told) (ht : Turn handed s₀ more s') :
    Silent s' (told ++ more) := by
  obtain ⟨rfl, hn | hs₀⟩ := h
  · cases hn
  · rw [Option.some.inj hs₀] at ht
    exact ht.of_handedOff

theorem openDuring_append :
    s.OpenDuring settings key (rs ++ more) ↔
      s.OpenDuring settings key rs ∧ (s.run settings rs).1.OpenDuring settings key more := by
  induction rs generalizing s with
  | nil => exact (and_iff_right trivial).symm
  | cons r rs ih =>
    simp only [List.cons_append, State.OpenDuring, State.run, ih, and_assoc]

/-- An opening is cut in two: the earlier records belong to it, and the message is open whenever one of
the later ones comes. -/
theorem opening_append (h : s.Opening settings key (rs ++ more)) (hne : rs ≠ []) :
    s.Opening settings key rs ∧ (s.run settings rs).1.OpenDuring settings key more := by
  cases rs with
  | nil => exact absurd rfl hne
  | cons r rs =>
    obtain ⟨hclosed, hopen⟩ := h
    obtain ⟨hfirst, hlater⟩ := openDuring_append.1 hopen
    exact ⟨⟨hclosed, hfirst⟩, hlater⟩

theorem opening_concat (h : s.Opening settings key rs)
    (hopen : (s.run settings rs).1.entries.contains key = true) :
    s.Opening settings key (rs ++ [r]) := by
  cases rs with
  | nil => exact h.elim
  | cons b rs => exact ⟨h.1, openDuring_append.2 ⟨h.2, hopen, trivial⟩⟩

theorem standingAt_of_opening (h : s.Opening settings key rs) (x : Address) :
    standingAt s.entries key x = none := by
  cases rs with
  | nil => exact h.elim
  | cons r rs =>
    rw [standingAt_eq, stateAt_eq_none_iff.2 h.1]
    rfl

/-- Every record belongs to an opening of every message: of the one that it finds open, or of the one
that starts with it. -/
theorem exists_opening (settings : Settings) (rs : List Record) (r : Record) (key : QueueKey) :
    ∃ before during, rs = before ++ during ∧
      (State.empty.run settings before).1.Opening settings key (during ++ [r]) := by
  induction rs using List.reverseRecOn generalizing r with
  | nil => exact ⟨[], [], rfl, rfl, trivial⟩
  | append_singleton rs r' ih =>
    cases hc : (State.empty.run settings (rs ++ [r'])).1.entries.contains key with
    | false => exact ⟨rs ++ [r'], [], (List.append_nil _).symm, hc, trivial⟩
    | true =>
      obtain ⟨before, during, rfl, hopening⟩ := ih r'
      refine ⟨before, during ++ [r'], List.append_assoc .., ?_⟩
      rw [List.append_assoc, State.run_append] at hc
      exact opening_concat hopening hc

/-- What was told during an opening fits how the recipient stands. -/
theorem fits_run (hs : Sorted s) (h : s.Opening settings key rs) (x : Address) :
    Fits (stateAt (s.run settings rs).1.entries key x) (about key x (s.run settings rs).2) := by
  have hstart : Fits (some (standingAt s.entries key x)) [] := by
    rw [standingAt_of_opening h]
    rfl
  cases rs with
  | nil => exact h.elim
  | cons r rs =>
    have hfirst : Fits (stateAt (s.handle settings r).1.entries key x)
        ([] ++ about key x (s.handle settings r).2) :=
      keep_handle (fun _ _ _ _ h ht => ht.fits h) hs hstart
    have hrun := keep_run (fun _ _ _ _ h ht => ht.fits h) (hs.handle settings r) h.2 hfirst
    rwa [List.nil_append, ← about_append] at hrun

/-- A message that was handed on from a recipient during an opening remains so. -/
theorem stateAt_of_handedOffDuring (hs : Sorted s) (hopen : s.Opening settings key (rs ++ r :: more))
    (h : HandedOffDuring settings key x s rs) :
    stateAt (s.run settings rs).1.entries key x = some (some .handedOff) := by
  obtain ⟨before, r', rest, rfl, hh⟩ := h
  have hrun : (s.run settings (before ++ r' :: rest)).1 =
      ((s.run settings (before ++ [r'])).1.run settings rest).1 := by
    rw [List.append_cons, State.run_append]
  have hlast : (s.run settings (before ++ [r'])).1 =
      ((s.run settings before).1.handle settings r').1 := by
    rw [State.run_concat]
  rw [List.append_assoc, List.cons_append, List.append_cons] at hopen
  obtain ⟨-, hlater⟩ := opening_append hopen (by simp)
  obtain ⟨hrest, hend⟩ := openDuring_append.1 hlater
  have hstart : Silent (stateAt (s.run settings (before ++ [r'])).1.entries key x) [] :=
    ⟨rfl, hlast ▸ stateAt_handle_of_handsOff (hs.run settings before) hh⟩
  have hsilent := keep_run (I := Silent) (fun _ _ _ _ h ht => ht.silent h) (hs.run settings _) hrest
    hstart
  rw [hrun]
  rcases hsilent.2 with hnone | hgone
  · rw [stateAt_of_contains hend.1] at hnone
    cases hnone
  · exact hgone

/-- Nothing is told in an opening during which the message was handed on from the recipient, not even
when everything is closed after it. -/
theorem about_eq_nil_of_handedOffDuring (hs : Sorted s) (hopen : s.Opening settings key (rs ++ r :: more))
    (h : HandedOffDuring settings key x s rs) :
    about key x (s.run settings (rs ++ r :: more)).2 ++
      about key x (s.run settings (rs ++ r :: more)).1.closeAll.2 = [] := by
  have hstate := stateAt_of_handedOffDuring hs hopen h
  have hne : rs ≠ [] := by
    obtain ⟨before, r', rest, rfl, -⟩ := h
    simp
  obtain ⟨hearlier, hlater⟩ := opening_append hopen hne
  have hbefore : Silent (stateAt (s.run settings rs).1.entries key x)
      (about key x (s.run settings rs).2) := by
    have hfits := fits_run hs hearlier x
    rw [hstate] at hfits ⊢
    exact ⟨hfits, .inr rfl⟩
  have hsilent : Silent (stateAt (s.run settings (rs ++ r :: more)).1.entries key x)
      (about key x (s.run settings (rs ++ r :: more)).2) := by
    have hrun := keep_run (I := Silent) (fun _ _ _ _ h ht => ht.silent h) (hs.run settings rs) hlater
      hbefore
    rw [State.run_append, about_append]
    exact hrun
  exact (keep_closeAll (I := Silent) (fun _ _ _ _ h ht => ht.silent h)
    (hs.run settings (rs ++ r :: more)) hsilent).1

end HandedOff

/-- **Emission.** During an opening of a message, and when everything is closed after it, what is told
of a recipient follows the protocol. Each result that a mail program gives is told exactly once,
unless the message was handed on from the recipient before; then nothing is told at all. Every record
of a run belongs to an opening of the message that it is about. -/
theorem emission_protocol (settings : Settings) :
    (∀ before rs key x, (State.empty.run settings before).1.Opening settings key rs →
      let s := (State.empty.run settings before).1
      let told := about key x (s.run settings rs).2
      let late := about key x (s.run settings rs).1.closeAll.2
      Protocol told ∧ Protocol (told ++ late) ∧
        ∀ pre r post a, rs = pre ++ r :: post → r.payload = .attempt a →
          (⟨r.header.host, a.queue⟩ : QueueKey) = key → a.recipient = x →
          a.status ≠ .deferred → a.handOff? = none →
          (HandedOffDuring settings key x s pre →
            results ((s.run settings pre).1.handle settings r).2 = [] ∧ told ++ late = []) ∧
          (¬HandedOffDuring settings key x s pre →
            ∃ f, results ((s.run settings pre).1.handle settings r).2 = [f] ∧
              f.Tells key a r.time)) ∧
      ∀ pre r key, ∃ before during, pre = before ++ during ∧
        (State.empty.run settings before).1.Opening settings key (during ++ [r]) := by
  refine ⟨?_, exists_opening settings⟩
  intro before rs key x h s told late
  have hs : Sorted s := sorted_run settings before
  have hfits : Fits (stateAt (s.run settings rs).1.entries key x) told := fits_run hs h x
  have hlate : Fits none (told ++ late) :=
    keep_closeAll (fun _ _ _ _ h ht => ht.fits h) (hs.run settings rs) hfits
  refine ⟨hfits.protocol, hlate.protocol, ?_⟩
  rintro pre r post a rfl ha hk hx hstatus hstay
  have hattempt := results_of_attempt settings (s.run settings pre).1 ha hk hx hstatus hstay
  constructor
  · intro hh
    refine ⟨hattempt.1 ?_, about_eq_nil_of_handedOffDuring hs h hh⟩
    rw [standingAt_eq, stateAt_of_handedOffDuring hs h hh, Option.getD_some]
  · intro hh
    refine hattempt.2 fun hstand => ?_
    rcases handedOffDuring_of_standingAt hs hstand with hstart | hduring
    · rw [standingAt_of_opening h] at hstart
      cases hstart
    · exact hh hduring

/-- An attempt in a second, with a status, for a recipient of a message in the queue A. -/
def attemptIn (second : Int) (status : Status) : Record where
  time := .ofSecond second
  header := default
  payload := .attempt
    { queue := "A", recipient := ⟨"user", "example.com"⟩, origRecipient := none, relay := .none
      delay := default, delays := default, dsn := "", status, extraMessage := "", requeued := none }
  line := ""
  location := default

/-- Two attempts that are put off and two results. -/
def twiceDeferredTwiceSent : List Record :=
  [attemptIn 1 .deferred, attemptIn 2 .deferred, attemptIn 3 .sent, attemptIn 4 .sent]

/-- The attempts that were put off are told with the first result, and the second one takes its
place. -/
theorem emission_twiceDeferredTwiceSent :
    (State.empty.run .default []).1.Opening .default ⟨"", "A"⟩ twiceDeferredTwiceSent ∧
      Protocol (about ⟨"", "A"⟩ ⟨"user", "example.com"⟩
        (State.empty.run .default twiceDeferredTwiceSent).2) ∧
      (about ⟨"", "A"⟩ ⟨"user", "example.com"⟩
        (State.empty.run .default twiceDeferredTwiceSent).2).length = 3 := by
  have hopen : (State.empty.run .default []).1.Opening .default ⟨"", "A"⟩ twiceDeferredTwiceSent :=
    ⟨by decide, by decide, by decide, by decide, trivial⟩
  exact ⟨hopen, ((emission_protocol .default).1 [] twiceDeferredTwiceSent ⟨"", "A"⟩
    ⟨"user", "example.com"⟩ hopen).1, by rfl⟩

end MailTrace.Tracker
