import MailTrace.Proofs.Store.Ledger
import MailTrace.Proofs.Tracker.Emission
import MailTrace.Service.Stores

/-!
# Results in place of others

The tracker knows a message by what is open under a queue id of a host, the ledger by host, queue id
and shown recipient at any time. The two agree as long as a queue id is not given to another message
with the same recipient.

1. Without bounces from later hosts, the n-th finding becomes the row with the number n
   (`mem_rows_findings_iff`).
2. During an opening every result of a recipient but the first takes the place of the one before
   (`Protocol.isReplacement_of_final`).
3. So a replacement reaches beyond the opening only if an earlier message left a result there, and of
   each opening the last result is kept unless a later message replaces it too
   (`replacements_of_opening`).
-/

namespace MailTrace

open MailTrace.Time

namespace Tracker

/-! ## What is told without bounces from later hosts -/

/-- A finding tells of a recipient: one who was put off, a first result, or another one. -/
def Finding.IsTold (f : Finding) : Prop := f.IsPutOff ∨ f.IsResult ∨ f.IsReplacement

/-- No record is about a bounce from a later host. -/
def NoRelayed (records : List Record) : Prop := ∀ r ∈ records, ∀ b, r.payload ≠ .relayedBounce b

section Told

variable {entries : Entries} {settings : Settings} {s : State} {r : Record} {rs : List Record}
  {f : Finding}

theorem isPutOff_of_mem_flush {key : QueueKey} (h : f ∈ flush entries key) : f.IsPutOff := by
  obtain ⟨d, -, rfl⟩ := List.mem_map.1 h
  exact isPutOff_summary entries key d

theorem isTold_of_mem_attemptOpen {key : QueueKey} {waiting : Option Deferral} {a : Attempt}
    {daemon : String} {line : LineRef}
    (h : f ∈ (attemptOpen entries key waiting a daemon line).2) : f.IsTold := by
  have hstep := attemptOpen_step entries key waiting a daemon line
  generalize attemptOpen entries key waiting a daemon line = out at hstep h
  cases hstep with
  | putOff => exact absurd h List.not_mem_nil
  | handedOff => exact absurd h List.not_mem_nil
  | settled hs =>
    rcases List.mem_append.1 h with h | h
    · obtain ⟨d, -, rfl⟩ := Option.map_eq_some_iff.1 (Option.mem_toList.1 h)
      exact .inl (isPutOff_summary ..)
    · rw [List.mem_singleton.1 h]
      exact .inr (.inl (isResult_final hs ..))

theorem isTold_of_mem_attempt {host daemon : String} {a : Attempt} {line : LineRef}
    (h : f ∈ (attempt entries host daemon a line).2) : f.IsTold := by
  have hstep := attempt_step entries host daemon a line
  generalize attempt entries host daemon a line = out at hstep h
  cases hstep with
  | fresh => exact isTold_of_mem_attemptOpen h
  | handedOff => exact absurd h List.not_mem_nil
  | replaced _ hs =>
    rw [List.mem_singleton.1 h]
    exact .inr (.inr ⟨_, rfl, hs⟩)
  | ignored => exact absurd h List.not_mem_nil

theorem isTold_of_mem_take (hr : ∀ b, r.payload ≠ .relayedBounce b) (h : f ∈ (take entries r).2) :
    f.IsTold := by
  have hstep := take_step entries r
  generalize take entries r = out at hstep h
  cases hstep with
  | note => exact absurd h List.not_mem_nil
  | noteBoth => exact absurd h List.not_mem_nil
  | attempt => exact isTold_of_mem_attempt h
  | expired =>
    obtain ⟨d, -, h⟩ := List.mem_flatMap.1 h
    rcases List.mem_cons.1 h with rfl | h
    · exact .inl (isPutOff_summary ..)
    · rw [List.mem_singleton.1 h]
      exact .inr (.inl ⟨_, rfl, Status.noConfusion⟩)
  | removed => exact .inl (isPutOff_of_mem_flush h)
  | rejected => exact absurd h List.not_mem_nil
  | relayed hb => exact absurd hb (hr _)
  | nothing => exact absurd h List.not_mem_nil

theorem isTold_of_mem_run (hrs : NoRelayed rs) (h : f ∈ (s.run settings rs).2) : f.IsTold := by
  obtain ⟨before, r, rest, rfl, hhandle⟩ := State.mem_run.1 h
  have hr : ∀ b, r.payload ≠ .relayedBounce b := hrs r (by simp)
  rcases (s.run settings before).1.handle_cases settings r with ⟨-, hf⟩ | ⟨-, hf⟩
  · rw [hf] at hhandle
    exact isTold_of_mem_take hr hhandle
  · rw [hf] at hhandle
    rcases List.mem_append.1 hhandle with htake | hprune
    · exact isTold_of_mem_take hr htake
    · obtain ⟨row, -, hflush⟩ := List.mem_flatMap.1 hprune
      exact .inl (isPutOff_of_mem_flush hflush)

theorem isTold_of_mem_findings (hrs : NoRelayed rs) (h : f ∈ findings settings rs) : f.IsTold := by
  rcases List.mem_append.1 h with h | h
  · exact isTold_of_mem_run hrs h
  · obtain ⟨key, -, h⟩ := List.mem_flatMap.1 h
    exact .inl (isPutOff_of_mem_flush h)

theorem Finding.IsTold.exists_delivery (h : f.IsTold) : ∃ d, f.delivery? = some d := by
  rcases h with ⟨d, rfl, -⟩ | ⟨d, rfl, -⟩ | ⟨d, rfl, -⟩ <;> exact ⟨d, rfl⟩

theorem Finding.IsTold.status_ne {d : Delivery} (h : (Finding.replacement d).IsTold) :
    d.status ≠ .deferred := by
  rcases h with ⟨_, he, -⟩ | ⟨_, he, -⟩ | ⟨_, he, hstatus⟩
  · cases he
  · cases he
  · cases he
    exact hstatus

end Told

/-! ## Results of one opening -/

/-- An element of two lists in a row is in the first one or in the second one. -/
theorem split_append {α : Type} {l more a b : List α} {x : α} (h : l ++ more = a ++ x :: b) :
    (∃ c, l = a ++ x :: c ∧ b = c ++ more) ∨ ∃ c, more = c ++ x :: b ∧ a = l ++ c := by
  rcases List.append_eq_append_iff.1 h with ⟨c, ha, hmore⟩ | ⟨c, hl, hrest⟩
  · exact .inr ⟨c, hmore, ha⟩
  · cases c with
    | nil => exact .inr ⟨[], hrest.symm, by simpa using hl.symm⟩
    | cons y c =>
      obtain ⟨rfl, hb⟩ := List.cons.inj hrest
      exact .inl ⟨c, hl, hb⟩

/-- If some element has a property, one of them is the last. -/
theorem exists_last {α : Type} {p : α → Prop} {l : List α} {x : α} (hx : x ∈ l) (hp : p x) :
    ∃ a y b, l = a ++ y :: b ∧ p y ∧ ∀ z ∈ b, ¬ p z := by
  induction l using List.reverseRecOn with
  | nil => exact absurd hx List.not_mem_nil
  | append_singleton l z ih =>
    by_cases hz : p z
    · exact ⟨l, z, [], rfl, hz, fun _ h => absurd h List.not_mem_nil⟩
    · rcases List.mem_append.1 hx with hx | hx
      · obtain ⟨a, y, b, rfl, hy, hb⟩ := ih hx
        refine ⟨a, y, b ++ [z], List.append_assoc .., hy, ?_⟩
        intro w hw
        rcases List.mem_append.1 hw with hw | hw
        · exact hb w hw
        · exact List.mem_singleton.1 hw ▸ hz
      · exact absurd (List.mem_singleton.1 hx ▸ hp) hz

theorem isFinal_iff {f : Finding} {d : Delivery} (h : f.delivery? = some d) :
    f.isFinal = true ↔ d.status ≠ .deferred := by
  rw [Finding.isFinal, h, Option.any_some]
  exact bne_iff_ne

theorem isAbout_iff {f : Finding} {d : Delivery} {key : QueueKey} {x : Address}
    (h : f.delivery? = some d) :
    f.isAbout key x = true ↔ d.host = key.host ∧ d.queue = key.queue ∧ d.recipient = x := by
  rw [Finding.isAbout, h, Option.any_some, Bool.and_eq_true, Bool.and_eq_true, decide_eq_true_iff,
    decide_eq_true_iff, decide_eq_true_iff, and_assoc]

theorem Finding.IsPutOff.not_isFinal {f : Finding} (h : f.IsPutOff) : ¬ f.isFinal = true := by
  obtain ⟨d, rfl, hd⟩ := h
  rw [isFinal_iff rfl]
  exact not_not_intro hd

theorem Ending.eq_nil_of_final {told a b : List Finding} {f : Finding} (h : Ending told)
    (hsplit : told = a ++ f :: b) (hf : f.isFinal = true) : b = [] := by
  have hlength := congrArg List.length hsplit
  rw [List.length_append, List.length_cons] at hlength
  refine List.length_eq_zero_iff.1 ?_
  cases h with
  | putOff => rw [List.length_singleton] at hlength; omega
  | result => rw [List.length_singleton] at hlength; omega
  | both hput =>
    cases a with
    | nil =>
      obtain ⟨rfl, -⟩ := List.cons.inj hsplit
      exact absurd hf hput.not_isFinal
    | cons g a => simp only [List.length_cons, List.length_nil] at hlength; omega

/-- Whatever is told of a recipient after a result takes its place. -/
theorem Protocol.isReplacement_of_final {told a b : List Finding} {f g : Finding}
    (h : Protocol told) (hsplit : told = a ++ f :: b) (hf : f.isFinal = true) (hg : g ∈ b) :
    g.IsReplacement := by
  rcases h with rfl | ⟨ending, later, hending, hlater, rfl⟩
  · exact absurd hsplit (by simp)
  · refine hlater g ?_
    rcases split_append hsplit with ⟨c, hc, rfl⟩ | ⟨c, rfl, -⟩
    · rw [hending.eq_nil_of_final hc hf] at hg
      exact hg
    · exact List.mem_append_right _ (List.mem_cons_of_mem _ hg)

section Opening

variable {settings : Settings} {s : State} {during : List Record} {key : QueueKey} {x : Address}
  {mine a b : List Finding} {f g : Finding}

theorem isReplacement_of_opening (hs : Sorted s) (hopen : s.Opening settings key during)
    (hmine : mine <+: (s.run settings during).2) (hsplit : mine = a ++ f :: b)
    (hf : f.isFinal = true) (hfx : f.isAbout key x = true) (hg : g ∈ b)
    (hgx : g.isAbout key x = true) : g.IsReplacement := by
  obtain ⟨rest, hrest⟩ := hmine
  have hprotocol : Protocol (about key x (s.run settings during).2) := (fits_run hs hopen x).protocol
  refine hprotocol.isReplacement_of_final (a := about key x a) (b := about key x (b ++ rest)) ?_ hf ?_
  · rw [← hrest, hsplit, List.append_assoc, about_append, List.cons_append]
    exact congrArg _ (List.filter_cons_of_pos hfx)
  · exact List.mem_filter.2 ⟨List.mem_append_left _ hg, hgx⟩

end Opening

end Tracker

/-! ## Rows of findings -/

namespace Stores

open Tracker

/-- The findings that are written: all before the first one that cannot be kept. -/
def written (found : List Finding) : List Finding := found.takeWhile (·.write.isPossible)

/-- The ledger after some findings are written. -/
def ledgerAfter (found : List Finding) : Ledger := .after (found.map (·.write))

theorem ledgerOf_eq (found : List Finding) : (ledgerOf found).1 = ledgerAfter (written found) := by
  show ((Writer.start Ledger.empty).drain (found.map fun f => f.write.action)).1.committed = _
  have hactions : (found.map fun f => f.write.action) = (found.map (·.write)).map (·.action) := by
    rw [List.map_map]
    rfl
  have hwritten : (found.map (·.write)).takeWhile (·.isPossible) =
      (written found).map (·.write) := List.takeWhile_map ..
  rw [Writer.drain_eq_effect, hactions]
  show (Writer.effect Ledger.empty _).1 = _
  rw [Ledger.effect_actions, hwritten]
  rfl

theorem delivery?_write (f : Finding) : f.write.delivery? = f.delivery? := by cases f <;> rfl

section Rows

variable {found earlier u : List Finding} {row : Ledger.Row} {d : Delivery} {id : Nat}

/-- A row is the one that a finding was written to, and no later finding replaces it. -/
theorem mem_rows_findings_iff (h : ∀ f ∈ found, f.IsTold) :
    row ∈ (ledgerAfter found).deliveries.rows ↔
      ∃ a f b d, found = a ++ f :: b ∧ f.delivery? = some d ∧
        row = (a.length + 1, .ofDelivery d) ∧ ∀ g ∈ b, ¬ g.write.Replaces d := by
  have hadding : Ledger.Adding (found.map (·.write)) := by
    intro w hw
    obtain ⟨f, hf, rfl⟩ := List.mem_map.1 hw
    rw [delivery?_write]
    exact (h f hf).exists_delivery
  unfold ledgerAfter
  rw [Ledger.mem_rows_after_iff hadding]
  constructor
  · rintro ⟨before, w, later, d, hsplit, hd, rfl, hlater⟩
    obtain ⟨a, rest, rfl, rfl, hrest⟩ := List.map_eq_append_iff.1 hsplit
    obtain ⟨f, b, rfl, rfl, rfl⟩ := List.map_eq_cons_iff.1 hrest
    rw [delivery?_write] at hd
    refine ⟨a, f, b, d, rfl, hd, by rw [List.length_map], ?_⟩
    intro g hg
    exact hlater _ (List.mem_map_of_mem hg)
  · rintro ⟨a, f, b, d, rfl, hd, rfl, hb⟩
    refine ⟨a.map (·.write), f.write, b.map (·.write), d, by simp, ?_, by rw [List.length_map], ?_⟩
    · rw [delivery?_write, hd]
    · intro w hw
      obtain ⟨g, hg, rfl⟩ := List.mem_map.1 hw
      exact hb g hg

/-- What a delivery replaces are the results at its place that no finding has replaced yet. -/
theorem mem_replacedBy_findings_iff (h : ∀ f ∈ found, f.IsTold) :
    id ∈ (ledgerAfter found).replacedBy d ↔
      ∃ a f b e, found = a ++ f :: b ∧ f.delivery? = some e ∧ id = a.length + 1 ∧
        Ledger.SamePlace e d ∧ e.status ≠ .deferred ∧ ∀ g ∈ b, ¬ g.write.Replaces e := by
  rw [Ledger.mem_replacedBy_iff]
  constructor
  · rintro ⟨row, hrow, rfl, hd⟩
    obtain ⟨a, f, b, e, rfl, he, rfl, hb⟩ := (mem_rows_findings_iff h).1 hrow
    obtain ⟨hplace, hstatus⟩ := (Ledger.isReplacedBy_ofDelivery _ _ _).1 hd
    exact ⟨a, f, b, e, rfl, he, rfl, hplace, hstatus, hb⟩
  · rintro ⟨a, f, b, e, rfl, he, rfl, hplace, hstatus, hb⟩
    exact ⟨_, (mem_rows_findings_iff h).2 ⟨a, f, b, e, rfl, he, rfl, hb⟩, rfl,
      (Ledger.isReplacedBy_ofDelivery _ _ _).2 ⟨hplace, hstatus⟩⟩

end Rows

/-! ## Rows of one opening -/

/-- The number is that of a row that was added for a recipient of a message by one of the findings
`mine`, which came after those `earlier`. -/
def AddedFor (earlier mine : List Finding) (key : QueueKey) (x : Address) (id : Nat) : Prop :=
  ∃ a f b, mine = a ++ f :: b ∧ f.isAbout key x = true ∧ id = earlier.length + a.length + 1

/-- The finding is a result at the place that a delivery has in the ledger. -/
def IsResultAt (f : Finding) (d : Delivery) : Prop :=
  ∃ e, f.delivery? = some e ∧ e.status ≠ .deferred ∧ Ledger.SamePlace e d

section Opening

variable {earlier mine later u v : List Finding} {f : Finding} {d e : Delivery} {key : QueueKey}
  {x : Address}

theorem replaces_of_samePlace {w : Ledger.Write} (h : w.Replaces d) (hplace : Ledger.SamePlace e d)
    (hstatus : e.status ≠ .deferred) : w.Replaces e := by
  obtain ⟨d', hw, hplace', -⟩ := h
  exact ⟨d', hw, hplace.trans hplace', hstatus⟩

theorem isResultAt_of_replaces (hf : f.IsTold) (h : f.write.Replaces d) : IsResultAt f d := by
  obtain ⟨e, hw, hplace, -⟩ := h
  cases f with
  | delivery d' => cases hw
  | replacement d' =>
    cases hw
    exact ⟨e, rfl, hf.status_ne, hplace.symm⟩
  | relayedBounce b => cases hw

/-- Of what a replacement takes away, all was added during the opening exactly if nothing was left at
its place before, or was replaced before. -/
theorem replacedBy_added_iff (htold : ∀ f ∈ earlier ++ u, f.IsTold)
    (hmine : mine = u ++ .replacement d :: v) (hkey : (Finding.replacement d).isAbout key x = true)
    (hstatus : d.status ≠ .deferred) :
    (∀ id ∈ (ledgerAfter (earlier ++ u)).replacedBy d, ∃ y, AddedFor earlier mine key y id) ↔
      (∀ f ∈ earlier, ¬ IsResultAt f d) ∨ ∃ g ∈ u, g.write.Replaces d := by
  constructor
  · intro hadded
    by_contra hnone
    rw [not_or] at hnone
    obtain ⟨hsome, hkept⟩ := hnone
    obtain ⟨f, hf, hresult⟩ : ∃ f ∈ earlier, IsResultAt f d := by simpa using hsome
    -- the last result that was left there is one that nothing replaced
    obtain ⟨a, g, b, rfl, ⟨e, he, hfinal, hplace⟩, hlast⟩ :=
      exists_last (p := (IsResultAt · d)) hf hresult
    have hreplaced : a.length + 1 ∈ (ledgerAfter (a ++ g :: b ++ u)).replacedBy d := by
      refine (mem_replacedBy_findings_iff htold).2
        ⟨a, g, b ++ u, e, by simp, he, rfl, hplace, hfinal, ?_⟩
      intro g' hg' hreplaces
      have hreplaces : g'.write.Replaces d := replaces_of_samePlace hreplaces hplace.symm hstatus
      rcases List.mem_append.1 hg' with hb | hu
      · exact hlast g' hb (isResultAt_of_replaces (htold g' (by simp [hb])) hreplaces)
      · exact hkept ⟨g', hu, hreplaces⟩
    obtain ⟨y, a', -, -, -, -, hid⟩ := hadded _ hreplaced
    rw [List.length_append, List.length_cons] at hid
    omega
  · intro hclean id hid
    obtain ⟨a, f, b, e, hsplit, he, rfl, hplace, hfinal, hb⟩ :=
      (mem_replacedBy_findings_iff htold).1 hid
    rcases split_append hsplit with ⟨c, rfl, rfl⟩ | ⟨c, rfl, rfl⟩
    · exfalso
      rcases hclean with hnone | ⟨g, hg, hreplaces⟩
      · exact hnone f (by simp) ⟨e, he, hfinal, hplace⟩
      · exact hb g (List.mem_append_right _ hg) (replaces_of_samePlace hreplaces hplace hfinal)
    · obtain ⟨hhost, hqueue, -⟩ := (isAbout_iff rfl).1 hkey
      refine ⟨e.recipient, c, f, b ++ .replacement d :: v, by rw [hmine, List.append_assoc]; rfl, ?_, ?_⟩
      · exact (isAbout_iff he).2 ⟨hplace.host.trans hhost, hplace.queue.trans hqueue, rfl⟩
      · rw [List.length_append]

variable {settings : Settings} {s : State} {during : List Record}

/-- Of the results of a recipient during an opening the last one is kept unless it is replaced, and no
other is. -/
theorem kept_iff (htold : ∀ f ∈ earlier ++ mine ++ later, f.IsTold) (hs : Sorted s)
    (hopen : s.Opening settings key during) (hmine : mine <+: (s.run settings during).2)
    (hsplit : mine = u ++ f :: v) (hd : f.delivery? = some d) (hf : f.isFinal = true)
    (hx : f.isAbout key x = true) (hlast : results (about key x v) = []) (row : Ledger.Row) :
    (row ∈ (ledgerAfter (earlier ++ mine ++ later)).deliveries.rows ∧
        AddedFor earlier mine key x row.1 ∧ row.2.status ≠ .deferred) ↔
      row = (earlier.length + u.length + 1, .ofDelivery d) ∧
        ∀ g ∈ v ++ later, ¬ g.write.Replaces d := by
  rw [mem_rows_findings_iff htold]
  constructor
  · rintro ⟨⟨a', g', b', e, hall, he, rfl, hkept⟩, ⟨a, g, b, hadded, hgx, hid⟩, hstatus⟩
    have hplace : earlier ++ a ++ g :: (b ++ later) = a' ++ g' :: b' := by
      rw [← hall, hadded]
      simp
    obtain ⟨rfl, hrest⟩ := List.append_inj hplace (by rw [List.length_append]; omega)
    obtain ⟨rfl, rfl⟩ := List.cons.inj hrest
    have hg : g.isFinal = true := (isFinal_iff he).2 hstatus
    -- the row is that of an earlier result than the last, of the last one, or of a later one
    rcases split_append (hsplit.symm.trans hadded) with ⟨c, rfl, rfl⟩ | ⟨c, hc, rfl⟩
    · exfalso
      obtain ⟨d', rfl, -⟩ := isReplacement_of_opening hs hopen hmine hadded hg hgx
        (List.mem_append_right c List.mem_cons_self) hx
      cases hd
      obtain ⟨hhost, hqueue, hrecipient⟩ := (isAbout_iff rfl).1 hx
      obtain ⟨hhost', hqueue', hrecipient'⟩ := (isAbout_iff he).1 hgx
      refine hkept (.replacement d) (by simp) ⟨d, rfl, ⟨?_, ?_, ?_⟩, hstatus⟩
      · rw [hhost', hhost]
      · rw [hqueue', hqueue]
      · rw [hrecipient', hrecipient]
    · cases c with
      | nil =>
        obtain ⟨rfl, rfl⟩ := List.cons.inj hc
        rw [hd] at he
        cases he
        exact ⟨by simp, hkept⟩
      | cons f' c =>
        have hv : g ∈ v := (List.cons.inj hc).2 ▸ List.mem_append_right c List.mem_cons_self
        have hresult : g ∈ results (about key x v) :=
          List.mem_filter.2 ⟨List.mem_filter.2 ⟨hv, hgx⟩, hg⟩
        rw [hlast] at hresult
        exact absurd hresult List.not_mem_nil
  · rintro ⟨rfl, hkept⟩
    refine ⟨⟨earlier ++ u, f, v ++ later, d, by simp [hsplit], hd, by simp, hkept⟩,
      ⟨u, f, v, hsplit, hx, rfl⟩, (isFinal_iff hd).1 hf⟩

end Opening

/-! ## Runs -/

/-- Of a list that starts with `earlier` and goes on with some of `told`, what comes in between and
after. -/
theorem eq_of_prefix {α : Type} {stored earlier told post : List α}
    (h : stored <+: earlier ++ told ++ post) (hlength : earlier.length ≤ stored.length) :
    stored = earlier ++ told.take (stored.length - earlier.length) ++
      stored.drop (earlier.length + told.length) := by
  rw [List.append_assoc] at h
  obtain ⟨rest, rfl⟩ : earlier <+: stored :=
    List.prefix_of_prefix_length_le (List.prefix_append _ _) h hlength
  have hrest : rest = (told ++ post).take rest.length :=
    List.prefix_iff_eq_take.1 ((List.prefix_append_right_inj _).1 h)
  have htake : rest.take told.length = told.take rest.length := by
    calc rest.take told.length
        = (told ++ post).take (min told.length rest.length) := by
          rw [← List.take_take, ← hrest]
      _ = told.take rest.length := by
          rw [Nat.min_comm, ← List.take_take, List.take_left]
  rw [List.append_assoc, List.length_append, Nat.add_sub_cancel_left, List.drop_length_add_append,
    ← htake, List.take_append_drop]

theorem findings_append (settings : Tracker.Settings) (before during after : List Record) :
    ∃ post, findings settings (before ++ during ++ after) =
      (State.empty.run settings before).2 ++
        ((State.empty.run settings before).1.run settings during).2 ++ post := by
  unfold findings
  dsimp only
  rw [State.run_append, State.run_append, List.append_assoc _ _ (State.closeAll _).2]
  exact ⟨_, rfl⟩

/-- **Replacements.** What is written of an opening of a message are the findings `mine`, after those
`earlier` and before those `later`. What a replacement takes away was added during its opening exactly
if no result was left at its place before, or an earlier replacement of the opening took that away. Of
the results of a recipient during the opening the last one is kept unless a later replacement has its
place, and no other one is. -/
theorem replacements_of_opening (settings : Tracker.Settings) {records before during after : List Record}
    (hplain : NoRelayed records) (hrecords : records = before ++ during ++ after) {key : QueueKey}
    (hopen : (State.empty.run settings before).1.Opening settings key during) (x : Address) :
    let earlier := (State.empty.run settings before).2
    let told := ((State.empty.run settings before).1.run settings during).2
    let stored := written (findings settings records)
    let mine := told.take (stored.length - earlier.length)
    let later := stored.drop (earlier.length + told.length)
    (∀ u d v, mine = u ++ .replacement d :: v → (Finding.replacement d).isAbout key x = true →
      ((∀ id ∈ (ledgerAfter (earlier ++ u)).replacedBy d, ∃ y, AddedFor earlier mine key y id) ↔
        (∀ f ∈ earlier, ¬ IsResultAt f d) ∨ ∃ g ∈ u, g.write.Replaces d)) ∧
    ∀ u f d v, mine = u ++ f :: v → f.delivery? = some d → f.isFinal = true →
      f.isAbout key x = true → results (about key x v) = [] →
      ∀ row, (row ∈ (ofRecords settings records).1.ledger.deliveries.rows ∧
          AddedFor earlier mine key x row.1 ∧ row.2.status ≠ .deferred) ↔
        row = (earlier.length + u.length + 1, .ofDelivery d) ∧
          ∀ g ∈ v ++ later, ¬ g.write.Replaces d := by
  intro earlier told stored mine later
  obtain ⟨post, hfindings⟩ := findings_append settings before during after
  have hstored : stored <+: findings settings records := List.takeWhile_prefix _
  have htold : ∀ f ∈ stored, f.IsTold := fun f hf =>
    isTold_of_mem_findings hplain (hstored.subset hf)
  -- if anything of the opening was written, all before it was
  have hcut : ∀ u f v, mine = u ++ f :: v → stored = earlier ++ mine ++ later := by
    intro u f v hmine
    refine eq_of_prefix (hfindings ▸ hrecords ▸ hstored) ?_
    by_contra hlength
    have hnil : mine = [] := by
      show told.take _ = []
      rw [Nat.sub_eq_zero_of_le (Nat.le_of_not_le hlength), List.take_zero]
    rw [hnil] at hmine
    exact absurd hmine (by simp)
  constructor
  · intro u d v hmine hkey
    rw [hcut _ _ _ hmine, hmine] at htold
    have hu : ∀ f ∈ earlier ++ u, f.IsTold := fun f hf => htold f (by
      rcases List.mem_append.1 hf with hf | hf <;> simp [hf])
    have hd : (Finding.replacement d).IsTold := htold _ (by simp)
    exact replacedBy_added_iff hu hmine hkey hd.status_ne
  · intro u f d v hmine hd hf hx hlast row
    have hledger : (ofRecords settings records).1.ledger = ledgerAfter (earlier ++ mine ++ later) := by
      rw [← hcut _ _ _ hmine]
      exact ledgerOf_eq _
    rw [hledger]
    rw [hcut _ _ _ hmine] at htold
    exact kept_iff htold (sorted_run settings before) hopen (List.take_prefix _ _) hmine hd hf hx
      hlast row

/-- A message leaves the queue A in a second. -/
def removalIn (second : Int) : Record where
  time := .ofSecond second
  header := default
  payload := .removed "A"
  line := ""
  location := default

/-- A message that is sent and leaves, and another one with the same queue id that is sent twice. -/
def reusedQueue : List Record :=
  [attemptIn 1 .sent, removalIn 2, attemptIn 3 .sent, attemptIn 4 .sent]

theorem noRelayed_reusedQueue : NoRelayed reusedQueue := by
  intro r hr b
  simp only [reusedQueue, List.mem_cons, List.not_mem_nil, or_false] at hr
  rcases hr with rfl | rfl | rfl | rfl <;> exact Payload.noConfusion

/-- Of the second message the last result is kept, and it took away more than its own. -/
theorem replacements_of_reusedQueue :
    (State.empty.run .default (reusedQueue.take 2)).1.Opening .default ⟨"", "A"⟩ (reusedQueue.drop 2) ∧
      (∃ row ∈ (ofRecords .default reusedQueue).1.ledger.deliveries.rows,
        row.1 = 3 ∧ row.2.deliverySecond = 4) := by
  have hopen : (State.empty.run .default (reusedQueue.take 2)).1.Opening .default ⟨"", "A"⟩
      (reusedQueue.drop 2) := ⟨by decide, by decide, trivial⟩
  have hrecords : reusedQueue = reusedQueue.take 2 ++ reusedQueue.drop 2 ++ [] := rfl
  have hrows := replacements_of_opening .default noRelayed_reusedQueue hrecords hopen
    ⟨"user", "example.com"⟩
  have hlast := (hrows.2 [_] _ _ [] rfl rfl rfl rfl rfl _).2 ⟨rfl, fun _ hg => absurd hg List.not_mem_nil⟩
  exact ⟨hopen, _, hlast.1, rfl, rfl⟩

/-- It took away the result of the first message, of which nothing is left. -/
theorem reusedQueue_takes_both :
    NoRelayed reusedQueue ∧
      (State.empty.run .default []).1.Opening .default ⟨"", "A"⟩ (reusedQueue.take 2) ∧
      (State.empty.run .default (reusedQueue.take 2)).1.entries.contains ⟨"", "A"⟩ = false ∧
      (State.empty.run .default (reusedQueue.take 2)).1.Opening .default ⟨"", "A"⟩
        (reusedQueue.drop 2) ∧
      results (about ⟨"", "A"⟩ ⟨"user", "example.com"⟩
        (State.empty.run .default (reusedQueue.take 2)).2) ≠ [] ∧
      (∃ u d, findings .default reusedQueue = u ++ [.replacement d] ∧
        (ledgerAfter u).replacedBy d = [1, 2]) ∧
      ∀ row ∈ (ofRecords .default reusedQueue).1.ledger.deliveries.rows,
        ¬ AddedFor [] (State.empty.run .default (reusedQueue.take 2)).2 ⟨"", "A"⟩
          ⟨"user", "example.com"⟩ row.1 := by
  refine ⟨noRelayed_reusedQueue, ⟨by decide, by decide, trivial⟩, by decide, ⟨by decide, by decide, trivial⟩,
    List.cons_ne_nil _ _, ⟨[_, _], _, rfl, rfl⟩, ?_⟩
  have hids : (ofRecords .default reusedQueue).1.ledger.deliveries.ids = [3] := rfl
  have hfound : (State.empty.run .default (reusedQueue.take 2)).2.length = 1 := rfl
  rintro row hrow ⟨a, f, b, hsplit, -, hid⟩
  have hmem : row.1 ∈ (ofRecords .default reusedQueue).1.ledger.deliveries.ids :=
    List.mem_map_of_mem hrow
  rw [hids, List.mem_singleton] at hmem
  rw [hsplit, List.length_append, List.length_cons] at hfound
  rw [hmem, List.length_nil] at hid
  omega

end Stores

end MailTrace
