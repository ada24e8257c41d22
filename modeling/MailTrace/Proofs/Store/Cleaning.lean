import Mathlib.Algebra.GroupWithZero.Nat
import Mathlib.Data.List.Basic
import MailTrace.Proofs.Store.Archive
import MailTrace.Proofs.Time.Calendar

/-!
# Cleaning the archive

A cleaning reckons the age of a line from the latest one that is there, and that one is never deleted.
So the rows it deletes are the first of a fixed list, and cleanings add up.

1. For moments of the calendar the first second that is kept is exact, though it is reckoned in words
   (`lt_oldestKept_iff`), so that what a cleaning looks at are the old rows (`outdated_eq`).
2. A row is among the first `n` of them exactly if fewer than `n` come before it
   (`mem_take_oldRows_iff`).
3. A cleaning moves neither the latest second (`newest?_clean`) nor the row that is next in turn
   (`oldRows_clean`).
4. So cleanings in batches are one cleaning by the sum of the batches (`inBatches_eq`), and those that
   reach all old rows leave the rest (`clean_eq_recent`).
-/

namespace MailTrace

open MailTrace.Time

namespace Archive

/-! ## Old rows -/

/-- The calendar has the year of a second. -/
def InCalendar (second : Int) : Prop :=
  Date.minYear ≤ (Instant.ofSecond second).year ∧ (Instant.ofSecond second).year ≤ Date.maxYear

instance (second : Int) : Decidable (InCalendar second) := inferInstanceAs (Decidable (_ ∧ _))

/-- All lines are of moments that have a date. -/
def Dated (a : Archive) : Prop := ∀ r ∈ a.lines.rows, InCalendar r.2.second

instance (a : Archive) : Decidable a.Dated := inferInstanceAs (Decidable (∀ r ∈ _, _))

/-- A row is older than the age, seen from the latest line. -/
def isOld (a : Archive) (maxAge : Duration) (r : Row) : Bool :=
  a.newest?.any fun newest => r.2.second < newest - (maxAge.seconds : Int)

/-- The old rows in the order of a listing. -/
def oldRows (a : Archive) (maxAge : Duration) : List Row := a.listing (a.isOld maxAge)

/-- How many old rows come before a row. -/
def olderCount (a : Archive) (maxAge : Duration) (r : Row) : Nat :=
  a.lines.rows.countP fun s => a.isOld maxAge s && !precedes r s

/-- The archive without its old rows. -/
def recent (a : Archive) (maxAge : Duration) : Archive := ⟨a.lines.filter fun r => !a.isOld maxAge r⟩

/-- Cleanings with the same age, one after the other. -/
def inBatches (a : Archive) (maxAge : Duration) (batches : List Nat) : Archive :=
  batches.foldl (fun a n => a.clean maxAge (n : Int)) a

/-! ## The age in words -/

theorem InCalendar.bounds {second : Int} (h : InCalendar second) :
    -377705116800 ≤ second ∧ second < 253402300800 := by
  obtain ⟨hlow, hhigh⟩ := h
  have hfirst : Instant.ofDate ⟨Date.minYear, .january, 1⟩ 0 = -377705116800000000000 := by decide
  have hend : Instant.ofDate ⟨Date.maxYear + 1, .january, 1⟩ 0 = 253402300800000000000 := by decide
  have hlater : ¬ Date.maxYear + 1 ≤ (Instant.ofSecond second).year := by omega
  rw [Instant.le_year_iff, hfirst] at hlow
  rw [Instant.le_year_iff, hend] at hlater
  have hlow : (-377705116800000000000 : Int) ≤ second * 1000000000 := hlow
  have hlater : ¬ (253402300800000000000 : Int) ≤ second * 1000000000 := hlater
  omega

/-- In the calendar the first second that is kept is that of the latest line less the age. An age that
no word holds is longer than the calendar. -/
theorem lt_oldestKept_iff {second newest : Int} (maxAge : Duration) (hsecond : InCalendar second)
    (hnewest : InCalendar newest) :
    second < oldestKept newest maxAge ↔ second < newest - (maxAge.seconds : Int) := by
  have hleast : Word.least 64 = -9223372036854775808 := by decide
  have hgreatest : Word.greatest 64 = 9223372036854775807 := by decide
  have hbounds := hsecond.bounds
  have hlatest := hnewest.bounds
  unfold oldestKept Word.clamp
  rw [hleast, hgreatest]
  omega

variable {a : Archive} {maxAge : Duration} {n : Nat} {newest : Int} {r : Row}

/-- Records of dates that the calendar has make such an archive, whatever is cleaned. -/
theorem dated_after {ws : List Write} (h : ∀ r ∈ ws.filterMap Write.record?,
    Date.minYear ≤ r.time.year ∧ r.time.year ≤ Date.maxYear) : (after ws).Dated := by
  intro row hrow
  have hline : row.2 ∈ (after ws).lines.rows.map (·.2) := List.mem_map_of_mem hrow
  obtain ⟨r, hr, he⟩ := List.mem_map.1 ((lines_after_sublist ws).subset hline)
  have hyear : (Instant.ofSecond row.2.second).year = r.time.year := by
    rw [← he]
    unfold lineOf Instant.year Instant.date
    rw [Instant.second_ofSecond]
  unfold InCalendar
  rw [hyear]
  exact h r hr

theorem exists_newest (h : newest ∈ a.newest?) : ∃ r ∈ a.lines.rows, r.2.second = newest := by
  obtain ⟨r, hr, he⟩ := List.mem_map.1 (List.max?_mem h)
  exact ⟨r, hr, he⟩

theorem second_le_newest (h : newest ∈ a.newest?) (hr : r ∈ a.lines.rows) :
    r.2.second ≤ newest :=
  (List.max?_eq_some_iff.1 h).2 _ (List.mem_map_of_mem hr)

theorem isOld_iff :
    a.isOld maxAge r = true ↔ ∃ newest ∈ a.newest?, r.2.second < newest - (maxAge.seconds : Int) := by
  unfold isOld
  cases a.newest? <;> simp

/-- The rows that a cleaning looks at are the old ones. -/
theorem outdated_eq (h : a.Dated) : a.outdated maxAge = a.oldRows maxAge := by
  unfold outdated oldRows isOld
  cases hnewest : a.newest? with
  | none => simp [listing]
  | some newest =>
    obtain ⟨latest, hlatest, rfl⟩ := exists_newest hnewest
    refine congrArg (List.mergeSort · precedes) (List.filter_congr fun r hr => ?_)
    rw [Option.any_some, decide_eq_decide]
    exact lt_oldestKept_iff maxAge (h r hr) (h latest hlatest)

/-! ## The first of the old rows -/

theorem mem_oldRows : r ∈ a.oldRows maxAge ↔ r ∈ a.lines.rows ∧ a.isOld maxAge r = true :=
  mem_listing

/-- Of two rows of a listing, only the one that stands first precedes the other. -/
theorem oldRows_strict (a : Archive) (maxAge : Duration) :
    (a.oldRows maxAge).Pairwise fun r s => precedes s r = false := by
  refine List.Pairwise.imp_of_mem ?_ ((a.listing_sorted _).and (a.listing_nodup _))
  intro r s hr hs h
  rw [← Bool.not_eq_true]
  intro hback
  rw [precedes_iff] at hback
  have hfront := precedes_iff.1 h.1
  exact h.2 (eq_of_number_eq (mem_oldRows.1 hr).1 (mem_oldRows.1 hs).1 (by omega))

/-- A row is among the first `n` of rows in order exactly if fewer than `n` of them come before
it. -/
theorem mem_take_iff_countP_lt {rows : List Row}
    (hs : rows.Pairwise fun r s => precedes s r = false) (hr : r ∈ rows) :
    r ∈ rows.take n ↔ rows.countP (fun s => !precedes r s) < n := by
  induction rows generalizing n with
  | nil => exact absurd hr List.not_mem_nil
  | cons s rows ih =>
    obtain ⟨hfirst, hs⟩ := List.pairwise_cons.1 hs
    have hself : precedes s s = true := precedes_iff.2 (by omega)
    cases n with
    | zero => simp
    | succ n =>
      rw [List.take_succ_cons, List.mem_cons, List.countP_cons]
      by_cases he : r = s
      · have hnone : rows.countP (fun t => !precedes s t) = 0 := by
          refine List.countP_eq_zero.2 fun t ht => ?_
          have := precedes_total s t
          rw [hfirst t ht, Bool.or_false] at this
          simp [this]
        simp [he, hnone, hself]
      · have hr := (List.mem_cons.1 hr).resolve_left he
        rw [ih hs hr, hfirst r hr]
        simp [he]

/-- A row is among the first `n` old rows exactly if it is old and fewer than `n` old rows come before
it. -/
theorem mem_take_oldRows_iff (hr : r ∈ a.lines.rows) :
    r ∈ (a.oldRows maxAge).take n ↔ a.isOld maxAge r = true ∧ a.olderCount maxAge r < n := by
  have hcount : a.olderCount maxAge r = (a.oldRows maxAge).countP fun s => !precedes r s := by
    unfold oldRows listing olderCount
    rw [(List.mergeSort_perm _ _).countP_eq, List.countP_filter]
    exact List.countP_congr fun s _ => by rw [Bool.and_comm]
  have hplace (hold : a.isOld maxAge r = true) :
      r ∈ (a.oldRows maxAge).take n ↔ a.olderCount maxAge r < n := by
    rw [hcount]
    exact mem_take_iff_countP_lt (a.oldRows_strict maxAge) (mem_oldRows.2 ⟨hr, hold⟩)
  constructor
  · intro hmem
    have hold := (mem_oldRows.1 (List.mem_of_mem_take hmem)).2
    exact ⟨hold, (hplace hold).1 hmem⟩
  · rintro ⟨hold, hlt⟩
    exact (hplace hold).2 hlt

/-! ## One cleaning -/

/-- Archives with the same rows give the same number next. -/
theorem ext_rows {b : Archive} (hrows : a.lines.rows = b.lines.rows)
    (hnext : a.lines.next = b.lines.next) : a = b := by
  obtain ⟨⟨rows, next, _, _⟩⟩ := a
  obtain ⟨⟨rows', next', _, _⟩⟩ := b
  cases hrows
  cases hnext
  rfl

/-- The rows a cleaning leaves are those not among the first of the old ones. -/
theorem rows_clean (h : a.Dated) (batch : Int) :
    (a.clean maxAge batch).lines.rows =
      a.lines.rows.filter fun r => r ∉ limit batch (a.oldRows maxAge) := by
  unfold clean
  rw [outdated_eq h]
  refine List.filter_congr fun r hr => decide_eq_decide.2 (not_congr ⟨fun hnumber => ?_, fun hmem =>
    List.mem_map_of_mem hmem⟩)
  obtain ⟨s, hs, he⟩ := List.mem_map.1 hnumber
  exact eq_of_number_eq (mem_oldRows.1 (mem_of_mem_limit hs)).1 hr he ▸ hs

theorem rows_clean_nat (h : a.Dated) (maxAge : Duration) (n : Nat) :
    (a.clean maxAge n).lines.rows =
      a.lines.rows.filter fun r => r ∉ (a.oldRows maxAge).take n := by
  rw [rows_clean h, limit_of_nonneg (Int.natCast_nonneg n), Int.toNat_natCast]

theorem Dated.clean (h : a.Dated) (maxAge : Duration) (batch : Int) : (a.clean maxAge batch).Dated :=
  fun r hr => h r ((rows_clean_sublist a maxAge batch).subset hr)

/-- A row that is not old is left. -/
theorem mem_clean_of_not_isOld (h : a.Dated) (batch : Int) (hr : r ∈ a.lines.rows)
    (hyoung : a.isOld maxAge r = false) : r ∈ (a.clean maxAge batch).lines.rows := by
  rw [rows_clean h]
  refine List.mem_filter.2 ⟨hr, decide_eq_true fun hmem => ?_⟩
  rw [(mem_oldRows.1 (mem_of_mem_limit hmem)).2] at hyoung
  exact Bool.noConfusion hyoung

theorem isOld_newest_eq_false (maxAge : Duration) (hnewest : newest ∈ a.newest?)
    (hr : r.2.second = newest) : a.isOld maxAge r = false := by
  rw [← Bool.not_eq_true, isOld_iff]
  rintro ⟨other, hother, hlt⟩
  have := Option.mem_unique hnewest hother
  omega

/-- Deleting never moves the latest second. -/
theorem newest?_clean (h : a.Dated) (maxAge : Duration) (batch : Int) :
    (a.clean maxAge batch).newest? = a.newest? := by
  cases hnewest : a.newest? with
  | none =>
    have hnil : a.lines.rows = [] := List.map_eq_nil_iff.1 (List.max?_eq_none_iff.1 hnewest)
    have hsub := rows_clean_sublist a maxAge batch
    rw [hnil] at hsub
    unfold newest?
    rw [List.sublist_nil.1 hsub]
    rfl
  | some newest =>
    obtain ⟨latest, hlatest, he⟩ := exists_newest hnewest
    have hleft := mem_clean_of_not_isOld h batch hlatest (isOld_newest_eq_false maxAge hnewest he)
    refine List.max?_eq_some_iff.2 ⟨he ▸ List.mem_map_of_mem hleft, fun s hs => ?_⟩
    obtain ⟨r, hr, rfl⟩ := List.mem_map.1 hs
    exact second_le_newest hnewest ((rows_clean_sublist a maxAge batch).subset hr)

theorem isOld_clean (h : a.Dated) (maxAge : Duration) (batch : Int) :
    (a.clean maxAge batch).isOld maxAge = a.isOld maxAge := by
  unfold isOld
  rw [newest?_clean h]

/-- Distinct rows without the first `n` of them are those that come after. -/
theorem filter_notMem_take {rows : List Row} (hd : rows.Nodup) (n : Nat) :
    rows.filter (fun r => r ∉ rows.take n) = rows.drop n := by
  have hsplit := List.take_append_drop n rows
  generalize rows.take n = front at hsplit
  generalize rows.drop n = rest at hsplit
  subst hsplit
  have hapart := (List.nodup_append.1 hd).2.2
  rw [List.filter_append, List.filter_eq_nil_iff.2 (by simp), List.nil_append]
  exact List.filter_eq_self.2 fun r hr => decide_eq_true fun hmem => hapart r hmem r hr rfl

/-- After a cleaning the old rows are those that it did not reach. -/
theorem oldRows_clean (h : a.Dated) (maxAge : Duration) (n : Nat) :
    (a.clean maxAge n).oldRows maxAge = (a.oldRows maxAge).drop n := by
  calc (a.clean maxAge n).oldRows maxAge
      = a.listing fun r => a.isOld maxAge r && decide (r ∉ (a.oldRows maxAge).take n) := by
        unfold oldRows listing
        rw [isOld_clean h, rows_clean_nat h, List.filter_filter]
        rfl
    _ = (a.oldRows maxAge).filter fun r => r ∉ (a.oldRows maxAge).take n := a.listing_and _ _
    _ = (a.oldRows maxAge).drop n := filter_notMem_take (a.listing_nodup _) n

/-! ## Cleanings in batches -/

theorem clean_zero (a : Archive) (maxAge : Duration) : a.clean maxAge (0 : Nat) = a := by
  refine ext_rows ?_ rfl
  exact List.filter_eq_self.2 fun r _ => by simp [limit]

theorem clean_clean (h : a.Dated) (maxAge : Duration) (m n : Nat) :
    (a.clean maxAge m).clean maxAge n = a.clean maxAge (m + n : Nat) := by
  refine ext_rows ?_ rfl
  rw [rows_clean_nat (h.clean maxAge m), oldRows_clean h, rows_clean_nat h, rows_clean_nat h,
    List.filter_filter, List.take_add]
  exact List.filter_congr fun r _ => by simp [Bool.and_comm]

theorem inBatches_eq (h : a.Dated) (maxAge : Duration) (batches : List Nat) :
    a.inBatches maxAge batches = a.clean maxAge (batches.sum : Nat) := by
  induction batches generalizing a with
  | nil => exact (a.clean_zero maxAge).symm
  | cons n batches ih =>
    rw [List.sum_cons, ← clean_clean h]
    exact ih (h.clean maxAge n)

theorem length_oldRows (a : Archive) (maxAge : Duration) :
    (a.oldRows maxAge).length = a.lines.rows.countP (a.isOld maxAge) := by
  rw [oldRows, listing, List.length_mergeSort, List.countP_eq_length_filter]

/-- A batch that takes in all old rows leaves the others. -/
theorem clean_eq_recent (h : a.Dated) (hn : a.lines.rows.countP (a.isOld maxAge) ≤ n) :
    a.clean maxAge n = a.recent maxAge := by
  refine ext_rows ?_ rfl
  rw [rows_clean_nat h, List.take_of_length_le (a.length_oldRows maxAge ▸ hn)]
  refine List.filter_congr fun r hr => ?_
  simp [mem_oldRows, hr]

/-- Without old rows there is nothing to clean. -/
theorem clean_eq_self (h : a.Dated) (hnone : a.oldRows maxAge = []) (batch : Int) :
    a.clean maxAge batch = a := by
  refine ext_rows ?_ rfl
  rw [rows_clean h, hnone]
  exact List.filter_eq_self.2 fun r _ => by simp [limit]

theorem clean_recent (h : a.Dated) (maxAge : Duration) (batch : Int) :
    (a.recent maxAge).clean maxAge batch = a.recent maxAge := by
  rw [← clean_eq_recent h (Nat.le_refl _)]
  refine clean_eq_self (h.clean maxAge _) ?_ batch
  rw [oldRows_clean h, ← length_oldRows, List.drop_length]

/-- **Cleaning in batches.** A cleaning deletes the old rows before which fewer than a batch of old
rows come, so never a line of the latest second or one within the age. Two cleanings are one by both
batches, and once the batches reach the number of old rows, the rows left are those that are not old,
and cleaning on changes nothing. -/
theorem cleaning_in_batches (h : a.Dated) (maxAge : Duration) :
    (∀ n : Nat, (a.clean maxAge n).lines.rows = a.lines.rows.filter fun r =>
        !(a.isOld maxAge r && a.olderCount maxAge r < n)) ∧
      (∀ batch : Int, ∀ r ∈ a.lines.rows, ∀ newest ∈ a.newest?,
        r.2.second = newest ∨ newest - (maxAge.seconds : Int) ≤ r.2.second →
          r ∈ (a.clean maxAge batch).lines.rows) ∧
      (∀ m n : Nat, (a.clean maxAge m).clean maxAge n = a.clean maxAge (m + n : Nat)) ∧
      ∀ batches : List Nat, a.lines.rows.countP (a.isOld maxAge) ≤ batches.sum →
        a.inBatches maxAge batches = a.recent maxAge ∧
          ∀ batch : Int, (a.inBatches maxAge batches).clean maxAge batch =
            a.inBatches maxAge batches := by
  refine ⟨fun n => ?_, fun batch r hr newest hnewest hkept => ?_, clean_clean h maxAge,
    fun batches hsum => ?_⟩
  · rw [rows_clean_nat h]
    refine List.filter_congr fun r hr => Bool.eq_iff_iff.2 ?_
    simp [mem_take_oldRows_iff hr]
  · refine mem_clean_of_not_isOld h batch hr ?_
    rw [← Bool.not_eq_true, isOld_iff]
    rintro ⟨other, hother, hlt⟩
    obtain rfl := Option.mem_unique hnewest hother
    omega
  · have hall : a.inBatches maxAge batches = a.recent maxAge := by
      rw [inBatches_eq h, clean_eq_recent h hsum]
    exact ⟨hall, fun batch => by rw [hall, clean_recent h]⟩

/-- Lines that were kept out of order, two of them of one second. -/
def unordered : Archive :=
  ((((empty.insert (.ofSecond 30) 0 "d").insert (.ofSecond 10) 0 "a").insert
    (.ofSecond 10) 0 "b").insert (.ofSecond 20) 0 "c").insert (.ofSecond 40) 0 "e"

theorem cleaning_unordered :
    unordered.Dated ∧ (unordered.clean (.ofSeconds 15) (2 : Nat)).lines.ids = [1, 4, 5] ∧
      (unordered.inBatches (.ofSeconds 15) [2, 1]).lines.ids = [1, 5] := by
  have hdated : unordered.Dated := by decide
  obtain ⟨hfirst, -, -, hall⟩ := cleaning_in_batches hdated (.ofSeconds 15)
  refine ⟨hdated, ?_, ?_⟩
  · rw [Numbered.ids, hfirst 2]
    decide
  · rw [(hall [2, 1] (by decide)).1]
    decide

end Archive

end MailTrace
