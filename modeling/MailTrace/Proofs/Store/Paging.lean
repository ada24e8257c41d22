import Mathlib
import MailTrace.Proofs.Store.Archive

/-!
# Pages of the archive

A page continues after the number of the last row shown, while the listing is ordered by second
first. The pages of an interval are its listing exactly if the two orders agree wherever a page ends
(`CutsInOrder`), which they do when lines are kept in the order of their seconds.

1. A page shows the first rows of those of the listing with larger numbers (`page_eq`), and reading
   on ends (`shown_pages`).
2. Rows that are shown in the order of their seconds are a part of the listing (`Shown.sublist`).
3. They are all of it if and only if no page ends out of order (`Shown.eq_iff`).
-/

namespace MailTrace

open MailTrace.Time

namespace Archive

/-! ## Reading on from a number -/

/-- The rows with numbers after `c`. -/
def beyond (rows : List Row) (c : Nat) : List Row := rows.filter fun r => c < r.1

theorem mem_beyond {rows : List Row} {c : Nat} {r : Row} :
    r ∈ beyond rows c ↔ r ∈ rows ∧ c < r.1 := by
  simp [beyond]

theorem beyond_sublist (rows : List Row) (c : Nat) : (beyond rows c).Sublist rows :=
  List.filter_sublist

theorem beyond_append (rows more : List Row) (c : Nat) :
    beyond (rows ++ more) c = beyond rows c ++ beyond more c := List.filter_append ..

theorem beyond_eq_self {rows : List Row} {c : Nat} (h : ∀ r ∈ rows, c < r.1) :
    beyond rows c = rows :=
  List.filter_eq_self.2 fun r hr => decide_eq_true (h r hr)

theorem beyond_eq_nil {rows : List Row} {c : Nat} (h : ∀ r ∈ rows, r.1 ≤ c) :
    beyond rows c = [] :=
  List.filter_eq_nil_iff.2 fun r hr => by simpa using h r hr

theorem beyond_beyond (rows : List Row) {c d : Nat} (h : c ≤ d) :
    beyond (beyond rows c) d = beyond rows d := by
  unfold beyond
  rw [List.filter_filter]
  refine List.filter_congr fun r _ => ?_
  by_cases hr : d < r.1
  · simp [hr, Nat.lt_of_le_of_lt h hr]
  · simp [hr]

/-- The rows shown by pages of `n` rows from the number `c` on, each page from the number of the
last row of the one before, until nothing is left to show. -/
inductive Shown (rows : List Row) (n : Nat) : Nat → List Row → Prop where
  | done {c : Nat} (h : beyond rows c = []) : Shown rows n c []
  | page {c : Nat} {shown : List Row} (h : (beyond rows c).take n ≠ [])
      (later : Shown rows n (((beyond rows c).take n).getLast h).1 shown) :
      Shown rows n c ((beyond rows c).take n ++ shown)

section Shown

variable {rows shown : List Row} {n c : Nat}

/-- The number of the last row of a page is larger than the one the page starts from. -/
theorem lt_getLast_take (h : (beyond rows c).take n ≠ []) :
    c < (((beyond rows c).take n).getLast h).1 :=
  (mem_beyond.1 (List.mem_of_mem_take (List.getLast_mem h))).2

theorem Shown.lt (h : Shown rows n c shown) : ∀ r ∈ shown, c < r.1 := by
  induction h with
  | done h => exact fun _ hr => absurd hr List.not_mem_nil
  | page h later ih =>
    intro r hr
    rcases List.mem_append.1 hr with hr | hr
    · exact (mem_beyond.1 (List.mem_of_mem_take hr)).2
    · exact Nat.lt_trans (lt_getLast_take h) (ih r hr)

theorem Shown.head? (hn : n ≠ 0) (h : Shown rows n c shown) :
    shown.head? = (beyond rows c).head? := by
  cases h with
  | done h => rw [h]
  | page h later =>
    rw [List.head?_append_of_ne_nil _ h, List.head?_take, if_neg hn]

/-- What is shown in the order of the seconds is a part of the listing. -/
theorem Shown.sublist (hs : rows.Pairwise fun r s => precedes r s = true)
    (h : Shown rows n c shown) (ho : shown.Pairwise fun r s => r.2.second ≤ s.2.second) :
    shown.Sublist (beyond rows c) := by
  induction h with
  | done h => exact List.nil_sublist _
  | @page c shown h later ih =>
    obtain ⟨-, ho', hle⟩ := List.pairwise_append.1 ho
    have hd := lt_getLast_take h
    have hlast := List.getLast_mem h
    have hfront := List.dropLast_append_getLast h
    generalize ((beyond rows c).take n).getLast h = last at hd hlast hfront later ih
    -- rows before the last one that are shown again would have earlier seconds than it
    have hearly : ∀ r ∈ beyond ((beyond rows c).take n) last.1, r.2.second < last.2.second := by
      intro r hr
      obtain ⟨hr, hlt⟩ := mem_beyond.1 hr
      have hsorted := (hs.sublist (beyond_sublist rows c)).sublist (List.take_sublist n _)
      rw [← hfront] at hr hsorted
      rcases List.mem_append.1 hr with hr | hr
      · have hp := (List.pairwise_append.1 hsorted).2.2 r hr last (List.mem_singleton_self _)
        rw [precedes_iff] at hp
        omega
      · rw [List.mem_singleton.1 hr] at hlt
        exact absurd hlt (Nat.lt_irrefl _)
    have hsub := ih ho'
    rw [← beyond_beyond rows (Nat.le_of_lt hd), ← List.take_append_drop n (beyond rows c),
      beyond_append] at hsub
    have hkept : shown.filter (fun r => last.2.second ≤ r.2.second) = shown :=
      List.filter_eq_self.2 fun r hr => decide_eq_true (hle last hlast r hr)
    have hgone : (beyond ((beyond rows c).take n) last.1).filter
        (fun r => last.2.second ≤ r.2.second) = [] :=
      List.filter_eq_nil_iff.2 fun r hr => by simpa using hearly r hr
    have hrest := hsub.filter fun r => last.2.second ≤ r.2.second
    rw [hkept, List.filter_append, hgone, List.nil_append] at hrest
    have hdrop : shown.Sublist ((beyond rows c).drop n) :=
      (hrest.trans List.filter_sublist).trans (beyond_sublist _ _)
    have := (List.Sublist.refl ((beyond rows c).take n)).append hdrop
    rwa [List.take_append_drop] at this

end Shown

/-! ## Pages that end in order -/

/-- However many pages of `n` rows are full, the last row on them was kept after all others on them
and before all rows that follow. -/
def CutsInOrder (n : Nat) (rows : List Row) : Prop :=
  ∀ k, ∀ last ∈ (rows.take (k * n)).getLast?,
    (∀ r ∈ rows.take (k * n), r.1 ≤ last.1) ∧ ∀ r ∈ rows.drop (k * n), last.1 < r.1

theorem cutsInOrder_nil (n : Nat) : CutsInOrder n [] := by
  intro k last h
  simp at h

/-- Pages end in order if the first one does and those of the rows after it do. -/
theorem cutsInOrder_append_iff {n : Nat} {front rest : List Row} {last : Row}
    (hlast : front.getLast? = some last) (hn : front.length = n ∨ (front.length < n ∧ rest = [])) :
    CutsInOrder n (front ++ rest) ↔
      ((∀ r ∈ front, r.1 ≤ last.1) ∧ ∀ r ∈ rest, last.1 < r.1) ∧ CutsInOrder n rest := by
  have htake : ∀ k, (front ++ rest).take ((k + 1) * n) = front ++ rest.take (k * n) := by
    intro k
    have hk : n ≤ (k + 1) * n := Nat.le_mul_of_pos_left n (Nat.succ_pos k)
    rcases hn with hn | ⟨hn, rfl⟩
    · rw [List.take_append, List.take_of_length_le (by omega), hn, Nat.succ_mul, Nat.add_sub_cancel]
    · rw [List.append_nil, List.take_nil, List.append_nil, List.take_of_length_le (by omega)]
  have hdrop : ∀ k, (front ++ rest).drop ((k + 1) * n) = rest.drop (k * n) := by
    intro k
    have hk : n ≤ (k + 1) * n := Nat.le_mul_of_pos_left n (Nat.succ_pos k)
    rcases hn with hn | ⟨hn, rfl⟩
    · rw [List.drop_append, List.drop_of_length_le (by omega), hn, Nat.succ_mul, Nat.add_sub_cancel,
        List.nil_append]
    · rw [List.append_nil, List.drop_nil, List.drop_of_length_le (by omega)]
  have hne : front ≠ [] := fun h => by simp [h] at hlast
  constructor
  · intro h
    have hfirst : (∀ r ∈ front, r.1 ≤ last.1) ∧ ∀ r ∈ rest, last.1 < r.1 := by
      have h0 := h 1 last
      rw [htake 0, hdrop 0, Nat.zero_mul, List.take_zero, List.append_nil, List.drop_zero] at h0
      exact h0 hlast
    refine ⟨hfirst, fun k later hlater => ?_⟩
    have hk := h (k + 1) later
    rw [htake, hdrop] at hk
    have hk := hk (by rw [List.getLast?_append_of_ne_nil _ (by rintro e; simp [e] at hlater)]; exact hlater)
    exact ⟨fun r hr => hk.1 r (List.mem_append_right _ hr), hk.2⟩
  · rintro ⟨⟨hfront, hrest⟩, h⟩ k later hlater
    cases k with
    | zero => simp at hlater
    | succ k =>
      rw [htake] at hlater ⊢
      rw [hdrop]
      by_cases hnil : rest.take (k * n) = []
      · rw [hnil, List.append_nil] at hlater ⊢
        obtain rfl : last = later := Option.some.inj (hlast.symm.trans hlater)
        exact ⟨hfront, fun r hr => hrest r (List.mem_of_mem_drop hr)⟩
      · rw [List.getLast?_append_of_ne_nil _ hnil] at hlater
        obtain ⟨h₁, h₂⟩ := h k later hlater
        have hl := hrest later (List.mem_of_mem_take (List.mem_of_getLast? hlater))
        refine ⟨fun r hr => ?_, h₂⟩
        rcases List.mem_append.1 hr with hr | hr
        · exact Nat.le_of_lt (Nat.lt_of_le_of_lt (hfront r hr) hl)
        · exact h₁ r hr

/-- Rows in the order in which they were kept can be cut anywhere. -/
theorem cutsInOrder_of_ascending {rows : List Row} (h : rows.Pairwise fun r s => r.1 < s.1)
    (n : Nat) : CutsInOrder n rows := by
  intro k last hlast
  rw [← List.take_append_drop (k * n) rows] at h
  obtain ⟨h₁, -, h₃⟩ := List.pairwise_append.1 h
  refine ⟨fun r hr => ?_, fun r hr => h₃ last (List.mem_of_getLast? hlast) r hr⟩
  rw [← List.dropLast_append_getLast? _ hlast] at h₁ hr
  rcases List.mem_append.1 hr with hr | hr
  · exact Nat.le_of_lt ((List.pairwise_append.1 h₁).2.2 r hr last (List.mem_singleton_self _))
  · obtain rfl := List.mem_singleton.1 hr
    exact Nat.le_refl _

/-- **Lossless pages.** The rows shown are those left to show exactly if the pages of these end in
order. -/
theorem Shown.eq_iff {rows shown : List Row} {n c : Nat} (hn : n ≠ 0) (hd : rows.Nodup)
    (h : Shown rows n c shown) : shown = beyond rows c ↔ CutsInOrder n (beyond rows c) := by
  induction h with
  | done h => rw [h]; exact iff_of_true rfl (cutsInOrder_nil n)
  | @page c shown h later ih =>
    have hlt := lt_getLast_take h
    have hlast := List.getLast?_eq_some_getLast h
    generalize ((beyond rows c).take n).getLast h = last at hlt hlast later ih
    have hsplit := List.take_append_drop n (beyond rows c)
    have hlater : beyond rows last.1 = beyond ((beyond rows c).take n) last.1 ++
        beyond ((beyond rows c).drop n) last.1 := by
      rw [← beyond_append, hsplit, beyond_beyond rows (Nat.le_of_lt hlt)]
    have hnd : ((beyond rows c).take n ++ (beyond rows c).drop n).Nodup :=
      hsplit.symm ▸ hd.sublist (beyond_sublist rows c)
    have hlen : ((beyond rows c).take n).length = n ∨
        (((beyond rows c).take n).length < n ∧ (beyond rows c).drop n = []) := by
      rw [List.length_take, List.drop_eq_nil_iff]
      omega
    have hcut := cutsInOrder_append_iff hlast hlen
    rw [hsplit] at hcut
    rw [hcut]
    constructor
    · intro he
      have he : shown = (beyond rows c).drop n :=
        List.append_cancel_left (he.trans hsplit.symm)
      have hrest : ∀ r ∈ (beyond rows c).drop n, last.1 < r.1 := he ▸ later.lt
      have hnone : beyond ((beyond rows c).take n) last.1 = [] := by
        -- a row shown again would come first, so it would stand twice in the listing
        cases hb : beyond ((beyond rows c).take n) last.1 with
        | nil => rfl
        | cons r rs =>
          have hhead := later.head? hn
          rw [hlater, hb, List.cons_append, List.head?_cons, he] at hhead
          have hr : r ∈ beyond ((beyond rows c).take n) last.1 := hb ▸ List.mem_cons_self
          exact absurd rfl ((List.nodup_append.1 hnd).2.2 r (mem_beyond.1 hr).1 r
            (List.mem_of_mem_head? hhead))
      have hfront : ∀ r ∈ (beyond rows c).take n, r.1 ≤ last.1 := fun r hr =>
        Nat.le_of_not_lt fun hgt => by
          have : r ∈ beyond ((beyond rows c).take n) last.1 := mem_beyond.2 ⟨hr, hgt⟩
          rw [hnone] at this
          exact absurd this List.not_mem_nil
      rw [hnone, List.nil_append, beyond_eq_self hrest] at hlater
      exact ⟨⟨hfront, hrest⟩, hlater ▸ ih.1 (he.trans hlater.symm)⟩
    · rintro ⟨⟨hfront, hrest⟩, hcuts⟩
      rw [beyond_eq_nil hfront, List.nil_append, beyond_eq_self hrest] at hlater
      rw [ih.2 (hlater.symm ▸ hcuts), hlater, hsplit]

/-! ## The pages of an interval -/

/-- The number that the page after some pages starts from, the first of which started from `c`. -/
def cursorAfter (c : Nat) (ps : List Page) : Nat := (ps.getLast?.map (·.cursor)).getD c

theorem cursorAfter_cons (c : Nat) (p : Page) (ps : List Page) :
    cursorAfter c (p :: ps) = cursorAfter p.cursor ps := by
  cases ps with
  | nil => rfl
  | cons q ps =>
    unfold cursorAfter
    rw [List.getLast?_cons_cons, List.getLast?_cons]
    rfl

/-- A page shows the first rows of those of the listing with larger numbers. -/
theorem page_eq (a : Archive) (i : Interval) {size : Int} (h : 0 ≤ size) (c : Nat) :
    a.page i size c =
      ⟨((((beyond (a.scan i) c).take size.toNat).getLast?).map (·.1)).getD 0,
        ((beyond (a.scan i) c).take size.toNat).map (·.2)⟩ := by
  have hrows : (a.listing fun r => i.containsSecond r.2.second && decide ((c : Int) < (r.1 : Int)))
      = beyond (a.scan i) c := by
    rw [listing_and]
    exact List.filter_congr fun r _ => by simp
  rw [page, hrows, limit_of_nonneg h]

theorem lines_page_eq_nil_iff (a : Archive) (i : Interval) {size : Int} (h : 1 ≤ size) (c : Nat) :
    (a.page i size c).lines = [] ↔ beyond (a.scan i) c = [] := by
  have hn : size.toNat ≠ 0 := by omega
  rw [page_eq a i (by omega), List.map_eq_nil_iff, List.take_eq_nil_iff]
  exact or_iff_right hn

theorem length_beyond_lt {rows : List Row} {c : Nat} {r : Row} (hr : r ∈ beyond rows c) :
    (beyond rows r.1).length < (beyond rows c).length := by
  have hlt := (mem_beyond.1 hr).2
  rw [← beyond_beyond rows (Nat.le_of_lt hlt)]
  refine Nat.lt_of_le_of_ne (beyond_sublist _ _).length_le fun he => ?_
  have hall := (beyond_sublist (beyond rows c) r.1).eq_of_length he
  exact absurd (mem_beyond.1 (hall.symm ▸ hr)).2 (Nat.lt_irrefl _)

/-- Reading on from a number ends with an empty page. -/
theorem shown_pagesFrom (a : Archive) (i : Interval) {size : Int} (h : 1 ≤ size) (fuel c : Nat)
    (hf : (beyond (a.scan i) c).length ≤ fuel) :
    (∃ shown, Shown (a.scan i) size.toNat c shown ∧
      (a.pagesFrom i size fuel c).flatMap (·.lines) = shown.map (·.2)) ∧
      (a.page i size (cursorAfter c (a.pagesFrom i size fuel c) : Nat)).lines = [] := by
  induction fuel generalizing c with
  | zero =>
    have hnil := List.eq_nil_of_length_eq_zero (Nat.le_zero.1 hf)
    exact ⟨⟨[], .done hnil, rfl⟩, (lines_page_eq_nil_iff a i h c).2 hnil⟩
  | succ fuel ih =>
    by_cases hnil : beyond (a.scan i) c = []
    · have hp := (lines_page_eq_nil_iff a i h c).2 hnil
      rw [pagesFrom, hp, List.isEmpty_nil, if_pos rfl]
      exact ⟨⟨[], .done hnil, rfl⟩, hp⟩
    · have hp : (a.page i size c).lines.isEmpty = false := by
        rw [List.isEmpty_eq_false_iff]
        exact mt (lines_page_eq_nil_iff a i h c).1 hnil
      have htake : (beyond (a.scan i) c).take size.toNat ≠ [] := by
        rw [Ne, List.take_eq_nil_iff]
        exact not_or.2 ⟨by omega, hnil⟩
      have hpage := page_eq a i (Int.le_trans (by decide) h) c
      rw [List.getLast?_eq_some_getLast htake, Option.map_some, Option.getD_some] at hpage
      have hmem := List.mem_of_mem_take (List.getLast_mem htake)
      obtain ⟨⟨shown, hshown, hlines⟩, hend⟩ := ih (a.page i size c).cursor (by
        rw [hpage]
        exact Nat.le_of_lt_succ (Nat.lt_of_lt_of_le (length_beyond_lt hmem) hf))
      rw [pagesFrom, hp, if_neg Bool.false_ne_true, List.flatMap_cons, cursorAfter_cons, hlines]
      refine ⟨⟨_, .page htake (by rw [hpage] at hshown; exact hshown), ?_⟩, hend⟩
      rw [List.map_append, hpage]

theorem shown_pages (ws : List Write) (i : Interval) {size : Int} (h : 1 ≤ size) :
    (∃ shown, Shown ((after ws).scan i) size.toNat 0 shown ∧
      ((after ws).pages i size).flatMap (·.lines) = shown.map (·.2)) ∧
      ((after ws).page i size (cursorAfter 0 ((after ws).pages i size) : Nat)).lines = [] := by
  refine shown_pagesFrom (after ws) i h _ 0
    (Nat.le_trans (beyond_sublist ((after ws).scan i) 0).length_le ?_)
  rw [scan, listing, List.length_mergeSort]
  exact List.length_filter_le _ _

theorem scan_sorted (a : Archive) (i : Interval) :
    (a.scan i).Pairwise fun r s => precedes r s = true := a.listing_sorted _

theorem scan_nodup (a : Archive) (i : Interval) : (a.scan i).Nodup := a.listing_nodup _

theorem beyond_scan_zero (ws : List Write) (i : Interval) :
    beyond ((after ws).scan i) 0 = (after ws).scan i :=
  beyond_eq_self fun r hr => (number_pos_after ws).2 r (mem_listing.1 hr).1

/-- Rows that show the listing of an archive are the listing. -/
theorem Shown.map_eq_iff {ws : List Write} {i : Interval} {n : Nat} {shown : List Row}
    (h : Shown ((after ws).scan i) n 0 shown) :
    shown.map (·.2) = ((after ws).scan i).map (·.2) ↔ shown = (after ws).scan i := by
  refine ⟨fun he => ?_, fun he => by rw [he]⟩
  have ho : (shown.map (·.2)).Pairwise fun l m => l.second ≤ m.second := by
    rw [he, List.pairwise_map]
    exact ((after ws).scan_sorted i).imp second_le_of_precedes
  rw [List.pairwise_map] at ho
  have hsub := h.sublist ((after ws).scan_sorted i) ho
  rw [beyond_scan_zero] at hsub
  exact hsub.eq_of_length (by simpa using congrArg List.length he)

theorem lines_pages_eq_iff (ws : List Write) (i : Interval) {size : Int} (h : 1 ≤ size) :
    ((after ws).pages i size).flatMap (·.lines) = ((after ws).scan i).map (·.2) ↔
      CutsInOrder size.toNat ((after ws).scan i) := by
  obtain ⟨⟨shown, hshown, hlines⟩, -⟩ := shown_pages ws i h
  have hiff := hshown.eq_iff (by omega) ((after ws).scan_nodup i)
  rw [beyond_scan_zero] at hiff
  rw [hlines, hshown.map_eq_iff, hiff]

/-- Pages of lines that were kept in the order of their seconds show the listing. -/
theorem lines_pages_eq_of_ascending {ws : List Write}
    (hws : (ws.filterMap Write.record?).Pairwise fun r s => r.time.second ≤ s.time.second)
    (i : Interval) {size : Int} (h : 1 ≤ size) :
    ((after ws).pages i size).flatMap (·.lines) = ((after ws).scan i).map (·.2) := by
  rw [lines_pages_eq_iff ws i h]
  have hkept : ((after ws).lines.rows.map (·.2)).Pairwise fun l m => l.second ≤ m.second := by
    refine List.Pairwise.sublist (lines_after_sublist ws) ?_
    rw [List.pairwise_map]
    exact hws
  rw [List.pairwise_map] at hkept
  have hids := List.pairwise_map.1 (after ws).lines.ascending
  have hsorted : (after ws).lines.rows.Pairwise fun r s => precedes r s = true := by
    refine List.Pairwise.imp ?_ (hkept.and hids)
    intro r s hrs
    rw [precedes_iff]
    omega
  refine cutsInOrder_of_ascending ?_ _
  rw [scan, listing, List.mergeSort_of_pairwise (hsorted.filter _)]
  exact hids.filter _

/-- **Paging.** Reading an interval page by page comes to an empty page, and what was shown by then
is the listing of the interval exactly if every page ends in order. -/
theorem paging_eq_scan_iff (ws : List Write) (i : Interval) (size : Int) (h : 1 ≤ size) :
    ((after ws).page i size (cursorAfter 0 ((after ws).pages i size) : Nat)).lines = [] ∧
      (((after ws).pages i size).flatMap (·.lines) = ((after ws).scan i).map (·.2) ↔
        CutsInOrder size.toNat ((after ws).scan i)) :=
  ⟨(shown_pages ws i h).2, lines_pages_eq_iff ws i h⟩

/-- A record of a line in a second. -/
def recordOf (second : Int) (line : String) : Record :=
  ⟨.ofSecond second, default, .unsupported, line, default⟩

/-- The first minute. -/
def firstMinute : Interval := ⟨.ofSecond 0, .ofSecond 59⟩

/-- Lines two of which are kept out of order, with room for both on the first page. -/
def swappedEarly : List Write :=
  [.insert (recordOf 10 "b"), .insert (recordOf 5 "a"), .insert (recordOf 20 "c"),
    .insert (recordOf 30 "d")]

theorem paging_swappedEarly :
    (1 : Int) ≤ 3 ∧
      ((after swappedEarly).pages firstMinute 3).flatMap (·.lines) =
        ((after swappedEarly).scan firstMinute).map (·.2) ∧
      CutsInOrder (3 : Int).toNat ((after swappedEarly).scan firstMinute) := by
  have h : ((after swappedEarly).pages firstMinute 3).flatMap (·.lines) =
      ((after swappedEarly).scan firstMinute).map (·.2) := by cbv
  exact ⟨by decide, h, (paging_eq_scan_iff swappedEarly firstMinute 3 (by decide)).2.1 h⟩

/-- Two lines, the later of which is kept first. -/
def lateFirst : List Write := [.insert (recordOf 10 "late"), .insert (recordOf 5 "early")]

/-- A page that ends with the earlier line hides the later one, which was kept first. -/
theorem paging_lateFirst_ne_scan :
    ((after lateFirst).pages firstMinute 1).flatMap (·.lines) ≠
      ((after lateFirst).scan firstMinute).map (·.2) := by
  have hpages : ((after lateFirst).pages firstMinute 1).flatMap (·.lines) =
      [lineOf (recordOf 5 "early")] := by cbv
  have hscan : ((after lateFirst).scan firstMinute).map (·.2) =
      [lineOf (recordOf 5 "early"), lineOf (recordOf 10 "late")] := by cbv
  rw [hpages, hscan]
  simp

end Archive

end MailTrace
