import Mathlib.Data.List.Perm.Basic
import MailTrace.Proofs.Text.Numbers
import MailTrace.Source.Rotation

/-!
# The files of a log

The files of a log are told from others by their names, and put in order by what their names say.

1. A name is read exactly as the grammar of the names has it (`Rotation.ofName?_eq_some_iff`).
2. Each name of a log gives one file (`LogFile.exists_named_ofBase`), and the files are in the order of
   their places in the log (`LogFile.pairwise_ofBase`).
3. A listing in another order gives the same places (`LogFile.rotations_ofBase_eq`), and the same files
   if each place is that of one name (`LogFile.ofBase_eq`).
4. Of several logs the first one that has any name is taken (`LogFile.discover_of_first`).
-/

namespace MailTrace

open MailTrace.Text

namespace Rotation

/-! ## Names -/

/-- What follows the base name of a file that is not compressed, and the place that it stands for. -/
inductive Marks : List Char → Rotation → Prop where
  | active : Marks [] active
  | dated {digits : List Char} (hlength : digits.length = 8)
      (hdigits : ∀ c ∈ digits, isDigit c = true) :
      Marks ('-' :: digits) (dated (Nat.ofDigitChars 10 digits 0))
  | numbered {digits : List Char} (hne : digits ≠ []) (hdigits : ∀ c ∈ digits, isDigit c = true)
      (hbound : Nat.ofDigitChars 10 digits 0 < Word.count 32) :
      Marks ('.' :: digits) (numbered (Nat.ofDigitChars 10 digits 0))

/-- The names of the files of the log with a base name: their places, and whether they are compressed.
The file being written never is. -/
inductive Names (base : String) : String → Rotation → Bool → Prop where
  | plain {mark : List Char} {r : Rotation} (h : Marks mark r) :
      Names base (base ++ String.ofList mark) r false
  | compressed {mark : List Char} {r : Rotation} (h : Marks mark r) (hr : r ≠ active) :
      Names base (base ++ String.ofList (mark ++ ".gz".toList)) r true

variable {base name : String} {mark suffix : List Char} {r : Rotation} {compressed : Bool}

theorem ofMark?_eq_some_iff : ofMark? mark = some r ↔ Marks mark r := by
  constructor
  · intro h
    unfold ofMark? at h
    split at h
    · cases h
      exact .active
    · split at h
      · rename_i hlength
        obtain ⟨n, hn, rfl⟩ := Option.map_eq_some_iff.1 h
        obtain ⟨-, hdigits, rfl⟩ := natural?_eq_some_iff.1 hn
        exact .dated hlength hdigits
      · cases h
    · obtain ⟨n, hn, rfl⟩ := Option.map_eq_some_iff.1 h
      obtain ⟨hn, hbound⟩ := Option.filter_eq_some_iff.1 hn
      obtain ⟨hne, hdigits, rfl⟩ := natural?_eq_some_iff.1 hn
      exact .numbered hne hdigits (of_decide_eq_true hbound)
    · cases h
  · intro h
    cases h with
    | active => rfl
    | @dated digits hlength hdigits =>
      have hne : digits ≠ [] := List.ne_nil_of_length_eq_add_one hlength
      have hn := natural?_eq_some_iff.2 ⟨hne, hdigits, rfl⟩
      simp [ofMark?, dayWidth, hlength, hn]
    | @numbered digits hne hdigits hbound =>
      have hn := natural?_eq_some_iff.2 ⟨hne, hdigits, rfl⟩
      simp only [ofMark?, hn, Option.filter_some, decide_eq_true hbound, if_true, Option.map_some]

/-- A mark does not end like the name of a compressed file. -/
theorem Marks.notMem (h : Marks mark r) : 'z' ∉ mark := by
  have hdigit {digits : List Char} (hdigits : ∀ c ∈ digits, isDigit c = true) : 'z' ∉ digits :=
    fun hmem => absurd (hdigits 'z' hmem) (by decide)
  cases h with
  | active => exact List.not_mem_nil
  | dated _ hdigits => exact List.not_mem_cons_of_ne_of_not_mem (by decide) (hdigit hdigits)
  | numbered _ hdigits => exact List.not_mem_cons_of_ne_of_not_mem (by decide) (hdigit hdigits)

theorem ofSuffix?_of_marks (h : Marks mark r) : ofSuffix? mark = some (r, false) := by
  have hplain : before? compressedMark mark = none := by
    rw [Option.eq_none_iff_forall_ne_some]
    intro front hfront
    refine h.notMem ?_
    rw [before?_eq_some_iff.1 hfront]
    exact List.mem_append_right _ (by decide)
  rw [ofSuffix?, hplain]
  simp [ofMark?_eq_some_iff.2 h]

theorem ofSuffix?_append_compressedMark (mark : List Char) : ofSuffix? (mark ++ compressedMark) =
    (ofMark? mark).bind fun r => if r = active then none else some (r, true) := by
  rw [ofSuffix?, before?_eq_some_iff.2 rfl]

theorem ofName?_append (base : String) (suffix : List Char) :
    ofName? base (base ++ String.ofList suffix) = ofSuffix? suffix := by
  rw [ofName?, String.toList_append, String.toList_ofList, after?_append]
  rfl

/-- **A name is read as the grammar of the names has it.** -/
theorem ofName?_eq_some_iff : ofName? base name = some (r, compressed) ↔
    Names base name r compressed := by
  constructor
  · intro h
    obtain ⟨suffix, hafter, hsuffix⟩ := Option.bind_eq_some_iff.1 h
    obtain rfl : name = base ++ String.ofList suffix := by
      rw [← String.toList_inj, String.toList_append, String.toList_ofList]
      exact after?_eq_some_iff.1 hafter
    unfold ofSuffix? at hsuffix
    split at hsuffix
    · rename_i mark hmark
      obtain rfl := before?_eq_some_iff.1 hmark
      obtain ⟨r', hr, hplace⟩ := Option.bind_eq_some_iff.1 hsuffix
      split at hplace
      · cases hplace
      · rename_i hactive
        cases hplace
        exact .compressed (ofMark?_eq_some_iff.1 hr) hactive
    · obtain ⟨r', hr, hplace⟩ := Option.map_eq_some_iff.1 hsuffix
      cases hplace
      exact .plain (ofMark?_eq_some_iff.1 hr)
  · intro h
    cases h with
    | plain h => rw [ofName?_append, ofSuffix?_of_marks h]
    | compressed h hr =>
      rw [ofName?_append]
      refine (ofSuffix?_append_compressedMark _).trans ?_
      rw [ofMark?_eq_some_iff.2 h, Option.bind_some, if_neg hr]

/-- A name is one of a file of the log with a base name. -/
def Belongs (base name : String) : Prop := ∃ r compressed, Names base name r compressed

theorem isSome_ofName?_iff : (ofName? base name).isSome = true ↔ Belongs base name := by
  simp only [Option.isSome_iff_exists, Prod.exists, ofName?_eq_some_iff, Belongs]

instance (base : String) : DecidablePred (Belongs base) := fun _ =>
  decidable_of_iff _ isSome_ofName?_iff

/-- The file being written is never compressed. -/
theorem not_belongs_gz (base : String) : ¬ Belongs base (base ++ ".gz") := by
  rw [← isSome_ofName?_iff]
  have hnone : ofName? base (base ++ String.ofList ".gz".toList) = none := ofName?_append base _
  rw [String.ofList_toList] at hnone
  simp [hnone]

/-! ## The order of the files -/

/-- A file is at least as old as another: dated files come first, by their days, then the numbered ones,
from the highest number down, and last the file being written. -/
def NotNewer : Rotation → Rotation → Prop
  | dated day, dated day' => day ≤ day'
  | dated _, _ => True
  | numbered _, dated _ => False
  | numbered index, numbered index' => index' ≤ index
  | numbered _, active => True
  | active, active => True
  | active, _ => False

theorem le_iff {a b : Rotation} : a.le b = true ↔ a.NotNewer b := by
  cases a <;> cases b <;> simp [le, rank, NotNewer]

theorem NotNewer.trans {a b c : Rotation} (hab : a.NotNewer b) (hbc : b.NotNewer c) : a.NotNewer c := by
  cases a <;> cases b <;> cases c <;> simp_all [NotNewer] <;> omega

theorem NotNewer.total (a b : Rotation) : a.NotNewer b ∨ b.NotNewer a := by
  cases a <;> cases b <;> simp [NotNewer] <;> omega

theorem NotNewer.antisymm {a b : Rotation} (hab : a.NotNewer b) (hba : b.NotNewer a) : a = b := by
  cases a <;> cases b <;> simp_all [NotNewer] <;> omega

end Rotation

namespace LogFile

variable {dir base : String} {names names' bases : List String}

/-! ## The files of one log -/

/-- A file is the one with a name in the log with a base name. -/
def Named (dir base : String) (f : LogFile) (name : String) : Prop :=
  f.path = Path.join dir name ∧ Rotation.Names base name f.rotation f.compressed

theorem Named.eq {f g : LogFile} {name : String} (hf : Named dir base f name)
    (hg : Named dir base g name) : f = g := by
  have hplace := (Rotation.ofName?_eq_some_iff.2 hf.2).symm.trans (Rotation.ofName?_eq_some_iff.2 hg.2)
  obtain ⟨hrotation, hcompressed⟩ := Prod.mk.inj (Option.some.inj hplace)
  show (⟨f.path, f.rotation, f.compressed⟩ : LogFile) = ⟨g.path, g.rotation, g.compressed⟩
  rw [hf.1, hg.1, hrotation, hcompressed]

theorem perm_ofBase (dir : String) (names : List String) (base : String) :
    (ofBase dir names base).Perm (names.filterMap fun name =>
      (Rotation.ofName? base name).map fun (r, compressed) => ⟨Path.join dir name, r, compressed⟩) :=
  List.mergeSort_perm ..

/-- The files are in order. -/
theorem pairwise_ofBase (dir : String) (names : List String) (base : String) :
    (ofBase dir names base).Pairwise fun f g => f.rotation.NotNewer g.rotation := by
  have hsorted : (ofBase dir names base).Pairwise fun f g => f.rotation.le g.rotation = true := by
    refine List.pairwise_mergeSort (fun f g h hfg hgh => ?_) (fun f g => ?_) _
    · exact Rotation.le_iff.2 ((Rotation.le_iff.1 hfg).trans (Rotation.le_iff.1 hgh))
    · rw [Bool.or_eq_true, Rotation.le_iff, Rotation.le_iff]
      exact Rotation.NotNewer.total ..
  exact hsorted.imp Rotation.le_iff.1

/-- Each name of the log gives one file. -/
theorem exists_named_ofBase (dir : String) (names : List String) (base : String) :
    ∃ found, found.Perm (names.filter (Rotation.Belongs base)) ∧
      List.Forall₂ (Named dir base) (ofBase dir names base) found := by
  have hnamed : List.Forall₂ (Named dir base)
      (names.filterMap fun name => (Rotation.ofName? base name).map fun (r, compressed) =>
        ⟨Path.join dir name, r, compressed⟩)
      (names.filter (Rotation.Belongs base)) := by
    induction names with
    | nil => exact .nil
    | cons name names ih =>
      cases hname : Rotation.ofName? base name with
      | none =>
        have hother : ¬ Rotation.Belongs base name := by simp [← Rotation.isSome_ofName?_iff, hname]
        rw [List.filterMap_cons, hname, List.filter_cons_of_neg (by simpa using hother)]
        exact ih
      | some place =>
        obtain ⟨r, compressed⟩ := place
        have hnames := Rotation.ofName?_eq_some_iff.1 hname
        have hbelongs : Rotation.Belongs base name := ⟨r, compressed, hnames⟩
        rw [List.filterMap_cons, hname, List.filter_cons_of_pos (by simpa using hbelongs)]
        exact .cons ⟨rfl, hnames⟩ ih
  obtain ⟨found, hfound, hperm⟩ := List.perm_comp_forall₂ (perm_ofBase dir names base) hnamed
  exact ⟨found, hperm, hfound⟩

theorem isEmpty_ofBase_iff : (ofBase dir names base).isEmpty = true ↔
    ∀ name ∈ names, ¬ Rotation.Belongs base name := by
  obtain ⟨found, hperm, hnamed⟩ := exists_named_ofBase dir names base
  rw [List.isEmpty_iff, ← List.length_eq_zero_iff, hnamed.length_eq, hperm.length_eq,
    List.length_eq_zero_iff, List.filter_eq_nil_iff]
  simp

theorem exists_name_of_mem_ofBase {f : LogFile} (h : f ∈ ofBase dir names base) :
    ∃ name ∈ names, Named dir base f name := by
  obtain ⟨name, hname, hf⟩ := List.mem_filterMap.1 ((perm_ofBase dir names base).mem_iff.1 h)
  obtain ⟨⟨r, compressed⟩, hplace, rfl⟩ := Option.map_eq_some_iff.1 hf
  exact ⟨name, hname, rfl, Rotation.ofName?_eq_some_iff.1 hplace⟩

/-! ## Listings in another order -/

theorem ofBase_perm (h : names.Perm names') (dir base : String) :
    (ofBase dir names base).Perm (ofBase dir names' base) :=
  ((perm_ofBase dir names base).trans (h.filterMap _)).trans (perm_ofBase dir names' base).symm

theorem rotations_ofBase_eq (h : names.Perm names') (dir base : String) :
    (ofBase dir names base).map (·.rotation) = (ofBase dir names' base).map (·.rotation) :=
  List.Perm.eq_of_pairwise (fun _ _ _ _ => Rotation.NotNewer.antisymm)
    (List.pairwise_map.2 (pairwise_ofBase dir names base))
    (List.pairwise_map.2 (pairwise_ofBase dir names' base)) ((ofBase_perm h dir base).map _)

/-- Different names of the log stand for different places. -/
def Distinct (names : List String) (base : String) : Prop :=
  ∀ name ∈ names, ∀ name' ∈ names, ∀ r compressed compressed', Rotation.Names base name r compressed →
    Rotation.Names base name' r compressed' → name = name'

theorem distinct_iff : Distinct names base ↔ ∀ name ∈ names, ∀ name' ∈ names,
    ∀ p ∈ Rotation.ofName? base name, ∀ p' ∈ Rotation.ofName? base name', p.1 = p'.1 →
      name = name' := by
  simp only [Option.mem_def, Prod.forall, Rotation.ofName?_eq_some_iff, Distinct]
  constructor
  · rintro h name hname name' hname' r c hplace r' c' hplace' rfl
    exact h name hname name' hname' r c c' hplace hplace'
  · exact fun h name hname name' hname' r c c' hplace hplace' =>
      h name hname name' hname' r c hplace r c' hplace' rfl

instance (names : List String) (base : String) : Decidable (Distinct names base) :=
  decidable_of_iff _ distinct_iff.symm

theorem ofBase_eq (h : names.Perm names') (hdistinct : Distinct names base) (dir : String) :
    ofBase dir names base = ofBase dir names' base := by
  refine List.Perm.eq_of_pairwise (fun f g hf hg hfg hgf => ?_) (pairwise_ofBase dir names base)
    (pairwise_ofBase dir names' base) (ofBase_perm h dir base)
  obtain ⟨name, hname, hf⟩ := exists_name_of_mem_ofBase hf
  obtain ⟨name', hname', hg⟩ := exists_name_of_mem_ofBase hg
  have hrotation : f.rotation = g.rotation := hfg.antisymm hgf
  obtain rfl : name = name' :=
    hdistinct name hname name' (h.mem_iff.2 hname') _ _ _ hf.2 (hrotation ▸ hg.2)
  exact hf.eq hg

/-! ## The first log -/

/-- The first of the base names that one of the names belongs to. -/
def First (names bases : List String) (base : String) : Prop :=
  ∃ before after, bases = before ++ base :: after ∧
    (∀ b ∈ before, ∀ name ∈ names, ¬ Rotation.Belongs b name) ∧
    ∃ name ∈ names, Rotation.Belongs base name

theorem First.mem (h : First names bases base) : base ∈ bases := by
  obtain ⟨before, after, rfl, -, -⟩ := h
  simp

theorem First.perm (h : First names bases base) (hperm : names.Perm names') :
    First names' bases base := by
  obtain ⟨before, after, hbases, hbefore, name, hname, hbelongs⟩ := h
  exact ⟨before, after, hbases, fun b hb name hname => hbefore b hb name (hperm.mem_iff.2 hname),
    name, hperm.mem_iff.1 hname, hbelongs⟩

theorem exists_first (h : ∃ base ∈ bases, ∃ name ∈ names, Rotation.Belongs base name) :
    ∃ base, First names bases base := by
  have hfound : (bases.find? fun base => ∃ name ∈ names, Rotation.Belongs base name).isSome = true :=
    List.find?_isSome.2 (by simpa using h)
  obtain ⟨base, hbase⟩ := Option.isSome_iff_exists.1 hfound
  obtain ⟨hsome, before, after, rfl, hbefore⟩ := List.find?_eq_some_iff_append.1 hbase
  exact ⟨base, before, after, rfl, by simpa using hbefore, of_decide_eq_true hsome⟩

theorem find?_ofBase_eq_none (h : ∀ base ∈ bases, ∀ name ∈ names, ¬ Rotation.Belongs base name)
    (dir : String) : (bases.map (ofBase dir names)).find? (!·.isEmpty) = none := by
  rw [List.find?_eq_none]
  intro files hfiles
  obtain ⟨base, hbase, rfl⟩ := List.mem_map.1 hfiles
  simpa using isEmpty_ofBase_iff.2 (h base hbase)

theorem discover_of_none (h : ∀ base ∈ bases, ∀ name ∈ names, ¬ Rotation.Belongs base name)
    (dir : String) : discover dir names bases = [] := by
  rw [discover, find?_ofBase_eq_none h]
  rfl

theorem discover_of_first (h : First names bases base) (dir : String) :
    discover dir names bases = ofBase dir names base := by
  obtain ⟨before, after, rfl, hbefore, hsome⟩ := h
  have hfiles : (ofBase dir names base).isEmpty = false := by
    rw [← Bool.not_eq_true, isEmpty_ofBase_iff]
    simpa using hsome
  rw [discover, List.map_append, List.find?_append, find?_ofBase_eq_none hbefore, Option.none_or,
    List.map_cons, List.find?_cons_of_pos (by rw [hfiles]; rfl)]
  rfl

/-- **Which files are found, and in which order.** If no name belongs to any of the base names there are
none. Otherwise they are the files of the first base name that some name belongs to: one for each of
its names, at its place, and none besides, the dated ones first, by their days, then the numbered ones,
from the highest number down, and last the file being written. A name that only tells of compression
belongs to no log. In whatever order the names are listed, the places are the same, and the files are
if different names of the log stand for different places. -/
theorem discover_exact (dir : String) (names bases : List String) :
    ((∀ base ∈ bases, ∀ name ∈ names, ¬ Rotation.Belongs base name) →
      discover dir names bases = []) ∧
    (∀ base, First names bases base →
      (∃ found, found.Perm (names.filter (Rotation.Belongs base)) ∧
        List.Forall₂ (Named dir base) (discover dir names bases) found) ∧
      (discover dir names bases).Pairwise fun f g => f.rotation.NotNewer g.rotation) ∧
    (∀ base : String, ¬ Rotation.Belongs base (base ++ ".gz")) ∧
    ∀ names', names.Perm names' →
      (discover dir names bases).map (·.rotation) = (discover dir names' bases).map (·.rotation) ∧
      ((∀ base, First names bases base → Distinct names base) →
        discover dir names bases = discover dir names' bases) := by
  refine ⟨fun h => discover_of_none h dir, fun base hfirst => ?_, Rotation.not_belongs_gz,
    fun names' hperm => ?_⟩
  · rw [discover_of_first hfirst]
    exact ⟨exists_named_ofBase dir names base, pairwise_ofBase dir names base⟩
  · by_cases hsome : ∃ base ∈ bases, ∃ name ∈ names, Rotation.Belongs base name
    · obtain ⟨base, hfirst⟩ := exists_first hsome
      rw [discover_of_first hfirst, discover_of_first (hfirst.perm hperm)]
      exact ⟨rotations_ofBase_eq hperm dir base, fun h => ofBase_eq hperm (h base hfirst) dir⟩
    · have hnone : ∀ base ∈ bases, ∀ name ∈ names, ¬ Rotation.Belongs base name :=
        fun base hbase name hname hbelongs => hsome ⟨base, hbase, name, hname, hbelongs⟩
      rw [discover_of_none hnone, discover_of_none fun base hbase name hname =>
        hnone base hbase name (hperm.mem_iff.2 hname)]
      exact ⟨rfl, fun _ => rfl⟩

/-- A listing with the files of a log, one of another log, and two that are of none. -/
def listing : List String :=
  ["mail.log.2.gz", "maillog", "mail.log", "mail.log-20200102", "mail.err", "mail.log.gz",
    "mail.log.10", "mail.log-20200101.gz"]

theorem discover_exact_listing :
    First listing defaultBases "mail.log" ∧
      (∃ found, found.Perm ["mail.log.2.gz", "mail.log", "mail.log-20200102", "mail.log.10",
          "mail.log-20200101.gz"] ∧
        List.Forall₂ (Named "/var/log" "mail.log") (discover "/var/log" listing defaultBases) found) ∧
      (discover "/var/log" listing defaultBases).Pairwise (fun f g => f.rotation.NotNewer g.rotation) ∧
      (∀ base, First listing defaultBases base → Distinct listing base) ∧
      discover "/var/log" listing defaultBases = discover "/var/log" listing.reverse defaultBases := by
  have hfirst : First listing defaultBases "mail.log" :=
    ⟨[], _, rfl, fun _ hmem => absurd hmem List.not_mem_nil, "mail.log", by decide, by decide⟩
  have hdistinct : ∀ base ∈ defaultBases, Distinct listing base := by decide
  obtain ⟨-, hfound, -, hperm⟩ := discover_exact "/var/log" listing defaultBases
  obtain ⟨hnames, horder⟩ := hfound "mail.log" hfirst
  refine ⟨hfirst, hnames, horder, fun base h => hdistinct base h.mem, ?_⟩
  exact (hperm listing.reverse (List.reverse_perm listing).symm).2 fun base h => hdistinct base h.mem

end LogFile

end MailTrace
