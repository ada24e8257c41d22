import Mathlib.Data.List.DropRight
import MailTrace.Text.Blank

/-!
# Cuts at the first separator

What a cut finds, said of the text that was written: the pieces between separators, and the first
occurrence of a text. A text is unbordered if no end of it is also a beginning, so that two of its
occurrences never overlap; before its first occurrence it does not occur (`cutText_eq_some_iff`). Any
text is found where it was written if none of its occurrences begins before (`cutText_append_iff`).
-/

namespace MailTrace.Text

section Pieces

variable {α : Type} {p : α → Bool}

/-! ## Pieces -/

theorem pieces_of_forall {cs : List α} (h : ∀ c ∈ cs, p c = false) : pieces p cs = [cs] := by
  induction cs with
  | nil => rfl
  | cons c cs ih =>
    obtain ⟨hc, hcs⟩ := List.forall_mem_cons.1 h
    rw [pieces, hc, ih hcs]
    rfl

theorem pieces_append_cons {a : List α} {c : α} (ha : ∀ x ∈ a, p x = false)
    (hc : p c = true) (rest : List α) : pieces p (a ++ c :: rest) = a :: pieces p rest := by
  induction a with
  | nil => rw [List.nil_append, pieces, if_pos hc]
  | cons x a ih =>
    obtain ⟨hx, ha⟩ := List.forall_mem_cons.1 ha
    rw [List.cons_append, pieces, hx, ih ha]
    rfl

theorem forall_or_exists_append (p : α → Bool) (cs : List α) :
    (∀ c ∈ cs, p c = false) ∨
      ∃ a c rest, cs = a ++ c :: rest ∧ p c = true ∧ ∀ x ∈ a, p x = false := by
  induction cs with
  | nil => exact .inl (by simp)
  | cons c cs ih =>
    cases hc : p c with
    | true => exact .inr ⟨[], c, cs, rfl, hc, by simp⟩
    | false =>
      rcases ih with ih | ⟨a, d, rest, rfl, hd, ha⟩
      · exact .inl (List.forall_mem_cons.2 ⟨hc, ih⟩)
      · exact .inr ⟨c :: a, d, rest, rfl, hd, List.forall_mem_cons.2 ⟨hc, ha⟩⟩

theorem eq_of_pieces_eq_singleton {cs a : List α} (h : pieces p cs = [a]) : cs = a := by
  rcases forall_or_exists_append p cs with hcs | ⟨b, c, rest, rfl, hc, hb⟩
  · rw [pieces_of_forall hcs] at h
    exact (List.cons.inj h).1
  · rw [pieces_append_cons hb hc] at h
    exact absurd (List.cons.inj h).2 (pieces_ne_nil p rest)

theorem eq_append_of_pieces_eq_cons_cons {cs a b : List α} {others : List (List α)}
    (h : pieces p cs = a :: b :: others) :
    ∃ c rest, cs = a ++ c :: rest ∧ p c = true ∧ pieces p rest = b :: others := by
  rcases forall_or_exists_append p cs with hcs | ⟨a', c, rest, rfl, hc, ha⟩
  · rw [pieces_of_forall hcs] at h
    cases h
  · rw [pieces_append_cons ha hc] at h
    obtain ⟨rfl, hrest⟩ := List.cons.inj h
    exact ⟨c, rest, rfl, hc, hrest⟩

theorem mem_pieces {cs : List α} {c : α} (hc : c ∈ cs) :
    p c = true ∨ ∃ piece ∈ pieces p cs, c ∈ piece := by
  induction cs with
  | nil => cases hc
  | cons d cs ih =>
    cases hd : p d with
    | true =>
      rcases List.mem_cons.1 hc with rfl | hc
      · exact .inl hd
      · rw [pieces, hd]
        rcases ih hc with hsep | ⟨piece, hpiece, hmem⟩
        · exact .inl hsep
        · exact .inr ⟨piece, List.mem_cons_of_mem _ hpiece, hmem⟩
    | false =>
      obtain ⟨first, others, hpieces⟩ := List.exists_cons_of_ne_nil (pieces_ne_nil p cs)
      rw [hpieces] at ih
      rw [pieces, hd, hpieces]
      rcases List.mem_cons.1 hc with rfl | hc
      · exact .inr ⟨c :: first, by simp, by simp⟩
      · rcases ih hc with hsep | ⟨piece, hpiece, hmem⟩
        · exact .inl hsep
        · rcases List.mem_cons.1 hpiece with rfl | hpiece
          · exact .inr ⟨d :: piece, by simp, List.mem_cons_of_mem d hmem⟩
          · exact .inr ⟨piece, List.mem_cons_of_mem _ hpiece, hmem⟩

theorem beq_eq_false_of_notMem [DecidableEq α] {sep : α} {cs : List α} (h : sep ∉ cs) :
    ∀ c ∈ cs, (c == sep) = false :=
  fun _ hc => beq_eq_false_iff_ne.2 fun e => h (e ▸ hc)

end Pieces

section Texts

variable {α : Type} [DecidableEq α] {sep cs a b : List α}

theorem after?_eq_none_iff {p : List α} : after? p cs = none ↔ ¬ p <+: cs := by
  rw [Option.eq_none_iff_forall_ne_some]
  constructor
  · rintro h ⟨rest, rfl⟩
    exact h rest (after?_append p rest)
  · intro h rest hrest
    exact h ⟨rest, (after?_eq_some_iff.1 hrest).symm⟩

/-- A cut is at the first place where the separator stands: it stands nowhere from inside of what
precedes it. -/
theorem cutText_eq_some_iff_forall_suffix :
    cutText sep cs = some (a, b) ↔
      cs = a ++ sep ++ b ∧ ∀ w, w <:+ a → w ≠ [] → ¬ sep <+: w ++ sep ++ b := by
  induction cs generalizing a with
  | nil =>
    simp only [cutText, Option.map_eq_some_iff, Prod.mk.injEq, after?_eq_some_iff]
    constructor
    · rintro ⟨rest, hrest, rfl, rfl⟩
      exact ⟨hrest, fun w hw hne => absurd (List.suffix_nil.1 hw) hne⟩
    · rintro ⟨hnil, -⟩
      obtain ⟨hfront, rfl⟩ := List.append_eq_nil_iff.1 hnil.symm
      obtain ⟨rfl, rfl⟩ := List.append_eq_nil_iff.1 hfront
      exact ⟨[], rfl, rfl, rfl⟩
  | cons c cs ih =>
    rw [cutText]
    cases hafter : after? sep (c :: cs) with
    | some rest =>
      have hcs := after?_eq_some_iff.1 hafter
      simp only [Option.some.injEq, Prod.mk.injEq]
      constructor
      · rintro ⟨rfl, rfl⟩
        exact ⟨hcs, fun w hw hne => absurd (List.suffix_nil.1 hw) hne⟩
      · rintro ⟨heq, hfirst⟩
        by_cases ha : a = []
        · subst ha
          exact ⟨rfl, List.append_cancel_left (hcs.symm.trans heq)⟩
        · exact absurd ⟨rest, hcs.symm.trans heq⟩ (hfirst a (List.suffix_refl a) ha)
    | none =>
      have hnot := after?_eq_none_iff.1 hafter
      simp only [Option.map_eq_some_iff, Prod.exists, Prod.mk.injEq]
      constructor
      · rintro ⟨x, y, hxy, rfl, rfl⟩
        obtain ⟨rfl, hfirst⟩ := ih.1 hxy
        refine ⟨rfl, fun w hw hne => ?_⟩
        rcases List.suffix_cons_iff.1 hw with rfl | hw
        · exact hnot
        · exact hfirst w hw hne
      · rintro ⟨heq, hfirst⟩
        cases a with
        | nil => exact absurd ⟨b, heq.symm⟩ hnot
        | cons d a =>
          obtain ⟨rfl, rfl⟩ := List.cons.inj heq
          exact ⟨a, b, ih.2 ⟨rfl, fun w hw => hfirst w (hw.trans (List.suffix_cons c a))⟩, rfl, rfl⟩

/-- No end of a text is also a beginning, except the whole text. -/
def Unbordered (sep : List α) : Prop := ∀ n < sep.length, 0 < n → ¬ sep.drop n <+: sep

instance (sep : List α) : Decidable (Unbordered sep) :=
  inferInstanceAs (Decidable (∀ n < sep.length, 0 < n → ¬ sep.drop n <+: sep))

/-- An unbordered text is found where it stands, if it does not occur before. -/
theorem cutText_eq_some_iff (hne : sep ≠ []) (hsep : Unbordered sep) :
    cutText sep cs = some (a, b) ↔ cs = a ++ sep ++ b ∧ ¬ sep <:+: a := by
  rw [cutText_eq_some_iff_forall_suffix]
  refine and_congr_right fun _ => ⟨?_, ?_⟩
  · rintro hfirst ⟨front, tail, rfl⟩
    refine hfirst (sep ++ tail) ⟨front, by rw [List.append_assoc]⟩ (by simp [hne]) ?_
    rw [List.append_assoc, List.append_assoc]
    exact List.prefix_append sep _
  · intro hnot w hw hwne hprefix
    rw [List.append_assoc] at hprefix
    by_cases hlength : sep.length ≤ w.length
    · exact hnot ((List.prefix_of_prefix_length_le hprefix (List.prefix_append w _) hlength).isInfix.trans
        hw.isInfix)
    · -- the occurrence ends inside of the separator, whose end is then one of its beginnings
      have hshort : w.length < sep.length := Nat.lt_of_not_le hlength
      obtain ⟨v, rfl⟩ :=
        List.prefix_of_prefix_length_le (List.prefix_append w _) hprefix (Nat.le_of_lt hshort)
      have hv : v <+: (w ++ v) ++ b := (List.prefix_append_right_inj w).1 hprefix
      have hborder : v <+: w ++ v :=
        List.prefix_of_prefix_length_le hv (List.prefix_append _ b) (by simp)
      refine hsep w.length hshort (List.length_pos_iff.2 hwne) ?_
      rwa [List.drop_left]

theorem cutText_append (hne : sep ≠ []) (hsep : Unbordered sep) (ha : ¬ sep <:+: a) :
    cutText sep (a ++ (sep ++ b)) = some (a, b) :=
  (cutText_eq_some_iff hne hsep).2 ⟨(List.append_assoc ..).symm, ha⟩

theorem cutText_eq_none_iff : cutText sep cs = none ↔ ¬ sep <:+: cs := by
  induction cs with
  | nil => rw [cutText, Option.map_eq_none_iff, after?_eq_none_iff, List.prefix_nil, List.infix_nil]
  | cons c cs ih =>
    rw [cutText, List.infix_cons_iff, not_or]
    cases hafter : after? sep (c :: cs) with
    | some rest =>
      have hbegins : sep <+: c :: cs := ⟨rest, (after?_eq_some_iff.1 hafter).symm⟩
      simp [hbegins]
    | none =>
      have hnot := after?_eq_none_iff.1 hafter
      simp [hnot, ih]

/-- A text is found where it was written exactly if no occurrence of it begins before: with all but its
last element it does not occur. -/
theorem cutText_append_iff (hne : sep ≠ []) :
    cutText sep (a ++ (sep ++ b)) = some (a, b) ↔ ¬ sep <:+: a ++ sep.dropLast := by
  have hbegins (w : List α) : w ++ sep.dropLast <+: w ++ sep ++ b :=
    ((List.prefix_append_right_inj w).2 (List.dropLast_prefix sep)).trans (List.prefix_append _ b)
  rw [← List.append_assoc, cutText_eq_some_iff_forall_suffix]
  simp only [true_and]
  constructor
  · -- an occurrence that ends before the last element begins inside of what precedes
    rintro hfirst ⟨front, tail, heq⟩
    have hlength : front.length < a.length := by
      have := congrArg List.length heq
      have := List.length_pos_iff.2 hne
      simp only [List.length_append, List.length_dropLast] at *
      omega
    obtain ⟨w, rfl⟩ : front <+: a :=
      List.prefix_of_prefix_length_le ⟨sep ++ tail, by rw [← List.append_assoc, heq]⟩
        (List.prefix_append a _) (Nat.le_of_lt hlength)
    have hw : w ≠ [] := by
      rintro rfl
      simp at hlength
    have htail : sep ++ tail = w ++ sep.dropLast := by
      rw [List.append_assoc, List.append_assoc] at heq
      exact List.append_cancel_left heq
    exact hfirst w (List.suffix_append front w) hw
      ((List.prefix_append sep tail).trans (htail ▸ hbegins w))
  · rintro hnot w ⟨front, rfl⟩ hw hoccurs
    have hlength : sep.length ≤ (w ++ sep.dropLast).length := by
      have := List.length_pos_iff.2 hw
      have := List.length_pos_iff.2 hne
      simp only [List.length_append, List.length_dropLast]
      omega
    have hinside := (List.prefix_of_prefix_length_le hoccurs (hbegins w) hlength).isInfix
    refine hnot (hinside.trans ?_)
    rw [List.append_assoc]
    exact (List.suffix_append front _).isInfix

/-- The search steps over what does not hold the first character of the separator. -/
theorem cutText_append_of_notMem {s : α} (ha : s ∉ a) (cs : List α) :
    cutText (s :: sep) (a ++ cs) = (cutText (s :: sep) cs).map fun (x, y) => (a ++ x, y) := by
  induction a with
  | nil => simp
  | cons c a ih =>
    obtain ⟨hc, ha⟩ := not_or.1 (mt List.mem_cons.2 ha)
    have hafter : after? (s :: sep) (c :: (a ++ cs)) = none := by simp [after?, hc]
    rw [List.cons_append, cutText, hafter, ih ha, Option.map_map]
    rfl

omit [DecidableEq α] in
theorem not_infix_of_notMem {s : α} (h : s ∉ a) (hs : s ∈ sep) : ¬ sep <:+: a :=
  fun hsep => h (hsep.subset hs)

omit [DecidableEq α] in
/-- No occurrence goes across an element that it does not have. -/
theorem not_infix_append_cons {x : α} (ha : ¬ sep <:+: a) (hx : x ∉ sep) (hb : ¬ sep <:+: b) :
    ¬ sep <:+: a ++ x :: b := by
  have hbegins {c : List α} (hc : ¬ sep <:+: c) : ¬ sep <+: c ++ x :: b := by
    intro hsep
    by_cases hlength : sep.length ≤ c.length
    · exact hc (List.prefix_of_prefix_length_le hsep (List.prefix_append c _) hlength).isInfix
    · obtain ⟨rest, rfl⟩ := List.prefix_of_prefix_length_le (List.prefix_append c _) hsep
        (Nat.le_of_not_le hlength)
      cases rest with
      | nil => exact hlength (by simp)
      | cons y rest =>
        obtain rfl : y = x := (List.cons_prefix_cons.1 ((List.prefix_append_right_inj c).1 hsep)).1
        exact hx (by simp)
  induction a with
  | nil =>
    rw [List.nil_append, List.infix_cons_iff, not_or]
    exact ⟨hbegins ha, hb⟩
  | cons c a ih =>
    obtain ⟨-, hrest⟩ := not_or.1 (mt List.infix_cons_iff.2 ha)
    rw [List.cons_append, List.infix_cons_iff, not_or]
    exact ⟨hbegins ha, ih hrest⟩

end Texts

/-! ## Blanks -/

/-- No blank at either end. -/
def Trimmed (cs : List Char) : Prop :=
  (∀ c ∈ cs.head?, isBlank c = false) ∧ ∀ c ∈ cs.getLast?, isBlank c = false

instance (cs : List Char) : Decidable (Trimmed cs) :=
  decidable_of_iff (cs.head?.all (!isBlank ·) ∧ cs.getLast?.all (!isBlank ·))
    (by simp [Trimmed, Option.all_eq_true])

theorem trimmed_trim (cs : List Char) : Trimmed (trim cs) := by
  constructor
  · intro c hc
    obtain ⟨after, hafter⟩ : trim cs <+: trimStart cs := List.rdropWhile_prefix ..
    have hfirst : (trimStart cs).head? = some c := by
      rw [← hafter, List.head?_append, hc]
      rfl
    have hskipped := List.head?_dropWhile_not isBlank cs
    rw [show (cs.dropWhile isBlank).head? = some c from hfirst] at hskipped
    exact hskipped
  · intro c hc
    obtain ⟨hne, rfl⟩ := List.mem_getLast?_eq_getLast hc
    exact Bool.eq_false_iff.2 (List.rdropWhile_last_not isBlank (trimStart cs) hne)

theorem trim_of_trimmed {cs : List Char} (h : Trimmed cs) : trim cs = cs := by
  cases cs with
  | nil => rfl
  | cons c cs =>
    have hend : trimEnd (c :: cs) = c :: cs :=
      List.rdropWhile_eq_self_iff.2 fun hne =>
        Bool.eq_false_iff.1 (h.2 _ (List.getLast?_eq_some_getLast hne))
    unfold trim
    rw [trimStart_eq_self_of_head (h.1 c rfl), hend]

theorem trim_of_forall {cs : List Char} (h : ∀ c ∈ cs, isBlank c = false) : trim cs = cs :=
  trim_of_trimmed ⟨fun c hc => h c (List.mem_of_mem_head? hc),
    fun c hc => h c (List.mem_of_mem_getLast? hc)⟩

/-- A text that neither begins nor ends with a blank. -/
theorem trim_cons_concat {c d : Char} (hc : isBlank c = false) (hd : isBlank d = false)
    (cs : List Char) : trim (c :: (cs ++ [d])) = c :: (cs ++ [d]) := by
  refine trim_of_trimmed ⟨fun x hx => ?_, fun x hx => ?_⟩
  · rw [← Option.some.inj hx]
    exact hc
  · rw [← List.cons_append, List.getLast?_concat] at hx
    rw [← Option.some.inj hx]
    exact hd

theorem words_cons_of_isBlank {c : Char} (h : isBlank c = true) (cs : List Char) :
    words (c :: cs) = words cs := by
  unfold words
  rw [pieces, if_pos h]
  rfl

/-- Words with a blank before each of them are the words again. -/
theorem words_flatMap_blank {texts : List (List Char)}
    (h : ∀ text ∈ texts, text ≠ [] ∧ ∀ c ∈ text, isBlank c = false) :
    words (texts.flatMap (' ' :: ·)) = texts := by
  have hblank : isBlank ' ' = true := by decide
  have hpieces : pieces isBlank (texts.flatMap (' ' :: ·)) = [] :: texts := by
    induction texts with
    | nil => rfl
    | cons text texts ih =>
      obtain ⟨⟨-, hplain⟩, htexts⟩ := List.forall_mem_cons.1 h
      have hnext : pieces isBlank (text ++ texts.flatMap (' ' :: ·)) = text :: texts := by
        cases texts with
        | nil => simpa using pieces_of_forall hplain
        | cons next texts =>
          have ih := ih htexts
          rw [List.flatMap_cons, List.cons_append, pieces, if_pos hblank] at ih
          rw [List.flatMap_cons, List.cons_append, pieces_append_cons hplain hblank]
          exact congrArg _ (List.cons.inj ih).2
      rw [List.flatMap_cons, List.cons_append, pieces, if_pos hblank, hnext]
  unfold words
  rw [hpieces, List.filter_cons]
  refine List.filter_eq_self.2 fun text htext => ?_
  simpa using (h text htext).1

end MailTrace.Text
