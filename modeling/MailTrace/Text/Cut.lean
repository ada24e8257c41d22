/-!
# Cutting lists

The parts of a list around an element or around a shorter list. Every cut is total and answers
`none` where the separator does not occur. The lemma after each definition states the cut as an
equation with `++`.
-/

namespace MailTrace.Text

variable {α : Type}

section Separators

variable [DecidableEq α]

/-! ## Heads and tails -/

/-- What follows the head `p` in a list that starts with `p`. -/
def after? : List α → List α → Option (List α)
  | [], cs => some cs
  | _ :: _, [] => none
  | a :: p, c :: cs => if a = c then after? p cs else none

theorem after?_eq_some_iff {p cs rest : List α} : after? p cs = some rest ↔ cs = p ++ rest := by
  induction p generalizing cs with
  | nil => simp [after?, eq_comm]
  | cons a p ih =>
    cases cs with
    | nil => simp [after?]
    | cons c cs => by_cases h : a = c <;> simp [after?, h, ih, eq_comm]

@[simp] theorem after?_append (p rest : List α) : after? p (p ++ rest) = some rest :=
  after?_eq_some_iff.2 rfl

/-- What precedes the tail `p` in a list that ends with `p`. -/
def before? (p cs : List α) : Option (List α) :=
  (after? p.reverse cs.reverse).map List.reverse

theorem before?_eq_some_iff {p cs front : List α} : before? p cs = some front ↔ cs = front ++ p := by
  simp only [before?, Option.map_eq_some_iff, after?_eq_some_iff]
  constructor
  · rintro ⟨r, h, rfl⟩
    simpa using congrArg List.reverse h
  · rintro rfl
    exact ⟨front.reverse, by simp⟩

/-! ## Around one element -/

/-- The parts before and after the first `sep`. -/
def cutAt (sep : α) : List α → Option (List α × List α)
  | [] => none
  | c :: cs => if c = sep then some ([], cs) else (cutAt sep cs).map fun (a, b) => (c :: a, b)

theorem cutAt_eq_some_iff {sep : α} {cs a b : List α} :
    cutAt sep cs = some (a, b) ↔ cs = a ++ sep :: b ∧ sep ∉ a := by
  induction cs generalizing a with
  | nil => simp [cutAt]
  | cons c cs ih =>
    by_cases h : c = sep
    · subst h
      cases a <;> simp [cutAt]
      grind
    · cases a with
      | nil => simp [cutAt, h]
      | cons d a =>
        simp only [cutAt, if_neg h, Option.map_eq_some_iff, Prod.mk.injEq, List.cons.injEq]
        grind

theorem cutAt_eq_none_iff {sep : α} {cs : List α} : cutAt sep cs = none ↔ sep ∉ cs := by
  induction cs with
  | nil => simp [cutAt]
  | cons c cs ih =>
    by_cases h : c = sep
    · simp [cutAt, h]
    · have h' : sep ≠ c := fun e => h e.symm
      simp [cutAt, h, h', ih]

/-- The parts before and after the last `sep`. -/
def cutLast (sep : α) (cs : List α) : Option (List α × List α) :=
  (cutAt sep cs.reverse).map fun (a, b) => (b.reverse, a.reverse)

theorem cutLast_eq_some_iff {sep : α} {cs a b : List α} :
    cutLast sep cs = some (a, b) ↔ cs = a ++ sep :: b ∧ sep ∉ b := by
  simp only [cutLast, Option.map_eq_some_iff, Prod.exists, cutAt_eq_some_iff, Prod.mk.injEq]
  constructor
  · rintro ⟨x, y, ⟨h, hx⟩, rfl, rfl⟩
    exact ⟨by simpa using congrArg List.reverse h, by simpa using hx⟩
  · rintro ⟨rfl, hb⟩
    exact ⟨b.reverse, a.reverse, by simpa using hb, by simp⟩

theorem cutLast_eq_none_iff {sep : α} {cs : List α} : cutLast sep cs = none ↔ sep ∉ cs := by
  simp [cutLast, cutAt_eq_none_iff]

/-! ## Around a list -/

/-- The parts before and after the first occurrence of the list `sep`. -/
def cutText (sep : List α) : List α → Option (List α × List α)
  | [] => (after? sep []).map ([], ·)
  | c :: cs =>
    match after? sep (c :: cs) with
    | some rest => some ([], rest)
    | none => (cutText sep cs).map fun (a, b) => (c :: a, b)

theorem eq_append_of_cutText {sep cs a b : List α} (h : cutText sep cs = some (a, b)) :
    cs = a ++ sep ++ b := by
  induction cs generalizing a with
  | nil =>
    simp only [cutText, Option.map_eq_some_iff, Prod.mk.injEq, after?_eq_some_iff] at h
    grind
  | cons c cs ih =>
    rw [cutText] at h
    split at h
    · rename_i rest hr
      simp only [Option.some.injEq, Prod.mk.injEq] at h
      simpa [h.1.symm, h.2.symm] using after?_eq_some_iff.1 hr
    · simp only [Option.map_eq_some_iff, Prod.exists, Prod.mk.injEq] at h
      obtain ⟨x, y, hxy, rfl, rfl⟩ := h
      simp [ih hxy]

end Separators

/-! ## At every separator -/

/-- The pieces between the elements that satisfy `p`, one more than there are such elements. -/
def pieces (p : α → Bool) : List α → List (List α)
  | [] => [[]]
  | c :: cs =>
    if p c then [] :: pieces p cs
    else match pieces p cs with
      | [] => [[c]]
      | first :: others => (c :: first) :: others

theorem pieces_ne_nil (p : α → Bool) (cs : List α) : pieces p cs ≠ [] := by
  cases cs with
  | nil => simp [pieces]
  | cons c cs => by_cases h : p c <;> simp only [pieces, h] <;> grind

end MailTrace.Text
