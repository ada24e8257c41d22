import MailTrace.Text.Cut
import MailTrace.Text.Utf8

/-!
# Offsets in a text

Places in a text counted in octets. A text can be cut at an offset only between two characters and not
beyond its end; `cut`, `front?`, `back?` and `middle?` answer `none` elsewhere. The offsets that a search
finds are those of the cut around what is searched for (`find?_eq`, `findLast?_eq`, `findText?_eq`), so
cutting there always succeeds.
-/

namespace MailTrace.Text.Utf8

variable {cs front rest : List Char}

/-! ## Sizes -/

@[simp] theorem size_nil : size [] = 0 := rfl

@[simp] theorem size_cons (c : Char) (cs : List Char) : size (c :: cs) = c.utf8Size + size cs := rfl

@[simp] theorem size_append (front rest : List Char) :
    size (front ++ rest) = size front + size rest := by
  induction front with
  | nil => simp
  | cons c front ih => simp [ih, Nat.add_assoc]

theorem size_eq_zero_iff : size cs = 0 ↔ cs = [] := by
  cases cs with
  | nil => simp
  | cons c cs =>
    have := c.utf8Size_pos
    simp only [size_cons, reduceCtorEq, iff_false]
    omega

/-! ## Cuts -/

@[simp] theorem cut_size_append (front rest : List Char) :
    cut (size front) (front ++ rest) = some (front, rest) := by
  induction front with
  | nil => cases rest <;> rfl
  | cons c front ih =>
    have hpos := c.utf8Size_pos
    rw [List.cons_append, size_cons, cut, if_neg (by omega), if_neg (by omega),
      Nat.add_sub_cancel_left, ih]
    rfl

theorem cut_eq_some_iff {n : Nat} :
    cut n cs = some (front, rest) ↔ cs = front ++ rest ∧ size front = n := by
  constructor
  · exact eq_append_of_cut
  · rintro ⟨rfl, rfl⟩
    exact cut_size_append front rest

/-- The offset lies between two characters, or at an end of the text. -/
def Boundary (n : Nat) (cs : List Char) : Prop := ∃ front rest, cs = front ++ rest ∧ size front = n

theorem isSome_cut_iff {n : Nat} : (cut n cs).isSome = true ↔ Boundary n cs := by
  rw [Option.isSome_iff_exists]
  constructor
  · rintro ⟨⟨front, rest⟩, h⟩
    exact ⟨front, rest, cut_eq_some_iff.1 h⟩
  · rintro ⟨front, rest, h⟩
    exact ⟨(front, rest), cut_eq_some_iff.2 h⟩

instance (n : Nat) (cs : List Char) : Decidable (Boundary n cs) :=
  decidable_of_iff _ isSome_cut_iff

theorem Boundary.le_size {n : Nat} (h : Boundary n cs) : n ≤ size cs := by
  obtain ⟨front, rest, rfl, rfl⟩ := h
  simp

/-- The text before an offset. -/
def front? (n : Nat) (cs : List Char) : Option (List Char) := (cut n cs).map (·.1)

/-- The text from an offset on. -/
def back? (n : Nat) (cs : List Char) : Option (List Char) := (cut n cs).map (·.2)

/-- The text between two offsets, the first of which is not the larger one. -/
def middle? (n m : Nat) (cs : List Char) : Option (List Char) :=
  if n ≤ m then (front? m cs).bind (back? n) else none

theorem front?_append (front rest : List Char) : front? (size front) (front ++ rest) = some front := by
  simp [front?]

theorem back?_append (front rest : List Char) : back? (size front) (front ++ rest) = some rest := by
  simp [back?]

/-- A character of one octet is stepped over by one. -/
theorem back?_append_cons {c : Char} (front rest : List Char) (hc : c.utf8Size = 1) :
    back? (size front + 1) (front ++ c :: rest) = some rest := by
  have hsize : size front + 1 = size (front ++ [c]) := by rw [size_append, size_cons, hc, size_nil]
  have hsplit : front ++ c :: rest = front ++ [c] ++ rest := by rw [List.append_assoc]; rfl
  rw [hsize, hsplit]
  exact back?_append (front ++ [c]) rest

theorem middle?_append (front middle rest : List Char) :
    middle? (size front) (size front + size middle) (front ++ middle ++ rest) = some middle := by
  unfold middle?
  rw [if_pos (Nat.le_add_right _ _), ← size_append, front?_append]
  exact back?_append front middle

/-! ## Texts of one octet for each character -/

/-- Every character takes one octet. -/
def IsAscii (cs : List Char) : Prop := ∀ c ∈ cs, c.toNat ≤ 0x7F

instance (cs : List Char) : Decidable (IsAscii cs) := List.decidableBAll (fun c : Char => c.toNat ≤ 0x7F) cs

theorem utf8Size_eq_one {c : Char} (h : c.toNat ≤ 0x7F) : c.utf8Size = 1 :=
  Char.utf8Size_eq_one_iff.2 h

theorem IsAscii.size_eq (h : IsAscii cs) : size cs = cs.length := by
  induction cs with
  | nil => rfl
  | cons c cs ih =>
    obtain ⟨hc, hcs⟩ := List.forall_mem_cons.1 h
    rw [size_cons, utf8Size_eq_one hc, ih hcs, List.length_cons, Nat.add_comm]

/-- In such a text offsets count characters. -/
theorem IsAscii.cut_eq (h : IsAscii cs) {n : Nat} (hn : n ≤ cs.length) :
    cut n cs = some (cs.take n, cs.drop n) := by
  refine cut_eq_some_iff.2 ⟨(List.take_append_drop n cs).symm, ?_⟩
  have htake : IsAscii (cs.take n) := fun c hc => h c (List.mem_of_mem_take hc)
  rw [htake.size_eq, List.length_take, Nat.min_eq_left hn]

theorem IsAscii.front?_eq (h : IsAscii cs) {n : Nat} (hn : n ≤ cs.length) :
    front? n cs = some (cs.take n) := by
  unfold front?
  rw [h.cut_eq hn]
  rfl

theorem IsAscii.back?_eq (h : IsAscii cs) {n : Nat} (hn : n ≤ cs.length) :
    back? n cs = some (cs.drop n) := by
  unfold back?
  rw [h.cut_eq hn]
  rfl

theorem IsAscii.middle?_eq (h : IsAscii cs) {n m : Nat} (hnm : n ≤ m) (hm : m ≤ cs.length) :
    middle? n m cs = some ((cs.take m).drop n) := by
  have htake : IsAscii (cs.take m) := fun c hc => h c (List.mem_of_mem_take hc)
  have hn : n ≤ (cs.take m).length := by rw [List.length_take]; omega
  unfold middle?
  rw [if_pos hnm, h.front?_eq hm]
  exact htake.back?_eq hn

/-! ## Searches -/

/-- The offset of the first occurrence of a character. -/
def find? (sep : Char) : List Char → Option Nat
  | [] => none
  | c :: cs => if c = sep then some 0 else (find? sep cs).map (c.utf8Size + ·)

theorem find?_eq (sep : Char) (cs : List Char) :
    find? sep cs = (cutAt sep cs).map fun (front, _) => size front := by
  induction cs with
  | nil => rfl
  | cons c cs ih =>
    unfold find? cutAt
    split
    · rfl
    · rw [ih, Option.map_map, Option.map_map]
      rfl

/-- The offset of the last occurrence of a character. -/
def findLast? (sep : Char) : List Char → Option Nat
  | [] => none
  | c :: cs =>
    match findLast? sep cs with
    | some n => some (c.utf8Size + n)
    | none => if c = sep then some 0 else none

theorem findLast?_eq (sep : Char) (cs : List Char) :
    findLast? sep cs = (cutLast sep cs).map fun (front, _) => size front := by
  induction cs with
  | nil => rfl
  | cons c cs ih =>
    unfold findLast?
    rw [ih]
    cases hcut : cutLast sep cs with
    | some parts =>
      obtain ⟨front, rest⟩ := parts
      obtain ⟨rfl, hrest⟩ := cutLast_eq_some_iff.1 hcut
      have hcons : cutLast sep (c :: (front ++ sep :: rest)) = some (c :: front, rest) :=
        cutLast_eq_some_iff.2 ⟨rfl, hrest⟩
      rw [hcons]
      rfl
    | none =>
      have habsent := cutLast_eq_none_iff.1 hcut
      by_cases hc : c = sep
      · have hcons : cutLast sep (c :: cs) = some ([], cs) :=
          cutLast_eq_some_iff.2 ⟨by rw [hc]; rfl, habsent⟩
        rw [hcons]
        simp [hc]
      · have hcons : cutLast sep (c :: cs) = none :=
          cutLast_eq_none_iff.2 (by simp [habsent, Ne.symm hc])
        rw [hcons]
        simp [hc]

/-- The offset of the first occurrence of a text. -/
def findText? (sep : List Char) : List Char → Option Nat
  | [] => (after? sep []).map fun _ => 0
  | c :: cs =>
    if (after? sep (c :: cs)).isSome then some 0 else (findText? sep cs).map (c.utf8Size + ·)

theorem findText?_eq (sep cs : List Char) :
    findText? sep cs = (cutText sep cs).map fun (front, _) => size front := by
  induction cs with
  | nil =>
    unfold findText? cutText
    rw [Option.map_map]
    rfl
  | cons c cs ih =>
    unfold findText? cutText
    cases after? sep (c :: cs) with
    | some rest => rfl
    | none =>
      rw [ih]
      simp only [Option.isSome_none, Bool.false_eq_true, if_false, Option.map_map]
      rfl

end MailTrace.Text.Utf8
