import Mathlib.Data.List.TakeWhile
import MailTrace.Net.IPAddress
import MailTrace.Proofs.Text.Numbers
import MailTrace.Proofs.Text.Searches

/-!
# The notations of host addresses

The canonical text of every address reads back as that address (`IPAddress.read?_write`), also where
a run of zero groups is left out or the last two groups are shown as octets. And no text but one of
hexadecimal digits, colons and points is an address (`IPAddress.isNotation_of_read?`), so an address
never holds the brackets, commas and blanks around it.
-/

namespace MailTrace.Net.IPAddress

open MailTrace.Text

/-! ## Pieces -/

/-- A join is cut where it was joined. -/
theorem pieces_join {sep : Char} {parts : List (List Char)} (hne : parts ≠ [])
    (hparts : ∀ part ∈ parts, sep ∉ part) : pieces (· == sep) (join [sep] parts) = parts := by
  induction parts with
  | nil => exact absurd rfl hne
  | cons first parts ih =>
    obtain ⟨hfirst, hrest⟩ := List.forall_mem_cons.1 hparts
    cases parts with
    | nil => exact pieces_of_forall (beq_eq_false_of_notMem hfirst)
    | cons second parts =>
      have hjoin : join [sep] (first :: second :: parts) =
          first ++ sep :: join [sep] (second :: parts) := by simp [join]
      rw [hjoin, pieces_append_cons (beq_eq_false_of_notMem hfirst) (by simp), ih (by simp) hrest]

/-- Joined parts that are not empty hold no separator twice in a row. -/
theorem cutText_join {sep : Char} {parts : List (List Char)}
    (hparts : ∀ part ∈ parts, part ≠ [] ∧ sep ∉ part) (tail : List Char) :
    cutText [sep, sep] (join [sep] parts ++ tail) =
      (cutText [sep, sep] tail).map fun (x, y) => (join [sep] parts ++ x, y) := by
  induction parts with
  | nil => simp [join]
  | cons first parts ih =>
    obtain ⟨⟨-, hfirst⟩, hrest⟩ := List.forall_mem_cons.1 hparts
    cases parts with
    | nil => exact cutText_append_of_notMem hfirst tail
    | cons second parts =>
      obtain ⟨⟨hne, hsecond⟩, -⟩ := List.forall_mem_cons.1 hrest
      obtain ⟨c, second', rfl⟩ := List.exists_cons_of_ne_nil hne
      have hc : sep ≠ c := fun e => hsecond (by simp [e])
      obtain ⟨joined, hjoined⟩ : ∃ joined, join [sep] ((c :: second') :: parts) = c :: joined := by
        cases parts <;> exact ⟨_, rfl⟩
      have hjoin : join [sep] (first :: (c :: second') :: parts) =
          first ++ sep :: join [sep] ((c :: second') :: parts) := by simp [join]
      have hafter : after? [sep, sep] (sep :: (join [sep] ((c :: second') :: parts) ++ tail)) =
          none := by
        rw [hjoined]
        simp [after?, hc]
      rw [hjoin, List.append_assoc, cutText_append_of_notMem hfirst, List.cons_append, cutText,
        hafter, ih hrest, Option.map_map, Option.map_map]
      simp [Function.comp_def]

/-! ## Octets -/

theorem octet?_toDigits (octet : UInt8) : octet? (Nat.toDigits 10 octet.toNat) = some octet := by
  have hlong : (Nat.toDigits 10 octet.toNat).length ≤ 3 :=
    (Nat.length_toDigits_le_iff (by decide) (by decide)).2
      (Nat.lt_trans octet.toNat_lt (by decide))
  have hzero (h : 1 < (Nat.toDigits 10 octet.toNat).length) :
      (Nat.toDigits 10 octet.toNat).head? ≠ some '0' := by
    refine head?_toDigits_ne fun hoctet => ?_
    rw [hoctet] at h
    exact absurd h (by decide)
  unfold octet?
  rw [if_neg (by simpa using ⟨hlong, hzero⟩), natural?_toDigits]
  simp only [Option.filter_some, octet.toNat_lt, decide_true, if_true, Option.map_some,
    UInt8.ofNat_toNat]

theorem isDigit_of_octet? {cs : List Char} {octet : UInt8} (h : octet? cs = some octet) :
    ∀ c ∈ cs, isDigit c = true := by
  unfold octet? at h
  split at h
  · cases h
  · obtain ⟨n, hn, -⟩ := Option.map_eq_some_iff.1 h
    exact isDigit_of_natural? (Option.filter_eq_some_iff.1 hn).1

theorem readV4?_writeV4 (a b c d : UInt8) : readV4? (writeV4 a b c d) = some (a, b, c, d) := by
  have hdigits : ∀ part ∈ [a, b, c, d].map fun octet => Nat.toDigits 10 octet.toNat, '.' ∉ part := by
    intro part hpart
    obtain ⟨octet, -, rfl⟩ := List.mem_map.1 hpart
    exact fun hdot => absurd (isDigit_of_mem_toDigits hdot) (by decide)
  unfold readV4? writeV4
  rw [pieces_join (by simp) hdigits]
  simp only [List.map_cons, List.map_nil, octet?_toDigits]
  rfl

/-- Octets are written in digits and points. -/
theorem forall_of_readV4? {cs : List Char} {octets : UInt8 × UInt8 × UInt8 × UInt8}
    (h : readV4? cs = some octets) : ∀ c ∈ cs, isDigit c = true ∨ c = '.' := by
  intro char hchar
  unfold readV4? at h
  split at h
  · rename_i a b c d hpieces
    simp only [Option.bind_eq_bind, Option.bind_eq_some_iff] at h
    obtain ⟨a', ha, b', hb, c', hc, d', hd, -⟩ := h
    rcases mem_pieces (p := (· == '.')) hchar with hdot | ⟨piece, hpiece, hmem⟩
    · exact .inr (beq_iff_eq.1 hdot)
    · rw [hpieces] at hpiece
      simp only [List.mem_cons, List.not_mem_nil, or_false] at hpiece
      rcases hpiece with rfl | rfl | rfl | rfl
      · exact .inl (isDigit_of_octet? ha char hmem)
      · exact .inl (isDigit_of_octet? hb char hmem)
      · exact .inl (isDigit_of_octet? hc char hmem)
      · exact .inl (isDigit_of_octet? hd char hmem)
  · cases h

/-! ## Groups -/

theorem hexDigit?_digitChar {n : Nat} (h : n < 16) : hexDigit? (Nat.digitChar n) = some n := by
  have hall : ∀ n < 16, hexDigit? (Nat.digitChar n) = some n := by decide
  exact hall n h

theorem hexadecimal?_append (front rest : List Char) :
    hexadecimal? (front ++ rest) =
      (hexadecimal? front).bind fun n =>
        rest.foldlM (fun n c => (hexDigit? c).map (16 * n + ·)) n := by
  unfold hexadecimal?
  rw [List.foldlM_append]
  rfl

theorem hexadecimal?_toDigits (n : Nat) : hexadecimal? (Nat.toDigits 16 n) = some n := by
  induction n using Nat.strongRecOn with
  | _ n ih =>
    rw [Nat.toDigits_eq_if (by decide)]
    split
    · rename_i hn
      simp [hexadecimal?, hexDigit?_digitChar hn]
    · rename_i hn
      rw [hexadecimal?_append, ih (n / 16) (by omega)]
      have hlast : n % 16 < 16 := Nat.mod_lt n (by decide)
      simp only [Option.bind_some, List.foldlM_cons, hexDigit?_digitChar hlast, Option.map_some,
        Option.bind_eq_bind, List.foldlM_nil, pure]
      congr 1
      omega

theorem isSome_of_foldlM {cs : List Char} {n m : Nat}
    (h : cs.foldlM (fun n c => (hexDigit? c).map (16 * n + ·)) n = some m) :
    ∀ c ∈ cs, (hexDigit? c).isSome = true := by
  induction cs generalizing n with
  | nil => simp
  | cons c cs ih =>
    rw [List.foldlM_cons, Option.bind_eq_bind, Option.bind_eq_some_iff] at h
    obtain ⟨k, hk, hrest⟩ := h
    obtain ⟨digit, hdigit, -⟩ := Option.map_eq_some_iff.1 hk
    exact List.forall_mem_cons.2 ⟨Option.isSome_iff_exists.2 ⟨digit, hdigit⟩, ih hrest⟩

theorem group?_toDigits (g : UInt16) : group? (Nat.toDigits 16 g.toNat) = some g := by
  have hlength : (Nat.toDigits 16 g.toNat).length ≤ 4 :=
    (Nat.length_toDigits_le_iff (by decide) (by decide)).2 g.toNat_lt
  unfold group?
  rw [if_neg (by simp [Nat.toDigits_ne_nil, hlength]), hexadecimal?_toDigits]
  exact congrArg some UInt16.ofNat_toNat

theorem isSome_of_group? {cs : List Char} {g : UInt16} (h : group? cs = some g) :
    ∀ c ∈ cs, (hexDigit? c).isSome = true := by
  unfold group? at h
  split at h
  · cases h
  · obtain ⟨n, hn, -⟩ := Option.map_eq_some_iff.1 h
    exact isSome_of_foldlM hn

theorem isSome_of_mem_toDigits (g : UInt16) :
    ∀ c ∈ Nat.toDigits 16 g.toNat, (hexDigit? c).isSome = true :=
  isSome_of_group? (group?_toDigits g)

/-- The parts of written groups. -/
theorem forall_digits (gs : List UInt16) :
    ∀ part ∈ gs.map fun g => Nat.toDigits 16 g.toNat, part ≠ [] ∧ ':' ∉ part ∧ '.' ∉ part := by
  intro part hpart
  obtain ⟨g, -, rfl⟩ := List.mem_map.1 hpart
  exact ⟨Nat.toDigits_ne_nil, fun hcolon => absurd (isSome_of_mem_toDigits g _ hcolon) (by decide),
    fun hdot => absurd (isSome_of_mem_toDigits g _ hdot) (by decide)⟩

theorem readV4?_eq_none {cs : List Char} (h : '.' ∉ cs) : readV4? cs = none := by
  unfold readV4?
  rw [pieces_of_forall (beq_eq_false_of_notMem h)]

theorem groups?_toDigits (octets : Bool) (gs : List UInt16) :
    groups? octets (gs.map fun g => Nat.toDigits 16 g.toNat) = some gs := by
  induction gs with
  | nil => rfl
  | cons g gs ih =>
    cases gs with
    | nil =>
      have hdot : '.' ∉ Nat.toDigits 16 g.toNat := (forall_digits [g] _ (by simp)).2.2
      simp only [List.map_cons, List.map_nil, groups?, readV4?_eq_none hdot, group?_toDigits,
        Option.map_some]
    | cons h gs =>
      rw [List.map_cons] at ih ⊢
      rw [List.map_cons, groups?, group?_toDigits, ih]
      · rfl
      · simp

theorem pieces_writeGroups {gs : List UInt16} (hne : gs ≠ []) :
    pieces (· == ':') (writeGroups gs) = gs.map fun g => Nat.toDigits 16 g.toNat :=
  pieces_join (by simp [hne]) fun part hpart => (forall_digits gs part hpart).2.1

theorem cutText_writeGroups (gs : List UInt16) (tail : List Char) :
    cutText [':', ':'] (writeGroups gs ++ tail) =
      (cutText [':', ':'] tail).map fun (x, y) => (writeGroups gs ++ x, y) :=
  cutText_join (fun part hpart =>
    ⟨(forall_digits gs part hpart).1, (forall_digits gs part hpart).2.1⟩) tail

theorem side?_writeGroups (octets : Bool) (gs : List UInt16) :
    side? octets (writeGroups gs) = some gs := by
  unfold side?
  cases gs with
  | nil => rfl
  | cons g gs =>
    have hne : writeGroups (g :: gs) ≠ [] := by
      unfold writeGroups
      cases gs <;> simp [join, Nat.toDigits_ne_nil]
    rw [if_neg (by simpa using hne), pieces_writeGroups (by simp), groups?_toDigits]

theorem pair_octets (g : UInt16) : pair (g >>> 8).toUInt8 g.toUInt8 = g := by
  have hhigh : (g >>> 8).toUInt8.toNat = g.toNat / 256 := by
    have := g.toNat_lt
    simp [Nat.shiftRight_eq_div_pow]
    omega
  have hlow : g.toUInt8.toNat = g.toNat % 256 := rfl
  unfold pair
  rw [hhigh, hlow, Nat.div_add_mod', UInt16.ofNat_toNat]

/-! ## Zero groups left out -/

theorem split_zeroRun (gs : List UInt16) (i : Nat) :
    gs.take i ++ (List.replicate (zeroRun gs i) 0 ++ gs.drop (i + zeroRun gs i)) = gs := by
  have hzeros : (gs.drop i).takeWhile (· == 0) = List.replicate (zeroRun gs i) 0 :=
    List.eq_replicate_iff.2 ⟨rfl, fun g hg =>
      beq_iff_eq.1 (List.mem_takeWhile_imp (p := (· == (0 : UInt16))) hg)⟩
  have hrest : (gs.drop i).dropWhile (· == 0) = gs.drop (i + zeroRun gs i) := by
    have hdrop : ((gs.drop i).takeWhile (· == 0) ++ (gs.drop i).dropWhile (· == 0)).drop
        (zeroRun gs i) = (gs.drop i).dropWhile (· == 0) := List.drop_left
    rw [List.takeWhile_append_dropWhile, List.drop_drop] at hdrop
    exact hdrop.symm
  rw [← hzeros, ← hrest, List.takeWhile_append_dropWhile, List.take_append_drop]

theorem readV6?_of_groups {cs : List Char} {gs : { gs : List UInt16 // gs.length = 8 }}
    (hcut : cutText [':', ':'] cs = none) (hgroups : groups? true (pieces (· == ':') cs) = some gs.val) :
    readV6? cs = some gs := by
  unfold readV6?
  simp only [hcut, hgroups, Option.bind_some, dif_pos gs.property]

theorem readV6?_of_sides {cs left right : List Char} {before after : List UInt16}
    {gs : { gs : List UInt16 // gs.length = 8 }} {n : Nat}
    (hcut : cutText [':', ':'] cs = some (left, right)) (hleft : side? false left = some before)
    (hright : side? true right = some after) (hn : 2 ≤ n)
    (hgs : before ++ (List.replicate n 0 ++ after) = gs.val) : readV6? cs = some gs := by
  have hlength : before.length + (n + after.length) = 8 := by
    rw [← gs.property, ← hgs]
    simp
  have hzeros : 8 - before.length - after.length = n := by omega
  unfold readV6?
  simp only [hcut, Option.bind_eq_bind, hleft, hright, Option.bind_some, hzeros]
  rw [if_neg (by omega)]
  simp only [pure, Option.bind_some, List.append_assoc, hgs, dif_pos gs.property]

/-- Two groups shown as octets read back. -/
theorem side?_mapped (g h : UInt16) :
    side? true ("ffff:".toList ++ writeV4 (g >>> 8).toUInt8 g.toUInt8 (h >>> 8).toUInt8 h.toUInt8) =
      some [0xFFFF, g, h] := by
  have hread := readV4?_writeV4 (g >>> 8).toUInt8 g.toUInt8 (h >>> 8).toUInt8 h.toUInt8
  generalize writeV4 (g >>> 8).toUInt8 g.toUInt8 (h >>> 8).toUInt8 h.toUInt8 = octets at *
  have hcolon : ':' ∉ octets := fun hc => absurd (forall_of_readV4? hread ':' hc) (by decide)
  have hpieces : pieces (· == ':') ("ffff:".toList ++ octets) = ["ffff".toList, octets] := by
    show pieces (· == ':') ("ffff".toList ++ ':' :: octets) = _
    rw [pieces_append_cons (beq_eq_false_of_notMem (by decide)) rfl,
      pieces_of_forall (beq_eq_false_of_notMem hcolon)]
  have hffff : group? "ffff".toList = some 0xFFFF := by decide
  have hlast : groups? true [octets] = some [g, h] := by
    simp only [groups?, hread, pair_octets]
  unfold side?
  rw [if_neg (by simp), hpieces, groups?, hffff, hlast]
  · rfl
  · simp

theorem readV6?_writeV6 (gs : { gs : List UInt16 // gs.length = 8 }) :
    readV6? (writeV6 gs.val) = some gs := by
  obtain ⟨gs, hlength⟩ := gs
  unfold writeV6
  split
  · rename_i g h hmapped
    exact readV6?_of_sides (n := 5) rfl (side?_writeGroups false []) (side?_mapped g h)
      (by decide) hmapped.symm
  · dsimp only
    split
    · refine readV6?_of_groups ?_ ?_
      · have hcut := cutText_writeGroups gs []
        rwa [List.append_nil] at hcut
      · rw [pieces_writeGroups (List.ne_nil_of_length_pos (by omega))]
        exact groups?_toDigits true gs
    · rename_i hrun
      generalize longestZeroRun gs = start at *
      have hcut : cutText [':', ':'] (writeGroups (gs.take start) ++ [':', ':'] ++
            writeGroups (gs.drop (start + zeroRun gs start))) =
          some (writeGroups (gs.take start), writeGroups (gs.drop (start + zeroRun gs start))) := by
        rw [List.append_assoc, cutText_writeGroups]
        simp [cutText, after?]
      exact readV6?_of_sides hcut (side?_writeGroups false _) (side?_writeGroups true _)
        (Nat.le_of_not_lt hrun) (split_zeroRun gs start)

/-! ## Addresses -/

/-- Groups are never written without a colon. -/
theorem colon_mem_writeV6 {gs : List UInt16} (hlength : gs.length = 8) : ':' ∈ writeV6 gs := by
  unfold writeV6
  split
  · simp
  · dsimp only
    split
    · match gs, hlength with
      | g :: h :: gs, _ => simp [writeGroups, join]
    · simp

/-- **An address is read from what is written of it.** -/
theorem read?_write (ip : IPAddress) : read? ip.write = some ip := by
  unfold read?
  cases ip with
  | v4 a b c d => simp only [write, readV4?_writeV4, Option.map_some, Option.some_or]
  | v6 gs =>
    have hoctets : readV4? (writeV6 gs.val) = none := by
      cases hread : readV4? (writeV6 gs.val) with
      | none => rfl
      | some octets =>
        exact absurd (forall_of_readV4? hread ':' (colon_mem_writeV6 gs.property)) (by decide)
    simp only [write, hoctets, readV6?_writeV6, Option.map_none, Option.none_or, Option.map_some]

/-- The characters of notations. -/
def IsNotation (c : Char) : Prop := (hexDigit? c).isSome = true ∨ c = ':' ∨ c = '.'

instance : DecidablePred IsNotation := fun _ => inferInstanceAs (Decidable (_ ∨ _))

theorem toNat_lt_of_isNotation {c : Char} (h : IsNotation c) : c.toNat < 128 := by
  have hle {d : Char} (hd : d.toNat < 128) (hcd : c ≤ d) : c.toNat < 128 :=
    Nat.lt_of_le_of_lt (UInt32.le_iff_toNat_le.1 hcd) hd
  rcases h with hdigit | rfl | rfl
  · unfold hexDigit? at hdigit
    simp only [Bool.and_eq_true, decide_eq_true_eq] at hdigit
    split at hdigit
    · rename_i hrange
      exact hle (by decide) hrange.2
    split at hdigit
    · rename_i hrange
      exact hle (by decide) hrange.2
    split at hdigit
    · rename_i hrange
      exact hle (by decide) hrange.2
    · cases hdigit
  · decide
  · decide

theorem isNotation_of_isDigit {c : Char} (h : isDigit c = true) : IsNotation c := by
  refine .inl ?_
  unfold isDigit at h
  unfold hexDigit?
  rw [if_pos h]
  rfl

theorem isNotation_of_readV4? {cs : List Char} {octets : UInt8 × UInt8 × UInt8 × UInt8}
    (h : readV4? cs = some octets) : ∀ c ∈ cs, IsNotation c := fun c hc =>
  (forall_of_readV4? h c hc).elim isNotation_of_isDigit fun hdot => .inr (.inr hdot)

theorem isNotation_of_groups? {octets : Bool} {parts : List (List Char)} {gs : List UInt16}
    (h : groups? octets parts = some gs) : ∀ part ∈ parts, ∀ c ∈ part, IsNotation c := by
  fun_induction groups? octets parts generalizing gs with
  | case1 => simp
  | case2 last a b c d hread =>
    intro part hpart
    rw [List.mem_singleton.1 hpart]
    exact isNotation_of_readV4? hread
  | case3 last =>
    intro part hpart c hc
    rw [List.mem_singleton.1 hpart] at hc
    obtain ⟨g, hg, -⟩ := Option.map_eq_some_iff.1 h
    exact .inl (isSome_of_group? hg c hc)
  | case4 first rest hrest ih =>
    simp only [Option.bind_eq_bind, Option.bind_eq_some_iff] at h
    obtain ⟨g, hg, others, hothers, -⟩ := h
    refine List.forall_mem_cons.2 ⟨fun c hc => ?_, ih hothers⟩
    exact .inl (isSome_of_group? hg c hc)

theorem isNotation_of_pieces {octets : Bool} {cs : List Char} {gs : List UInt16}
    (h : groups? octets (pieces (· == ':') cs) = some gs) : ∀ c ∈ cs, IsNotation c := by
  intro c hc
  rcases mem_pieces (p := (· == ':')) hc with hcolon | ⟨piece, hpiece, hmem⟩
  · exact .inr (.inl (beq_iff_eq.1 hcolon))
  · exact isNotation_of_groups? h piece hpiece c hmem

theorem isNotation_of_side? {octets : Bool} {cs : List Char} {gs : List UInt16}
    (h : side? octets cs = some gs) : ∀ c ∈ cs, IsNotation c := by
  unfold side? at h
  split at h
  · rename_i hempty
    rw [List.isEmpty_iff.1 hempty]
    simp
  · exact isNotation_of_pieces h

/-- **Only such texts are addresses.** -/
theorem isNotation_of_read? {cs : List Char} {ip : IPAddress} (h : read? cs = some ip) :
    ∀ c ∈ cs, IsNotation c := by
  unfold read? at h
  rcases Option.or_eq_some_iff.1 h with h | ⟨-, h⟩
  · obtain ⟨octets, hread, -⟩ := Option.map_eq_some_iff.1 h
    exact isNotation_of_readV4? hread
  · obtain ⟨gs, hread, -⟩ := Option.map_eq_some_iff.1 h
    obtain ⟨found, hfound, -⟩ := Option.bind_eq_some_iff.1 hread
    split at hfound
    · exact isNotation_of_pieces hfound
    · rename_i left right hcut
      simp only [Option.bind_eq_bind, Option.bind_eq_some_iff] at hfound
      obtain ⟨before, hbefore, after, hafter, -⟩ := hfound
      rw [eq_append_of_cutText hcut]
      intro c hc
      simp only [List.mem_append, List.mem_cons, List.not_mem_nil, or_false] at hc
      rcases hc with (hc | hc | hc) | hc
      · exact isNotation_of_side? hbefore c hc
      · exact .inr (.inl hc)
      · exact .inr (.inl hc)
      · exact isNotation_of_side? hafter c hc

theorem isNotation_of_mem_write {ip : IPAddress} : ∀ c ∈ ip.write, IsNotation c :=
  isNotation_of_read? ip.read?_write

end MailTrace.Net.IPAddress
