import MailTrace.Line.Reading
import MailTrace.Proofs.Text.Numbers
import MailTrace.Proofs.Text.Offsets
import MailTrace.Proofs.Text.Searches
import MailTrace.Proofs.Time.Syslog
import Mathlib.Data.List.TakeWhile

/-!
# Reading by offsets

A line can be read by searching offsets in it and cutting the text there. Each function here reads a
part of a line in this way, and answers `none` if it ever cuts outside of a text or inside of a
character. None of them does: on every text, each gives what the reading of lines takes from it
(`CutsInside`, `cutsInside`).
-/

namespace MailTrace

namespace Offsets

open MailTrace.Net MailTrace.Text MailTrace.Text.Utf8 MailTrace.Time

/-! ## Fields -/

/-- The trimmed text between two markers. -/
def between (start stop cs : List Char) : Option (Option (List Char)) :=
  match findText? start cs with
  | none => some none
  | some n => do
    let rest ← back? (n + size start) cs
    match findText? stop rest with
    | none => some none
    | some m => return some (trim (← front? m rest))

theorem between_eq (start stop cs : List Char) :
    between start stop cs = some (Text.between start stop cs) := by
  unfold between Text.between
  rw [findText?_eq]
  cases hstart : cutText start cs with
  | none => rfl
  | some parts =>
    obtain ⟨before, rest⟩ := parts
    have hback : back? (size before + size start) cs = some rest := by
      rw [eq_append_of_cutText hstart, ← size_append]
      exact back?_append (before ++ start) rest
    simp only [Option.map_some, hback, findText?_eq, Option.bind_eq_bind, Option.bind_some]
    cases hstop : cutText stop rest with
    | none => rfl
    | some parts =>
      obtain ⟨inner, after⟩ := parts
      have hfront : front? (size inner) rest = some inner := by
        rw [eq_append_of_cutText hstop, List.append_assoc]
        exact front?_append inner (stop ++ after)
      simp only [Option.map_some, hfront, Option.bind_some]
      rfl

/-- The offset of the angle bracket that closes, from an offset on. -/
def closing? (quoted : Bool) (offset : Nat) : List Char → Option Nat
  | [] => none
  | c :: cs =>
    if c = '>' && !quoted then some offset
    else closing? (if c = '"' then !quoted else quoted) (offset + c.utf8Size) cs

theorem closing?_eq (quoted : Bool) (offset : Nat) (cs : List Char) :
    closing? quoted offset cs =
      (Field.untilAngle quoted cs).map fun (inner, _) => offset + size inner := by
  induction cs generalizing quoted offset with
  | nil => rfl
  | cons c cs ih =>
    unfold closing? Field.untilAngle
    split
    · rfl
    · rw [ih, Option.map_map]
      congr 1
      funext parts
      simp [Nat.add_assoc]

theorem eq_append_of_untilAngle {quoted : Bool} {cs inner rest : List Char}
    (h : Field.untilAngle quoted cs = some (inner, rest)) : cs = inner ++ '>' :: rest := by
  induction cs generalizing quoted inner with
  | nil => cases h
  | cons c cs ih =>
    unfold Field.untilAngle at h
    split at h
    · rename_i hc
      obtain ⟨rfl, rfl⟩ := Prod.mk.inj (Option.some.inj h)
      simp_all
    · simp only [Option.map_eq_some_iff, Prod.exists, Prod.mk.injEq] at h
      obtain ⟨a, b, hab, rfl, rfl⟩ := h
      rw [ih hab]
      rfl

/-- The text in angle brackets at the start, and what follows it. -/
def angle? (cs : List Char) : Option (Option (List Char × List Char)) :=
  match after? ['<'] cs with
  | none => some none
  | some rest =>
    match closing? false 0 rest with
    | none => some none
    | some n => do return some (← front? n rest, ← back? (n + 1) rest)

theorem angle?_eq (cs : List Char) : angle? cs = some (Field.angle? cs) := by
  unfold angle?
  cases hafter : after? ['<'] cs with
  | none =>
    unfold Field.angle?
    dsimp only
    split
    · simp [after?] at hafter
    · rfl
  | some rest =>
    have hcs : cs = '<' :: rest := after?_eq_some_iff.1 hafter
    rw [hcs]
    show _ = some (Field.untilAngle false rest)
    dsimp only
    rw [closing?_eq]
    cases huntil : Field.untilAngle false rest with
    | none => rfl
    | some parts =>
      obtain ⟨inner, after⟩ := parts
      have hrest := eq_append_of_untilAngle huntil
      have hfront : front? (0 + size inner) rest = some inner := by
        rw [hrest, Nat.zero_add]
        exact front?_append inner ('>' :: after)
      have hback : back? (0 + size inner + 1) rest = some after := by
        rw [hrest, Nat.zero_add]
        exact back?_append_cons inner after rfl
      simp only [Option.map_some, hfront, hback]
      rfl

/-- The value up to the quote that ends it, and what follows it, from an offset of the whole text on.
What was read of the value before is given. -/
def untilQuote (whole : List Char) (offset : Nat) (value : List Char) :
    List Char → Option (Option (List Char × List Char))
  | [] => some none
  | '\\' :: [] => some none
  | '\\' :: c :: cs => untilQuote whole (offset + '\\'.utf8Size + c.utf8Size) (value ++ [c]) cs
  | c :: cs =>
    if c = '"' then do
      let after ← back? (offset + 1) whole
      if Field.endsValue after then return some (value, after)
      else untilQuote whole (offset + c.utf8Size) (value ++ [c]) cs
    else untilQuote whole (offset + c.utf8Size) (value ++ [c]) cs

/-- A character read before the rest of a value. -/
theorem map_append_cons (value : List Char) (c : Char) (parts : Option (List Char × List Char)) :
    (parts.map fun (read, rest) => (value ++ [c] ++ read, rest)) =
      (parts.map fun (read, rest) => (c :: read, rest)).map
        fun (read, rest) => (value ++ read, rest) := by
  cases parts <;> simp

theorem untilQuote_eq (before value cs : List Char) :
    untilQuote (before ++ cs) (size before) value cs =
      some ((Field.untilQuote cs).map fun (read, rest) => (value ++ read, rest)) := by
  fun_induction Field.untilQuote cs generalizing before value with
  | case1 => rfl
  | case2 => rfl
  | case3 c cs ih =>
    have hwhole : before ++ '\\' :: c :: cs = before ++ ['\\', c] ++ cs := by simp
    have hsize : size before + '\\'.utf8Size + c.utf8Size = size (before ++ ['\\', c]) := by
      simp [Nat.add_assoc]
    rw [untilQuote, hwhole, hsize, ih, map_append_cons]
  | case4 c cs hlast hnext hends =>
    obtain ⟨rfl, hafter⟩ : c = '"' ∧ Field.endsValue cs = true := by simpa using hends
    rw [untilQuote, if_pos rfl, back?_append_cons before cs rfl]
    · simp [hafter]
    · exact hlast
    · exact hnext
  | case5 c cs hlast hnext hends ih =>
    have hwhole : before ++ c :: cs = before ++ [c] ++ cs := by simp
    have hsize : size before + c.utf8Size = size (before ++ [c]) := by simp
    have hgoes : untilQuote (before ++ c :: cs) (size before + c.utf8Size) (value ++ [c]) cs =
        some (((Field.untilQuote cs).map fun (read, rest) => (c :: read, rest)).map
          fun (read, rest) => (value ++ read, rest)) := by
      rw [hwhole, hsize, ih, map_append_cons]
    rw [untilQuote]
    · split
      · rename_i hc
        subst hc
        rw [back?_append_cons before cs rfl, hgoes]
        have hafter : Field.endsValue cs = false := by simpa using hends
        simp [hafter]
      · exact hgoes
    · exact hlast
    · exact hnext

/-- The quoted value at the start, and what follows it. -/
def quoted? (cs : List Char) : Option (Option (List Char × List Char)) :=
  match after? ['"'] cs with
  | none => some none
  | some rest => untilQuote rest 0 [] rest

theorem quoted?_eq (cs : List Char) : quoted? cs = some (Field.quoted? cs) := by
  unfold quoted?
  cases hafter : after? ['"'] cs with
  | none =>
    unfold Field.quoted?
    dsimp only
    split
    · simp [after?] at hafter
    · rfl
  | some rest =>
    have hcs : cs = '"' :: rest := after?_eq_some_iff.1 hafter
    rw [hcs]
    have hread := untilQuote_eq [] [] rest
    rw [List.nil_append, size_nil] at hread
    dsimp only
    rw [hread]
    show some ((Field.untilQuote rest).map id) = some (Field.untilQuote rest)
    rw [Option.map_id]
    rfl

/-- A host with its address in brackets. -/
def client? (cs : List Char) : Option (Option Client) :=
  match find? '[' cs with
  | none => some none
  | some n => do
    let host ← front? n cs
    let ip ← between ['['] [']'] cs
    return ip.map fun ip => ⟨String.ofList host, IPAddress.read? ip⟩

theorem client?_eq (cs : List Char) : client? cs = some (Field.client? cs) := by
  unfold client? Field.client?
  rw [find?_eq]
  cases hcut : cutAt '[' cs with
  | none => rfl
  | some parts =>
    obtain ⟨host, rest⟩ := parts
    have hfront : front? (size host) cs = some host := by
      rw [(cutAt_eq_some_iff.1 hcut).1]
      exact front?_append host ('[' :: rest)
    simp only [Option.map_some, hfront, between_eq]
    cases Text.between ['['] [']'] cs <;> rfl

/-! ## Texts of programs -/

/-- The next hop. -/
def readRelay (cs : List Char) : Option (Except LineFault Relay) :=
  if cs = "none".toList then some (.ok Relay.none)
  else
    match find? '[' cs with
    | none => some (.ok { Relay.none with name := String.ofList cs })
    | some opening =>
      match (findLast? ']' cs).filter (opening < ·) with
      | none => some (Attempt.refuse (.invalid "relay" (String.ofList cs)))
      | some closing => do
        let name ← front? opening cs
        let inner ← middle? (opening + 1) closing cs
        let tail ← back? (closing + 1) cs
        return Attempt.relayOf name inner tail

/-- The last bracket that closes stands before the first that opens, if none stands after it. -/
theorem size_le_of_notMem {name rest front after : List Char} (hnone : ']' ∉ rest)
    (h : name ++ '[' :: rest = front ++ ']' :: after) : size front ≤ size name := by
  rcases List.append_eq_append_iff.1 h with ⟨x, rfl, hx⟩ | ⟨x, rfl, hx⟩
  · have hmem : ']' ∈ '[' :: rest := by
      rw [hx]
      exact List.mem_append_right x List.mem_cons_self
    simp [hnone] at hmem
  · simp

theorem readRelay_eq (cs : List Char) : readRelay cs = some (Attempt.readRelay cs) := by
  unfold readRelay Attempt.readRelay
  split
  · rfl
  rw [find?_eq, findLast?_eq]
  cases hcut : cutAt '[' cs with
  | none => rfl
  | some parts =>
    obtain ⟨name, rest⟩ := parts
    obtain ⟨rfl, hname⟩ := cutAt_eq_some_iff.1 hcut
    cases hlast : cutLast ']' rest with
    | some parts =>
      obtain ⟨inner, tail⟩ := parts
      obtain ⟨rfl, htail⟩ := cutLast_eq_some_iff.1 hlast
      have hclosing : cutLast ']' (name ++ '[' :: (inner ++ ']' :: tail)) =
          some (name ++ '[' :: inner, tail) := cutLast_eq_some_iff.2 ⟨by simp, htail⟩
      have hafter : size name < size (name ++ '[' :: inner) := by
        have : '['.utf8Size = 1 := rfl
        rw [size_append, size_cons]
        omega
      have hfront := front?_append name ('[' :: (inner ++ ']' :: tail))
      have hmiddle : middle? (size name + 1) (size (name ++ '[' :: inner))
          (name ++ '[' :: (inner ++ ']' :: tail)) = some inner := by
        have hone : '['.utf8Size = 1 := rfl
        simpa [hone, Nat.add_assoc] using middle?_append (name ++ ['[']) inner (']' :: tail)
      have hback : back? (size (name ++ '[' :: inner) + 1) (name ++ '[' :: (inner ++ ']' :: tail)) =
          some tail := by
        simpa using back?_append_cons (name ++ '[' :: inner) tail (by rfl : ']'.utf8Size = 1)
      simp only [Option.map_some, hclosing, Option.filter_some, decide_eq_true hafter, if_true,
        hfront, hmiddle, hback, hlast]
      rfl
    | none =>
      -- the last bracket that closes, if there is one, comes too early and is filtered out
      have habsent := cutLast_eq_none_iff.1 hlast
      have hnone : ((cutLast ']' (name ++ '[' :: rest)).map fun (front, _) => size front).filter
          (size name < ·) = none := by
        cases hclosing : cutLast ']' (name ++ '[' :: rest) with
        | none => rfl
        | some parts =>
          obtain ⟨front, after⟩ := parts
          have hle := size_le_of_notMem habsent (cutLast_eq_some_iff.1 hclosing).1
          simp only [Option.map_some, Option.filter_some]
          rw [if_neg]
          simpa using hle
      simp only [Option.map_some, hnone, hlast]
      rfl

/-- A message id, and whether the sender wrote it badly. -/
def messageId (cs : List Char) : Option (List Char × Bool) :=
  if cs.isEmpty then some ([], true)
  else
    match after? ['<'] cs with
    | none => some (cs, false)
    | some inner =>
      match find? '>' inner with
      | none => some (inner, true)
      | some n => do return (← front? n inner, n + 1 != size inner)

theorem messageId_eq (cs : List Char) : messageId cs = some (Cleanup.messageId cs) := by
  match cs with
  | [] => rfl
  | c :: inner =>
    by_cases hc : c = '<'
    · subst hc
      unfold messageId Cleanup.messageId
      simp only [after?, find?_eq, List.isEmpty_cons, Bool.false_eq_true, if_false, if_true]
      cases hcut : cutAt '>' inner with
      | none => rfl
      | some parts =>
        obtain ⟨id, rest⟩ := parts
        obtain ⟨rfl, -⟩ := cutAt_eq_some_iff.1 hcut
        have hsize : (size id + 1 != size (id ++ '>' :: rest)) = !rest.isEmpty := by
          have hone : '>'.utf8Size = 1 := rfl
          have hempty : size rest = 0 ↔ rest = [] := size_eq_zero_iff
          rw [Bool.eq_iff_iff, bne_iff_ne, size_append, size_cons, hone, Bool.not_eq_true',
            List.isEmpty_eq_false_iff, ne_eq, ne_eq, ← hempty]
          omega
        simp only [Option.map_some, front?_append, hsize]
        rfl
    · unfold messageId Cleanup.messageId
      simp [after?, Ne.symm hc, hc]

/-- The value at the start of a report's field, in quotes, in angle brackets or bare up to a comma. -/
def value (cs : List Char) : Option (Except LineFault (List Char × List Char)) :=
  if (after? ['"'] cs).isSome then (quoted? cs).map (RelayedBounce.need .unterminatedQuote)
  else if (after? ['<'] cs).isSome then (angle? cs).map (RelayedBounce.need .unterminatedAddress)
  else (cut ((find? ',' cs).getD (size cs)) cs).map .ok

theorem cut_comma (cs : List Char) : cut ((find? ',' cs).getD (size cs)) cs =
    some (cs.takeWhile (· ≠ ','), cs.dropWhile (· ≠ ',')) := by
  rw [find?_eq]
  cases hcut : cutAt ',' cs with
  | none =>
    have habsent := cutAt_eq_none_iff.1 hcut
    have hall : ∀ c ∈ cs, decide (c ≠ ',') = true := by grind
    rw [List.takeWhile_eq_self_iff.2 hall, List.dropWhile_eq_nil_iff.2 hall]
    have h := cut_size_append cs []
    rwa [List.append_nil] at h
  | some parts =>
    obtain ⟨front, rest⟩ := parts
    obtain ⟨rfl, habsent⟩ := cutAt_eq_some_iff.1 hcut
    have hall : ∀ c ∈ front, decide (c ≠ ',') = true := by grind
    rw [List.takeWhile_append_of_pos hall, List.dropWhile_append_of_pos hall]
    simp

theorem value_eq (cs : List Char) : value cs = some (RelayedBounce.value cs) := by
  unfold value
  rw [quoted?_eq, angle?_eq, cut_comma]
  unfold RelayedBounce.value
  cases cs with
  | nil => rfl
  | cons c cs =>
    by_cases hquote : c = '"'
    · subst hquote
      rfl
    by_cases hangle : c = '<'
    · subst hangle
      rfl
    simp [after?, Ne.symm hquote, Ne.symm hangle, hquote, hangle]

/-! ## Headers -/

/-- The header at the start of a text, with the text after it. -/
def header? (cs : List Char) : Option (Option (Header × List Char)) :=
  match cutAt ' ' cs with
  | none => some none
  | some (host, rest) =>
    if host.isEmpty then some none
    else
      match find? ':' rest with
      | none => some none
      | some n => do
        let (tag, after) ← cut n rest
        let payload ← back? 1 after
        return (Header.textAfterColon? payload).bind fun text =>
          (Header.ofTag? host tag).map (·, text)

theorem header?_eq (cs : List Char) : header? cs = some (Header.take? cs) := by
  unfold header? Header.take?
  cases cutAt ' ' cs with
  | none => rfl
  | some parts =>
    obtain ⟨host, rest⟩ := parts
    simp only [Option.bind_eq_bind, Option.bind_some]
    split
    · rfl
    rw [find?_eq]
    cases hcut : cutAt ':' rest with
    | none => rfl
    | some parts =>
      obtain ⟨tag, payload⟩ := parts
      obtain ⟨rfl, -⟩ := cutAt_eq_some_iff.1 hcut
      have hback : back? 1 (':' :: payload) = some payload := back?_append_cons [] payload rfl
      simp only [Option.map_some, cut_size_append, Option.bind_some, hback]
      cases Header.textAfterColon? payload with
      | none => rfl
      | some text => cases Header.ofTag? host tag <;> rfl

/-! ## Times -/

theorem isAscii_of_natural? {cs : List Char} {n : Nat} (h : natural? cs = some n) : IsAscii cs :=
  fun c hc => toNat_le_of_isDigit (isDigit_of_natural? h c hc)

theorem ne_colon_of_natural? {cs : List Char} {n : Nat} (h : natural? cs = some n) :
    ∀ c ∈ cs, (c == ':') = false := by
  intro c hc
  have hdigit := isDigit_of_natural? h c hc
  rw [beq_eq_false_iff_ne]
  rintro rfl
  exact absurd hdigit (by decide)

/-- The hour, the minute and the second of a time of day, in two octets each. -/
def timeOfDay? (clock : List Char) : Option (Nat × Nat × Nat) :=
  match pieces (· == ':') clock with
  | [hour, minute, second] =>
    if size hour = 2 ∧ size minute = 2 ∧ size second = 2 then
      return (← natural? hour, ← natural? minute, ← natural? second)
    else none
  | _ => none

theorem eq_of_pieces_eq_three {clock hour minute second : List Char}
    (h : pieces (· == ':') clock = [hour, minute, second]) :
    clock = hour ++ ':' :: (minute ++ ':' :: second) := by
  obtain ⟨c, rest, rfl, hc, hrest⟩ := eq_append_of_pieces_eq_cons_cons h
  obtain ⟨d, last, rfl, hd, hlast⟩ := eq_append_of_pieces_eq_cons_cons hrest
  rw [eq_of_pieces_eq_singleton hlast, eq_of_beq hc, eq_of_beq hd]

/-- Two numbers apart by colons are the pieces between them. -/
theorem pieces_colon {h₁ h₂ i₁ i₂ s₁ s₂ : Char} {hour minute second : Nat}
    (hhour : natural? [h₁, h₂] = some hour) (hminute : natural? [i₁, i₂] = some minute)
    (hsecond : natural? [s₁, s₂] = some second) :
    pieces (· == ':') [h₁, h₂, ':', i₁, i₂, ':', s₁, s₂] = [[h₁, h₂], [i₁, i₂], [s₁, s₂]] := by
  have hlast := pieces_of_forall (ne_colon_of_natural? hsecond)
  have hmiddle := pieces_append_cons (ne_colon_of_natural? hminute) (beq_self_eq_true ':') [s₁, s₂]
  have hfirst := pieces_append_cons (ne_colon_of_natural? hhour) (beq_self_eq_true ':')
    ([i₁, i₂] ++ ':' :: [s₁, s₂])
  rw [hmiddle, hlast] at hfirst
  exact hfirst

theorem timeOfDay?_eq {h₁ h₂ x i₁ i₂ y s₁ s₂ : Char}
    (hascii : IsAscii [h₁, h₂, x, i₁, i₂, y, s₁, s₂]) :
    timeOfDay? [h₁, h₂, x, i₁, i₂, y, s₁, s₂] =
      if x = ':' ∧ y = ':' then
        return (← twoDigits? h₁ h₂, ← twoDigits? i₁ i₂, ← twoDigits? s₁ s₂)
      else none := by
  have hpart (part : List Char) (hpart : ∀ c ∈ part, c ∈ [h₁, h₂, x, i₁, i₂, y, s₁, s₂]) :
      size part = part.length := IsAscii.size_eq fun c hc => hascii c (hpart c hc)
  by_cases hthree : pieces (· == ':') [h₁, h₂, x, i₁, i₂, y, s₁, s₂] =
      [[h₁, h₂], [i₁, i₂], [s₁, s₂]]
  · cases eq_of_pieces_eq_three hthree
    unfold timeOfDay?
    rw [hthree, if_pos ⟨rfl, rfl⟩]
    dsimp only
    rw [if_pos]
    · rfl
    · refine ⟨hpart _ ?_, hpart _ ?_, hpart _ ?_⟩ <;> simp
  · -- three pieces of two octets each can only be the three numbers, so there are none
    have hleft : timeOfDay? [h₁, h₂, x, i₁, i₂, y, s₁, s₂] = none := by
      unfold timeOfDay?
      split
      · rename_i hour minute second hpieces
        rw [if_neg]
        rintro ⟨hhour, hminute, hsecond⟩
        have hclock := eq_of_pieces_eq_three hpieces
        rw [hpart hour (by simp [hclock]; grind)] at hhour
        rw [hpart minute (by simp [hclock]; grind)] at hminute
        rw [hpart second (by simp [hclock]; grind)] at hsecond
        match hour, hhour, minute, hminute, second, hsecond with
        | [_, _], _, [_, _], _, [_, _], _ =>
          cases hclock
          exact hthree hpieces
      · rfl
    rw [hleft]
    split
    · rename_i hcolons
      obtain ⟨rfl, rfl⟩ := hcolons
      cases hhour : twoDigits? h₁ h₂ with
      | none => rfl
      | some hour =>
        cases hminute : twoDigits? i₁ i₂ with
        | none => rfl
        | some minute =>
          cases hsecond : twoDigits? s₁ s₂ with
          | none => rfl
          | some second => exact absurd (pieces_colon hhour hminute hsecond) hthree
    · rfl

/-- A time without a year. -/
def syslogTime? (cs : List Char) : Option (Option SyslogTime) :=
  if size cs ≠ 15 ∨ ¬ IsAscii cs then some none
  else do
    let month ← front? 3 cs
    let gap ← middle? 3 4 cs
    let day ← middle? 4 6 cs
    let gap' ← middle? 6 7 cs
    let clock ← back? 7 cs
    return do
      let month ← Month.ofName? (String.ofList month)
      if gap ≠ [' '] ∨ gap' ≠ [' '] then none
      else
        let day ← natural? (trimStart day)
        let (hour, minute, second) ← timeOfDay? clock
        return ⟨month, day, hour, minute, second⟩

theorem isAscii_of_read? {cs : List Char} {t : SyslogTime} (h : SyslogTime.read? cs = some t) :
    cs.length = 15 ∧ IsAscii cs := by
  unfold SyslogTime.read? at h
  split at h
  · rename_i m₁ m₂ m₃ d₁ d₂ h₁ h₂ i₁ i₂ s₁ s₂
    refine ⟨rfl, ?_⟩
    split at h
    · cases h
    rename_i hd₁
    simp only [Option.bind_eq_bind, Option.bind_eq_some_iff] at h
    obtain ⟨month, hmonth, day, hday, hour, hhour, minute, hminute, second, hsecond, -⟩ := h
    have hname : IsAscii [m₁, m₂, m₃] := by
      have hchars : month.name.toList = [m₁, m₂, m₃] := by
        rw [SyslogTime.name_of_ofName? hmonth, String.toList_ofList]
      rw [← hchars]
      cases month <;> decide
    have hd₂ := toNat_le_of_isDigit (isDigit_of_natural?_trimStart hday)
    have hh := isAscii_of_natural? hhour
    have hi := isAscii_of_natural? hminute
    have hs := isAscii_of_natural? hsecond
    have hblank : ' '.toNat ≤ 0x7F := by decide
    have hcolon : ':'.toNat ≤ 0x7F := by decide
    simp only [IsAscii, List.forall_mem_cons, List.not_mem_nil, false_implies, implies_true,
      and_true] at hname hh hi hs ⊢
    exact ⟨hname.1, hname.2.1, hname.2.2, hblank, Nat.not_lt.1 hd₁, hd₂, hblank, hh.1, hh.2, hcolon,
      hi.1, hi.2, hcolon, hs.1, hs.2⟩
  · cases h

section Chars

variable {m₁ m₂ m₃ g d₁ d₂ g' h₁ h₂ x i₁ i₂ y s₁ s₂ : Char}

theorem read?_eq_none (hform : ¬ (g = ' ' ∧ g' = ' ' ∧ x = ':' ∧ y = ':')) :
    SyslogTime.read? [m₁, m₂, m₃, g, d₁, d₂, g', h₁, h₂, x, i₁, i₂, y, s₁, s₂] = none := by
  unfold SyslogTime.read?
  split
  · rename_i heq
    cases heq
    exact absurd ⟨rfl, rfl, rfl, rfl⟩ hform
  · rfl

theorem syslogTime?_of_isAscii
    (hascii : IsAscii [m₁, m₂, m₃, g, d₁, d₂, g', h₁, h₂, x, i₁, i₂, y, s₁, s₂]) :
    syslogTime? [m₁, m₂, m₃, g, d₁, d₂, g', h₁, h₂, x, i₁, i₂, y, s₁, s₂] =
      some (SyslogTime.read? [m₁, m₂, m₃, g, d₁, d₂, g', h₁, h₂, x, i₁, i₂, y, s₁, s₂]) := by
  have hsize : size [m₁, m₂, m₃, g, d₁, d₂, g', h₁, h₂, x, i₁, i₂, y, s₁, s₂] = 15 := hascii.size_eq
  have hclock : IsAscii [h₁, h₂, x, i₁, i₂, y, s₁, s₂] := fun c hc =>
    hascii c (List.mem_of_mem_drop (i := 7) hc)
  have hday : ¬ 0x7F < d₁.toNat := Nat.not_lt.2 (hascii d₁ (by simp))
  unfold syslogTime?
  rw [if_neg (by simp [hsize, hascii]), hascii.front?_eq (by simp), hascii.back?_eq (by simp),
    hascii.middle?_eq (by simp) (by simp), hascii.middle?_eq (by simp) (by simp),
    hascii.middle?_eq (by simp) (by simp)]
  simp only [List.take, List.drop, Option.bind_eq_bind, Option.bind_some, timeOfDay?_eq hclock]
  by_cases hform : g = ' ' ∧ g' = ' ' ∧ x = ':' ∧ y = ':'
  · obtain ⟨rfl, rfl, rfl, rfl⟩ := hform
    simp [SyslogTime.read?, hday, Option.bind_assoc]
  · rw [read?_eq_none hform]
    refine congrArg some ?_
    cases Month.ofName? (String.ofList [m₁, m₂, m₃]) with
    | none => rfl
    | some month =>
      simp only [Option.bind_some]
      split
      · rfl
      · rename_i hgaps
        have hcolons : ¬ (x = ':' ∧ y = ':') := by
          simp only [ne_eq, not_or, not_not, List.cons.injEq, and_true] at hgaps
          exact fun h => hform ⟨hgaps.1, hgaps.2, h.1, h.2⟩
        rw [if_neg hcolons]
        cases natural? (trimStart [d₁, d₂]) <;> rfl

end Chars

theorem syslogTime?_eq (cs : List Char) : syslogTime? cs = some (SyslogTime.read? cs) := by
  by_cases hform : size cs = 15 ∧ IsAscii cs
  · obtain ⟨hsize, hascii⟩ := hform
    have hlength : cs.length = 15 := by rw [← hascii.size_eq, hsize]
    clear hsize
    match cs, hlength with
    | [_, _, _, _, _, _, _, _, _, _, _, _, _, _, _], _ => exact syslogTime?_of_isAscii hascii
  · unfold syslogTime?
    rw [if_pos (not_and_or.1 hform)]
    cases hread : SyslogTime.read? cs with
    | none => rfl
    | some t =>
      obtain ⟨hlength, hascii⟩ := isAscii_of_read? hread
      exact absurd ⟨hascii.size_eq.trans hlength, hascii⟩ hform

/-- The time without a year at the start of a line, with the rest after it. -/
def takeSyslogTime (line : List Char) : Option (Except LineFault (SyslogTime × List Char)) :=
  let line := line.dropWhile (· == '\x00')
  if size line < SyslogTime.width ∨ ¬ Boundary SyslogTime.width line then some (.error .header)
  else do
    let (head, rest) ← cut SyslogTime.width line
    match before? [' '] head with
    | none => some (.error .header)
    | some text => do
      let time ← syslogTime? text
      return (require (.time (String.ofList text)) time).map (·, rest)

theorem takeSyslogTime_eq (line : List Char) :
    takeSyslogTime line = some (Line.takeSyslogTime line) := by
  unfold takeSyslogTime Line.takeSyslogTime
  generalize line.dropWhile (· == '\x00') = line
  dsimp only
  cases hcut : cut SyslogTime.width line with
  | none =>
    have hinside : ¬ Boundary SyslogTime.width line := by simp [← isSome_cut_iff, hcut]
    rw [if_pos (.inr hinside)]
    rfl
  | some parts =>
    obtain ⟨head, rest⟩ := parts
    have hboundary : Boundary SyslogTime.width line := ⟨head, rest, cut_eq_some_iff.1 hcut⟩
    rw [if_neg (not_or.2 ⟨Nat.not_lt.2 hboundary.le_size, not_not.2 hboundary⟩)]
    simp only [Option.bind_eq_bind, Option.bind_some, syslogTime?_eq, require_some]
    cases hbefore : before? [' '] head with
    | none => simp [hbefore, bind, Except.bind]
    | some text =>
      cases hread : SyslogTime.read? text <;>
        simp [hbefore, hread, bind, Except.bind, Except.map, pure, Except.pure]

/-- The time with a year at the start of a line, with the rest after it. -/
def takeClockTime (line : List Char) : Option (Except LineFault (Instant × List Char)) :=
  match cutAt ' ' line with
  | none => some (.error .header)
  | some (token, rest) =>
    if size token < Line.clockWidth ∨ ¬ Boundary Line.clockWidth token then
      some (.error (.time (String.ofList token)))
    else do
      let text ← front? Line.clockWidth token
      return (require .impossibleTime (Clock.read? text)).map (·.instant, rest)

theorem takeClockTime_eq (line : List Char) :
    takeClockTime line = some (Line.takeClockTime line) := by
  unfold takeClockTime Line.takeClockTime
  cases hline : cutAt ' ' line with
  | none => rfl
  | some parts =>
    obtain ⟨token, rest⟩ := parts
    dsimp only
    cases hcut : cut Line.clockWidth token with
    | none =>
      have hinside : ¬ Boundary Line.clockWidth token := by simp [← isSome_cut_iff, hcut]
      rw [if_pos (.inr hinside)]
      simp [hcut, bind, Except.bind]
    | some parts =>
      obtain ⟨text, more⟩ := parts
      have hboundary : Boundary Line.clockWidth token := ⟨text, more, cut_eq_some_iff.1 hcut⟩
      rw [if_neg (not_or.2 ⟨Nat.not_lt.2 hboundary.le_size, not_not.2 hboundary⟩)]
      unfold front?
      cases hread : Clock.read? text <;>
        simp [hcut, hread, bind, Except.bind, Except.map, pure, Except.pure]

end Offsets

/-- Every cut at an offset is between two characters of its text. -/
structure CutsInside : Prop where
  takeSyslogTime : ∀ line, Offsets.takeSyslogTime line = some (Line.takeSyslogTime line)
  takeClockTime : ∀ line, Offsets.takeClockTime line = some (Line.takeClockTime line)
  header : ∀ cs, Offsets.header? cs = some (Header.take? cs)
  between : ∀ start stop cs, Offsets.between start stop cs = some (Text.between start stop cs)
  angle : ∀ cs, Offsets.angle? cs = some (Field.angle? cs)
  quoted : ∀ cs, Offsets.quoted? cs = some (Field.quoted? cs)
  client : ∀ cs, Offsets.client? cs = some (Field.client? cs)
  relay : ∀ cs, Offsets.readRelay cs = some (Attempt.readRelay cs)
  messageId : ∀ cs, Offsets.messageId cs = some (Cleanup.messageId cs)
  value : ∀ cs, Offsets.value cs = some (RelayedBounce.value cs)

/-- **Reading by offsets never cuts outside of a text or inside of a character**, and takes from it
what the reading of lines takes. -/
theorem cutsInside : CutsInside where
  takeSyslogTime := Offsets.takeSyslogTime_eq
  takeClockTime := Offsets.takeClockTime_eq
  header := Offsets.header?_eq
  between := Offsets.between_eq
  angle := Offsets.angle?_eq
  quoted := Offsets.quoted?_eq
  client := Offsets.client?_eq
  relay := Offsets.readRelay_eq
  messageId := Offsets.messageId_eq
  value := Offsets.value_eq

end MailTrace
