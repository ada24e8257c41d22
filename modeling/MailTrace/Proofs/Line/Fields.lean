import MailTrace.Line.Field
import MailTrace.Proofs.Text.Searches

/-!
# Fields, written

The parts of a text are read back from what is written of them, whatever follows: a queue id, an
address in angle brackets, a named value. An address is written bare or with its local part in double
quotes, and between quotes the bracket that closes other addresses is a character like any other.
-/

namespace MailTrace

open MailTrace.Text

/-! ## Addresses -/

namespace Address

variable {quoted : Bool} {a : Address}

/-- A local part, in double quotes or bare. -/
def writeLocal (quoted : Bool) (a : Address) : List Char :=
  if quoted then '"' :: (a.localPart.toList ++ ['"']) else a.localPart.toList

/-- An address as it stands in angle brackets. -/
def write (quoted : Bool) (a : Address) : List Char :=
  a.writeLocal quoted ++ if a.domain = "" then [] else '@' :: a.domain.toList

/-- An address can be told from what is written of it. -/
structure Writable (quoted : Bool) (a : Address) : Prop where
  local_quote : '"' ∉ a.localPart.toList
  domain_quote : '"' ∉ a.domain.toList
  domain_at : '@' ∉ a.domain.toList
  domain_angle : '>' ∉ a.domain.toList
  local_angle : quoted = false → '>' ∉ a.localPart.toList
  local_at : a.domain = "" → '@' ∉ a.localPart.toList

theorem unquote_of_notMem {cs : List Char} (h : '"' ∉ cs) : unquote cs = cs := by
  unfold unquote
  split
  · exact absurd List.mem_cons_self h
  · rfl

theorem unquote_writeLocal (h : '"' ∉ a.localPart.toList) :
    unquote (a.writeLocal quoted) = a.localPart.toList := by
  unfold writeLocal
  split
  · have hclosed : before? ['"'] (a.localPart.toList ++ ['"']) = some a.localPart.toList :=
      before?_eq_some_iff.2 rfl
    show (before? ['"'] (a.localPart.toList ++ ['"'])).getD _ = _
    rw [hclosed]
    rfl
  · exact unquote_of_notMem h

/-- **An address is regained from what is written of it.** -/
theorem ofChars_write (h : a.Writable quoted) : ofChars (a.write quoted) = a := by
  unfold ofChars write
  by_cases hdomain : a.domain = ""
  · have hat : '@' ∉ a.writeLocal quoted := by
      unfold writeLocal
      split
      · simp [h.local_at hdomain]
      · exact h.local_at hdomain
    rw [if_pos hdomain, List.append_nil, cutLast_eq_none_iff.2 hat]
    simp only [unquote_writeLocal h.local_quote, String.ofList_toList, ← hdomain]
  · rw [if_neg hdomain, cutLast_eq_some_iff.2 ⟨rfl, h.domain_at⟩]
    simp only [unquote_writeLocal h.local_quote, String.ofList_toList]

/-- The texts for an address without quotes: both parts with an at sign between them, or a local part
alone. -/
inductive Spelled : Address → List Char → Prop where
  | whole {localPart domain : String} (hlocal : ∀ c ∈ localPart.toList, c ≠ '"' ∧ c ≠ '>')
    (hdomain : ∀ c ∈ domain.toList, c ≠ '"' ∧ c ≠ '>') (hat : '@' ∉ domain.toList) :
    Spelled ⟨localPart, domain⟩ (localPart.toList ++ '@' :: domain.toList)
  | bare {localPart : String} (hlocal : ∀ c ∈ localPart.toList, c ≠ '"' ∧ c ≠ '>')
    (hat : '@' ∉ localPart.toList) : Spelled ⟨localPart, ""⟩ localPart.toList

theorem Spelled.forall {text : List Char} (h : a.Spelled text) : ∀ c ∈ text, c ≠ '"' ∧ c ≠ '>' := by
  cases h with
  | whole hlocal hdomain hat =>
    exact List.forall_mem_append.2 ⟨hlocal, List.forall_mem_cons.2 ⟨by decide, hdomain⟩⟩
  | bare hlocal hat => exact hlocal

theorem ofChars_of_spelled {text : List Char} (h : a.Spelled text) : ofChars text = a := by
  unfold ofChars
  cases h with
  | whole hlocal hdomain hat =>
    rw [cutLast_eq_some_iff.2 ⟨rfl, hat⟩]
    simp only [unquote_of_notMem fun hmem => (hlocal _ hmem).1 rfl, String.ofList_toList]
  | bare hlocal hat =>
    rw [cutLast_eq_none_iff.2 hat]
    simp only [unquote_of_notMem fun hmem => (hlocal _ hmem).1 rfl, String.ofList_toList]

end Address

namespace Field

/-- What opens no quotes and closes no bracket belongs to the address. -/
theorem untilAngle_append {quoted : Bool} {front : List Char}
    (h : ∀ c ∈ front, c ≠ '"' ∧ (quoted = false → c ≠ '>')) (rest : List Char) :
    untilAngle quoted (front ++ rest) =
      (untilAngle quoted rest).map fun (inner, after) => (front ++ inner, after) := by
  induction front with
  | nil => simp
  | cons c front ih =>
    obtain ⟨⟨hquote, hangle⟩, hfront⟩ := List.forall_mem_cons.1 h
    have hopen : ¬ (c = '>' && !quoted) = true := by
      cases quoted with
      | true => simp
      | false => simp [hangle rfl]
    rw [List.cons_append, untilAngle, if_neg hopen, if_neg hquote, ih hfront, Option.map_map]
    rfl

theorem untilAngle_quote (quoted : Bool) (rest : List Char) :
    untilAngle quoted ('"' :: rest) =
      (untilAngle (!quoted) rest).map fun (inner, after) => ('"' :: inner, after) := rfl

theorem untilAngle_writeLocal {quoted : Bool} {a : Address} (h : a.Writable quoted)
    (rest : List Char) :
    untilAngle false (a.writeLocal quoted ++ rest) =
      (untilAngle false rest).map fun (inner, after) => (a.writeLocal quoted ++ inner, after) := by
  have hquote (c : Char) (hc : c ∈ a.localPart.toList) : c ≠ '"' :=
    fun e => h.local_quote (e ▸ hc)
  cases quoted with
  | false =>
    exact untilAngle_append (fun c hc => ⟨hquote c hc, fun _ e => h.local_angle rfl (e ▸ hc)⟩) rest
  | true =>
    have hinner : ∀ c ∈ a.localPart.toList, c ≠ '"' ∧ (true = false → c ≠ '>') :=
      fun c hc => ⟨hquote c hc, fun hfalse => absurd hfalse (by decide)⟩
    have hsplit : a.writeLocal true ++ rest = '"' :: (a.localPart.toList ++ '"' :: rest) := by
      simp [Address.writeLocal]
    rw [hsplit, untilAngle_quote, Bool.not_false, untilAngle_append hinner, untilAngle_quote,
      Bool.not_true, Option.map_map, Option.map_map]
    simp [Function.comp_def, Address.writeLocal]

theorem address?_write {quoted : Bool} {a : Address} (h : a.Writable quoted) (rest : List Char) :
    address? ('<' :: (a.write quoted ++ '>' :: rest)) = some (a, rest) := by
  have hdomain : ∀ c ∈ (if a.domain = "" then [] else '@' :: a.domain.toList),
      c ≠ '"' ∧ (false = false → c ≠ '>') := by
    split
    · simp
    · refine List.forall_mem_cons.2 ⟨by decide, fun c hc => ⟨fun e => ?_, fun _ e => ?_⟩⟩
      · exact h.domain_quote (e ▸ hc)
      · exact h.domain_angle (e ▸ hc)
  have hangle : untilAngle false (a.write quoted ++ '>' :: rest) = some (a.write quoted, rest) := by
    unfold Address.write
    rw [List.append_assoc, untilAngle_writeLocal h, untilAngle_append hdomain]
    simp [untilAngle]
  show (untilAngle false (a.write quoted ++ '>' :: rest)).map _ = _
  rw [hangle]
  simp only [Option.map_some, Address.ofChars_write h]

theorem address?_of_spelled {a : Address} {text : List Char} (h : a.Spelled text)
    (rest : List Char) : address? ('<' :: (text ++ '>' :: rest)) = some (a, rest) := by
  have hangle : untilAngle false (text ++ '>' :: rest) = some (text, rest) := by
    rw [untilAngle_append fun c hc => ⟨(h.forall c hc).1, fun _ => (h.forall c hc).2⟩]
    simp [untilAngle]
  show (untilAngle false (text ++ '>' :: rest)).map _ = _
  rw [hangle]
  simp only [Option.map_some, Address.ofChars_of_spelled h]

/-! ## Queue ids and named values -/

theorem queue?_append {queue : String} (h : isQueueId queue.toList = true) (rest : List Char) :
    queue? (queue.toList ++ (": ".toList ++ rest)) = some (queue, rest) := by
  have hcolon : ':' ∉ queue.toList := by
    intro hmem
    simp only [isQueueId, Bool.and_eq_true, List.all_eq_true] at h
    exact absurd (h.2 ':' hmem) (by decide)
  have hcut : cutText [':', ' '] (queue.toList ++ (": ".toList ++ rest)) =
      some (queue.toList, rest) :=
    cutText_append (by decide) (by decide) (not_infix_of_notMem hcolon (by decide))
  unfold queue?
  rw [hcut]
  simp only [h, if_true, String.ofList_toList]

theorem isQueueId_of_queue? {cs rest : List Char} {queue : String}
    (h : queue? cs = some (queue, rest)) : isQueueId queue.toList = true := by
  unfold queue? at h
  split at h
  · split at h
    · rename_i hid
      cases h
      rwa [String.toList_ofList]
    · cases h
  · cases h

/-- The queue id and what follows it can be told apart in one way only. -/
theorem queue_append_inj {queue queue' : String} {rest rest' : List Char}
    (h : isQueueId queue.toList = true) (h' : isQueueId queue'.toList = true)
    (heq : queue.toList ++ (": ".toList ++ rest) = queue'.toList ++ (": ".toList ++ rest')) :
    queue = queue' ∧ rest = rest' := by
  have hsome : some (queue, rest) = some (queue', rest') := by
    rw [← queue?_append h rest, heq, queue?_append h' rest']
  simpa using hsome

/-- A text about a queue does not begin like one in which something else than a colon follows the
first word. -/
theorem after?_queue_eq_none {queue : String} (h : isQueueId queue.toList = true) {start : List Char}
    {c : Char} (hstart : (start.dropWhile isAlphanumeric).head? = some c) (hc : c ≠ ':')
    (rest : List Char) : after? start (queue.toList ++ (": ".toList ++ rest)) = none := by
  refine Option.eq_none_iff_forall_ne_some.2 fun tail htail => hc ?_
  have hid : ∀ c ∈ queue.toList, isAlphanumeric c = true := by
    simp only [isQueueId, Bool.and_eq_true, List.all_eq_true] at h
    exact h.2
  have hqueue : (queue.toList ++ (": ".toList ++ rest)).dropWhile isAlphanumeric =
      ": ".toList ++ rest := by
    rw [List.dropWhile_append_of_pos hid]
    rfl
  rw [after?_eq_some_iff.1 htail, List.dropWhile_append] at hqueue
  cases hdrop : start.dropWhile isAlphanumeric with
  | nil => rw [hdrop] at hstart; cases hstart
  | cons d others =>
    rw [hdrop] at hstart hqueue
    cases hstart
    exact (List.cons.inj hqueue).1

/-- The named value of a field, before what follows it. -/
def writeNamed (name : String) (value rest : List Char) : List Char :=
  (name ++ "=").toList ++ (value ++ (", ".toList ++ rest))

/-- A value ends at the first comma and blank, so it must not hold them. -/
theorem named?_append (name : String) {value : List Char} (h : ¬ ", ".toList <:+: value)
    (rest : List Char) :
    named? name (name.toList ++ (value ++ (", ".toList ++ rest))) = some (value, rest) := by
  have hcut : cutText [',', ' '] (value ++ (", ".toList ++ rest)) = some (value, rest) :=
    cutText_append (by decide) (by decide) h
  unfold named?
  rw [after?_append, Option.map_some, hcut]
  rfl

theorem named?_writeNamed (name : String) {value : List Char} (h : ¬ ", ".toList <:+: value)
    (rest : List Char) :
    named? (name ++ "=") (writeNamed name value rest) = some (value, rest) :=
  named?_append (name ++ "=") h rest

theorem skipComma_append (rest : List Char) : skipComma (", ".toList ++ rest) = rest := by
  show (after? ", ".toList (", ".toList ++ rest)).getD _ = rest
  rw [after?_append]
  rfl

end Field

end MailTrace
