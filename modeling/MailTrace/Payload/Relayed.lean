import MailTrace.Line.Fault
import MailTrace.Line.Field

/-!
# Reports of bounces at later hosts

A filter reports a bounce as fields in any order, after the queue id of the report or the word
`Bounce`: `code="5.1.1", sender=<s>, recipient=<r>, mta="m", message="t"`.
-/

namespace MailTrace.RelayedBounce

open MailTrace.Text MailTrace.Field

/-- The refusal of a text that began like a report. -/
def refuse {α : Type} (defect : Defect) : Except LineFault α := .error (.payload .relay defect)

/-- The value of an option, or the defect of a text that began like a report. -/
def need {α : Type} (defect : Defect) (value : Option α) : Except LineFault α :=
  require (.payload .relay defect) value

/-- The value at the start, in quotes, in angle brackets or bare up to a comma. -/
def value (cs : List Char) : Except LineFault (List Char × List Char) :=
  match cs with
  | '"' :: _ => need .unterminatedQuote (quoted? cs)
  | '<' :: _ => need .unterminatedAddress (angle? cs)
  | _ => .ok (cs.takeWhile (· ≠ ','), cs.dropWhile (· ≠ ','))

/-- What follows the comma after a value, or nothing at the end. -/
def next (cs : List Char) : Except LineFault (List Char) :=
  match cs with
  | [] => .ok []
  | ',' :: rest => .ok (trimStart rest)
  | _ => refuse (.trailing (String.ofList cs))

/-- The first field, and the text from the next one on. -/
def field (cs : List Char) : Except LineFault ((List Char × List Char) × List Char) := do
  let (key, rest) ← need (.expectedField (String.ofList cs)) (cutAt '=' cs)
  let (value, rest) ← value rest
  return ((key, value), ← next rest)

theorem length_untilAngle {quoted : Bool} {cs inner rest : List Char}
    (h : untilAngle quoted cs = some (inner, rest)) : rest.length < cs.length := by
  induction cs generalizing quoted inner with
  | nil => simp [untilAngle] at h
  | cons c cs ih =>
    rw [untilAngle] at h
    split at h
    · simp only [Option.some.injEq, Prod.mk.injEq] at h
      simp [h.2]
    · simp only [Option.map_eq_some_iff, Prod.exists, Prod.mk.injEq] at h
      obtain ⟨a, b, hab, _, rfl⟩ := h
      have := ih hab
      simp only [List.length_cons]
      omega

theorem length_untilQuote {cs inner rest : List Char} (h : untilQuote cs = some (inner, rest)) :
    rest.length < cs.length := by
  fun_induction untilQuote cs generalizing inner rest with
  | case1 => simp at h
  | case2 => simp at h
  | case3 c cs ih =>
    simp only [Option.map_eq_some_iff, Prod.exists, Prod.mk.injEq] at h
    obtain ⟨a, b, hab, _, rfl⟩ := h
    have := ih hab
    simp only [List.length_cons]
    omega
  | case4 c cs =>
    simp only [Option.some.injEq, Prod.mk.injEq] at h
    simp [h.2]
  | case5 c cs _ _ _ ih =>
    simp only [Option.map_eq_some_iff, Prod.exists, Prod.mk.injEq] at h
    obtain ⟨a, b, hab, _, rfl⟩ := h
    have := ih hab
    simp only [List.length_cons]
    omega

theorem length_value {cs inner rest : List Char} (h : value cs = .ok (inner, rest)) :
    rest.length ≤ cs.length := by
  unfold value at h
  split at h
  · rename_i tail
    cases hq : untilQuote tail with
    | none => simp [need, quoted?, hq] at h
    | some p =>
      simp only [need, quoted?, hq, require_some, Except.ok.injEq] at h
      have := length_untilQuote (h ▸ hq)
      simp only [List.length_cons]
      omega
  · rename_i tail
    cases hq : untilAngle false tail with
    | none => simp [need, angle?, hq] at h
    | some p =>
      simp only [need, angle?, hq, require_some, Except.ok.injEq] at h
      have := length_untilAngle (h ▸ hq)
      simp only [List.length_cons]
      omega
  · simp only [Except.ok.injEq, Prod.mk.injEq] at h
    rw [← h.2]
    exact (List.dropWhile_suffix _).length_le

theorem length_next {cs rest : List Char} (h : next cs = .ok rest) : rest.length ≤ cs.length := by
  unfold next at h
  split at h
  · simp only [Except.ok.injEq] at h
    simp [← h]
  · rename_i tail
    simp only [Except.ok.injEq] at h
    have : (trimStart tail).length ≤ tail.length := (List.dropWhile_suffix _).length_le
    simp only [← h, List.length_cons]
    omega
  · simp [refuse] at h

theorem length_field {cs rest : List Char} {kv : List Char × List Char}
    (h : field cs = .ok (kv, rest)) : rest.length < cs.length := by
  unfold field at h
  cases hc : cutAt '=' cs with
  | none => simp [need, hc, bind, Except.bind] at h
  | some p =>
    obtain ⟨key, tail⟩ := p
    simp only [need, hc, require_some, bind, Except.bind] at h
    cases hv : value tail with
    | error e => simp [hv] at h
    | ok q =>
      obtain ⟨v, tail'⟩ := q
      simp only [hv] at h
      cases hn : next tail' with
      | error e => simp [hn] at h
      | ok r =>
        simp only [hn, pure, Except.pure, Except.ok.injEq, Prod.mk.injEq] at h
        have h₁ := (cutAt_eq_some_iff.1 hc).1
        have h₂ := length_value hv
        have h₃ := length_next hn
        rw [← h.2, h₁]
        simp only [List.length_append, List.length_cons]
        omega

/-- The fields of a text, in order. -/
def fields (cs : List Char) : Except LineFault (List (List Char × List Char)) :=
  if cs.isEmpty then .ok []
  else
    match h : field cs with
    | .error e => .error e
    | .ok (kv, rest) =>
      have : rest.length < cs.length := length_field h
      (fields rest).map (kv :: ·)
termination_by cs.length

/-- The report with one more field. A later value of a key takes the place of an earlier one, and an
unknown key changes nothing. -/
def set (b : RelayedBounce) (kv : List Char × List Char) : RelayedBounce :=
  match String.ofList kv.1 with
  | "code" => { b with dsn := String.ofList kv.2 }
  | "sender" => { b with sender := Address.ofChars kv.2 }
  | "recipient" => { b with recipient := Address.ofChars kv.2 }
  | "mta" => { b with reportingMta := String.ofList kv.2 }
  | "message" => { b with message := String.ofList kv.2 }
  | _ => b

/-- A report without fields. -/
def blank (queue : Option String) : RelayedBounce := ⟨queue, "", .null, .null, "", ""⟩

/-- The queue id before the fields, or none after the word for a bounce. -/
def start (cs : List Char) : Option (Option String × List Char) :=
  match after? "Bounce: ".toList cs with
  | some rest => some (none, rest)
  | none => (queue? cs).map fun (queue, rest) => (some queue, rest)

/-- A report, which has to say at least its code and its recipient. -/
def read (cs : List Char) : Except LineFault RelayedBounce := do
  let (queue, rest) ← require .unsupported (start cs)
  let b := (← fields rest).foldl set (blank queue)
  if b.dsn.isEmpty || b.recipient.isNull then refuse .missingCodeOrRecipient else return b

end MailTrace.RelayedBounce
