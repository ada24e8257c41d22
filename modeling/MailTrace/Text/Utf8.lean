/-!
# Octets as text

Text is kept as the octets of its UTF-8 form. Reading octets never fails: every maximal run that
starts a character but is no character becomes one replacement character.
-/

namespace MailTrace.Text.Utf8

/-- The character that stands for octets that are no character. -/
def replacement : Char := '\uFFFD'

/-- A character under construction: the octets still missing, the bits read so far, and the range
the next octet has to lie in. -/
structure Pending where
  missing : Nat
  bits : Nat
  low : UInt8
  high : UInt8

/-- What an octet that starts a character announces. -/
inductive Lead where
  | whole (c : Char)
  | opens (p : Pending)
  | bad

/-- The announcement of a first octet. The ranges leave out long forms, surrogates and code points
above `10FFFF`. -/
def Lead.of (b : UInt8) : Lead :=
  if b < 0x80 then .whole (Char.ofNat b.toNat)
  else if b < 0xC2 then .bad
  else if b < 0xE0 then .opens ⟨1, b.toNat - 0xC0, 0x80, 0xBF⟩
  else if b = 0xE0 then .opens ⟨2, 0, 0xA0, 0xBF⟩
  else if b = 0xED then .opens ⟨2, 0xD, 0x80, 0x9F⟩
  else if b < 0xF0 then .opens ⟨2, b.toNat - 0xE0, 0x80, 0xBF⟩
  else if b = 0xF0 then .opens ⟨3, 0, 0x90, 0xBF⟩
  else if b < 0xF4 then .opens ⟨3, b.toNat - 0xF0, 0x80, 0xBF⟩
  else if b = 0xF4 then .opens ⟨3, 4, 0x80, 0x8F⟩
  else .bad

/-- The octet taken as the start of a character: the text it completes and what stays pending. -/
def start (b : UInt8) : List Char × Option Pending :=
  match Lead.of b with
  | .whole c => ([c], none)
  | .opens p => ([], some p)
  | .bad => ([replacement], none)

/-- One more octet after the pending ones. An octet that cannot go on ends the pending run with a
replacement character and starts anew. -/
def step (pending : Option Pending) (b : UInt8) : List Char × Option Pending :=
  match pending with
  | none => start b
  | some p =>
    if p.low ≤ b && b ≤ p.high then
      let bits := p.bits * 64 + (b.toNat - 0x80)
      if p.missing ≤ 1 then ([Char.ofNat bits], none)
      else ([], some ⟨p.missing - 1, bits, 0x80, 0xBF⟩)
    else
      let (out, next) := start b
      (replacement :: out, next)

/-- The text of the octets that follow the pending ones. -/
def decodeFrom (pending : Option Pending) : List UInt8 → List Char
  | [] => if pending.isSome then [replacement] else []
  | b :: bs =>
    let (out, next) := step pending b
    out ++ decodeFrom next bs

/-- The text that octets stand for. -/
def decode (bs : List UInt8) : List Char := decodeFrom none bs

/-- The octets of a text. -/
def encode (cs : List Char) : List UInt8 := cs.flatMap String.utf8EncodeChar

/-- The octets that a text takes. -/
def size : List Char → Nat
  | [] => 0
  | c :: cs => c.utf8Size + size cs

/-- The text cut after its first `n` octets, if a character ends there. -/
def cut (n : Nat) : List Char → Option (List Char × List Char)
  | [] => if n = 0 then some ([], []) else none
  | c :: cs =>
    if n = 0 then some ([], c :: cs)
    else if n < c.utf8Size then none
    else (cut (n - c.utf8Size) cs).map fun (front, rest) => (c :: front, rest)

theorem eq_append_of_cut {n : Nat} {cs front rest : List Char} (h : cut n cs = some (front, rest)) :
    cs = front ++ rest ∧ size front = n := by
  induction cs generalizing n front with
  | nil =>
    rw [cut] at h
    split at h <;> simp_all [size]
  | cons c cs ih =>
    rw [cut] at h
    split at h
    · simp only [Option.some.injEq, Prod.mk.injEq] at h
      simp_all [size, ← h.1]
    · split at h
      · simp at h
      · simp only [Option.map_eq_some_iff, Prod.exists, Prod.mk.injEq] at h
        obtain ⟨a, b, hab, rfl, rfl⟩ := h
        have := ih hab
        simp only [size] at this ⊢
        refine ⟨by simp [this.1], by omega⟩

end MailTrace.Text.Utf8
