import MailTrace.Line.Reading

/-!
# The faults of texts

A text that is not understood never spoils its line: whatever program wrote it, the fault is one that
can be recovered from (`Payload.recoverable_read`). The proof goes through each reader step by step,
by the rules of `FailsWith`.
-/

namespace MailTrace

open MailTrace.Text

/-! ## Computations by their faults -/

/-- Whatever fault a computation ends with has a property. -/
structure FailsWith {α : Type} (P : LineFault → Prop) (x : Except LineFault α) : Prop where
  fault : ∀ f, x = .error f → P f

namespace FailsWith

variable {α β : Type} {P : LineFault → Prop} {x : Except LineFault α} {f : LineFault}

theorem ok (a : α) : FailsWith P (.ok a) := ⟨fun _ h => (by cases h)⟩

theorem error (hf : P f) : FailsWith P (.error f : Except LineFault α) :=
  ⟨fun _ h => (by cases h; exact hf)⟩

theorem require (hf : P f) (o : Option α) : FailsWith P (require f o) := by
  cases o with
  | none => exact .error hf
  | some a => exact .ok a

theorem bind {next : α → Except LineFault β} (hx : FailsWith P x)
    (hnext : ∀ a, FailsWith P (next a)) : FailsWith P (x >>= next) := by
  cases x with
  | error e => exact .error (hx.fault e rfl)
  | ok a => exact hnext a

theorem map (hx : FailsWith P x) (g : α → β) : FailsWith P (x.map g) :=
  hx.bind fun a => .ok (g a)

theorem mapM {xs : List β} {step : β → Except LineFault α} (h : ∀ b, FailsWith P (step b)) :
    FailsWith P (xs.mapM step) := by
  induction xs with
  | nil => exact .ok []
  | cons b xs ih =>
    rw [List.mapM_cons]
    exact (h b).bind fun _ => ih.bind fun _ => .ok _

end FailsWith

/-- Each step of a computation that ends with a value has given one. -/
theorem exists_of_bind_eq_ok {α β : Type} {x : Except LineFault α} {next : α → Except LineFault β}
    {b : β} (h : x >>= next = .ok b) : ∃ a, x = .ok a ∧ next a = .ok b := by
  cases x with
  | error f => cases h
  | ok a => exact ⟨a, rfl, h⟩

theorem eq_some_of_require {α : Type} {fault : LineFault} {o : Option α} {a : α}
    (h : require fault o = .ok a) : o = some a := by
  cases o with
  | none => cases h
  | some b => exact congrArg some (Except.ok.inj h)

/-! ## Texts -/

/-- Every fault of a computation can be recovered from. -/
abbrev Recoverable {α : Type} (x : Except LineFault α) : Prop := FailsWith LineFault.IsRecoverable x

theorem recoverable_unsupported {α : Type} (o : Option α) :
    Recoverable (require .unsupported o) := .require trivial o

theorem recoverable_payload {α : Type} (agent : Agent) (defect : Defect) (o : Option α) :
    Recoverable (require (.payload agent defect) o) := .require trivial o

namespace Attempt

theorem recoverable_takeRecipient (field : String) (cs : List Char) :
    Recoverable (takeRecipient field cs) :=
  (recoverable_payload ..).bind fun _ => .ok _

theorem recoverable_takeOrigRecipient? (cs : List Char) : Recoverable (takeOrigRecipient? cs) := by
  unfold takeOrigRecipient?
  split
  · exact .ok _
  · exact (recoverable_takeRecipient ..).bind fun _ => .ok _

theorem recoverable_relayOf (name inner tail : List Char) :
    Recoverable (relayOf name inner tail) := by
  unfold relayOf
  dsimp only
  split
  · refine (recoverable_payload ..).bind fun port => ?_
    split <;> exact .ok _
  · refine (FailsWith.ok 0).bind fun port => ?_
    split <;> exact .ok _

theorem recoverable_readRelay (cs : List Char) : Recoverable (readRelay cs) := by
  unfold readRelay
  split
  · exact .ok _
  · split
    · exact .ok _
    · refine (recoverable_payload ..).bind fun ⟨inner, tail⟩ => ?_
      exact recoverable_relayOf ..

theorem recoverable_readDelays (cs : List Char) : Recoverable (readDelays cs) := by
  refine .bind (.mapM fun part => recoverable_payload ..) fun parts => ?_
  split
  · exact .ok _
  · exact .error trivial

theorem recoverable_read (cs : List Char) : Recoverable (read cs) := by
  unfold read
  refine (recoverable_unsupported _).bind fun ⟨queue, rest⟩ => ?_
  refine (recoverable_unsupported _).bind fun rest => ?_
  refine (recoverable_takeRecipient ..).bind fun ⟨recipient, rest⟩ => ?_
  refine (recoverable_takeOrigRecipient? _).bind fun ⟨origTo, rest⟩ => ?_
  refine (recoverable_payload ..).bind fun ⟨relayText, rest⟩ => ?_
  refine (recoverable_payload ..).bind fun ⟨delayText, rest⟩ => ?_
  refine (recoverable_payload ..).bind fun ⟨delaysText, rest⟩ => ?_
  refine (recoverable_payload ..).bind fun ⟨dsn, rest⟩ => ?_
  refine (recoverable_payload ..).bind fun rest => ?_
  refine (recoverable_payload ..).bind fun status => ?_
  refine (recoverable_readRelay _).bind fun relay => ?_
  refine (recoverable_payload ..).bind fun delay => ?_
  exact (recoverable_readDelays _).bind fun delays => .ok _

end Attempt

namespace QueueManager

theorem recoverable_queued (queue : String) (sender : Address) (size rest : List Char) :
    Recoverable (queued queue sender size rest) := by
  refine (recoverable_unsupported _).bind fun count => ?_
  refine (recoverable_payload ..).bind fun size => ?_
  exact (recoverable_payload ..).bind fun recipients => .ok _

theorem recoverable_read (cs : List Char) : Recoverable (read cs) := by
  unfold read
  refine (recoverable_unsupported _).bind fun ⟨queue, rest⟩ => ?_
  dsimp only
  split
  · exact .ok _
  refine (recoverable_unsupported _).bind fun rest => ?_
  refine (recoverable_payload ..).bind fun ⟨sender, rest⟩ => ?_
  dsimp only
  split
  · exact (recoverable_queued ..).bind fun _ => .ok _
  · refine (recoverable_unsupported _).bind fun message => ?_
    exact (recoverable_unsupported _).bind fun forced => .ok _

end QueueManager

namespace Server

theorem recoverable_disconnected (cs : List Char) : Recoverable (disconnected cs) := by
  unfold disconnected
  refine (recoverable_payload ..).bind fun client => ?_
  exact .bind (.mapM fun item => recoverable_payload ..) fun counts => .ok _

theorem recoverable_lostConnection (cs : List Char) : Recoverable (lostConnection cs) := by
  refine (recoverable_unsupported _).bind fun ⟨after, name⟩ => ?_
  exact (recoverable_payload ..).bind fun client => .ok _

theorem recoverable_aboutQueue (queue : String) (cs : List Char) :
    Recoverable (aboutQueue queue cs) := by
  unfold aboutQueue
  split
  · exact .ok _
  · refine (recoverable_unsupported _).bind fun rest => ?_
    exact (recoverable_payload ..).bind fun client => .ok _

theorem recoverable_read (cs : List Char) : Recoverable (read cs) := by
  unfold read
  split
  · exact (recoverable_payload ..).bind fun client => .ok _
  dsimp only
  split
  · exact recoverable_disconnected _
  split
  · exact recoverable_lostConnection _
  split
  · exact .ok _
  refine (recoverable_unsupported _).bind fun ⟨queue, rest⟩ => ?_
  exact recoverable_aboutQueue queue rest

end Server

theorem Cleanup.recoverable_read (cs : List Char) : Recoverable (Cleanup.read cs) := by
  refine (recoverable_unsupported _).bind fun ⟨queue, rest⟩ => ?_
  dsimp only
  split
  · exact .ok _
  · exact (recoverable_unsupported _).bind fun reason => .ok _

theorem Pickup.recoverable_read (cs : List Char) : Recoverable (Pickup.read cs) := by
  refine (recoverable_unsupported _).bind fun ⟨queue, rest⟩ => ?_
  refine (recoverable_unsupported _).bind fun rest => ?_
  refine (recoverable_unsupported _).bind fun ⟨uid, rest⟩ => ?_
  refine (recoverable_payload ..).bind fun ⟨sender, rest⟩ => ?_
  exact (recoverable_payload ..).bind fun uid => .ok _

theorem Bounce.recoverable_read (cs : List Char) : Recoverable (Bounce.read cs) := by
  refine (recoverable_unsupported _).bind fun ⟨queue, rest⟩ => ?_
  refine (recoverable_unsupported _).bind fun child => ?_
  split
  · exact .ok _
  · exact .error trivial

theorem Master.recoverable_read (cs : List Char) : Recoverable (Master.read cs) := by
  refine (recoverable_unsupported _).bind fun rest => ?_
  dsimp only
  split
  · exact .error trivial
  · exact .ok _

namespace RelayedBounce

theorem recoverable_value (cs : List Char) : Recoverable (value cs) := by
  unfold value
  split
  · exact recoverable_payload ..
  · exact recoverable_payload ..
  · exact .ok _

theorem recoverable_next (cs : List Char) : Recoverable (next cs) := by
  unfold next
  split
  · exact .ok _
  · exact .ok _
  · exact .error trivial

theorem recoverable_field (cs : List Char) : Recoverable (field cs) := by
  refine (recoverable_payload ..).bind fun ⟨key, rest⟩ => ?_
  refine (recoverable_value _).bind fun ⟨value, rest⟩ => ?_
  exact (recoverable_next _).bind fun _ => .ok _

theorem recoverable_fields (cs : List Char) : Recoverable (fields cs) := by
  fun_induction fields cs with
  | case1 => exact .ok _
  | case2 cs hne e he => exact .error ((recoverable_field cs).fault e he)
  | case3 cs hne kv rest hrest hlt ih => exact ih.map _

theorem recoverable_read (cs : List Char) : Recoverable (read cs) := by
  refine (recoverable_unsupported _).bind fun ⟨queue, rest⟩ => ?_
  refine (recoverable_fields _).bind fun kvs => ?_
  dsimp only
  split
  · exact .error trivial
  · exact .ok _

end RelayedBounce

/-- **No text spoils its line.** -/
theorem Payload.recoverable_read (h : Header) (text : List Char) :
    Recoverable (Payload.read h text) := by
  unfold Payload.read
  split
  · rename_i agent _
    unfold Agent.read
    cases agent with
    | delivery => exact (Attempt.recoverable_read text).map _
    | queueManager => exact QueueManager.recoverable_read text
    | server => exact Server.recoverable_read text
    | cleanup => exact Cleanup.recoverable_read text
    | pickup => exact Pickup.recoverable_read text
    | bounce => exact Bounce.recoverable_read text
    | master => exact Master.recoverable_read text
    | relay => exact (RelayedBounce.recoverable_read text).map _
  · exact .error trivial

end MailTrace
