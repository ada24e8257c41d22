import MailTrace.Payload.Reading

/-!
# The programs that events are told by

The header of a line decides which program wrote it, and a program tells only events of its own
(`Payload.wrote_of_read`). The proof goes through each reader step by step, by the rules of `Gives`.
-/

namespace MailTrace

open MailTrace.Text

/-! ## Programs and their events -/

/-- The program that tells of an event. -/
def Payload.agent? : Payload → Option Agent
  | attempt _ => some .delivery
  | queued _ | removed _ | expired _ => some .queueManager
  | connected _ | disconnected .. | lostConnection .. | accepted .. | rejected .. => some .server
  | messageId _ | milterRejected .. => some .cleanup
  | pickup _ => some .pickup
  | bounceCreated .. => some .bounce
  | version .. => some .master
  | relayedBounce _ => some .relay
  | unsupported => none

namespace Agent

/-- The daemons of the mail server that a program runs as. -/
def daemons : Agent → List String
  | delivery => ["smtp", "lmtp", "pipe", "local", "virtual"]
  | queueManager => ["qmgr"]
  | server => ["smtpd"]
  | cleanup => ["cleanup"]
  | pickup => ["pickup"]
  | bounce => ["bounce"]
  | master => ["master"]
  | relay => []

/-- A process of the mail server, of its named instances, or the one that a content filter hands
messages back to. -/
def OfMailServer (process : String) : Prop :=
  process = "postfix" ∨ (∃ instanceName, process.toList = "postfix-".toList ++ instanceName) ∨
    process = "amavis-inject"

/-- A header is one of a program: the filter that reports bounces is a process of its own, and all
others are daemons of the mail server. -/
def Wrote (h : Header) : Agent → Prop
  | relay => h.process = "lightmeter" ∧ h.daemon = "relayed-bounce"
  | agent => OfMailServer h.process ∧ h.daemonName ∈ agent.daemons

theorem ofMailServer_of_isMailProcess {process : String} (h : isMailProcess process = true) :
    OfMailServer process := by
  simp only [isMailProcess, Bool.or_eq_true, beq_iff_eq] at h
  rcases h with (h | h) | h
  · exact .inl h
  · obtain ⟨name, hname⟩ := Option.isSome_iff_exists.1 h
    exact .inr (.inl ⟨name, after?_eq_some_iff.1 hname⟩)
  · exact .inr (.inr h)

/-- A daemon of the mail server has the name of its program, which is not the filter. -/
theorem mem_daemons_of_ofDaemonName? {name : String} {agent : Agent}
    (h : ofDaemonName? name = some agent) : name ∈ agent.daemons ∧ agent ≠ relay := by
  unfold ofDaemonName? at h
  split at h <;> cases h <;> exact ⟨by decide, by decide⟩

theorem wrote_of_ofHeader? {h : Header} {agent : Agent} (hagent : ofHeader? h = some agent) :
    agent.Wrote h := by
  unfold ofHeader? at hagent
  split at hagent
  · rename_i hfilter
    rw [Bool.and_eq_true, beq_iff_eq, beq_iff_eq] at hfilter
    cases hagent
    exact hfilter
  · split at hagent
    · rename_i hprocess
      obtain ⟨hname, hne⟩ := mem_daemons_of_ofDaemonName? hagent
      have hserver := ofMailServer_of_isMailProcess hprocess
      cases agent with
      | relay => exact absurd rfl hne
      | _ => exact ⟨hserver, hname⟩
    · cases hagent

theorem isMailProcess_of_ofMailServer {process : String} (h : OfMailServer process) :
    isMailProcess process = true := by
  unfold isMailProcess
  rcases h with rfl | ⟨name, hname⟩ | rfl
  · rfl
  · rw [hname, after?_append]
    simp
  · rfl

theorem ofDaemonName?_of_mem_daemons {name : String} {agent : Agent} (h : name ∈ agent.daemons) :
    ofDaemonName? name = some agent := by
  have hall : ∀ name ∈ agent.daemons, ofDaemonName? name = some agent := by
    cases agent <;> decide
  exact hall name h

/-- The filter that reports bounces is no process of the mail server. -/
theorem ne_lightmeter_of_ofMailServer {process : String} (h : OfMailServer process) :
    process ≠ "lightmeter" := by
  rintro rfl
  exact absurd (isMailProcess_of_ofMailServer h) (by decide)

/-- **A line is read as one of the program that its header is one of.** -/
theorem ofHeader?_eq_some_iff {h : Header} {agent : Agent} :
    ofHeader? h = some agent ↔ agent.Wrote h := by
  refine ⟨wrote_of_ofHeader?, fun hwrote => ?_⟩
  have hserver (hprocess : OfMailServer h.process) (hname : h.daemonName ∈ agent.daemons) :
      ofHeader? h = some agent := by
    unfold ofHeader?
    simp [ne_lightmeter_of_ofMailServer hprocess, isMailProcess_of_ofMailServer hprocess,
      ofDaemonName?_of_mem_daemons hname]
  cases agent with
  | relay =>
    unfold ofHeader?
    rw [hwrote.1, hwrote.2]
    rfl
  | _ => exact hserver hwrote.1 hwrote.2

end Agent

/-! ## Computations by their values -/

/-- Whatever value a computation ends with has a property. -/
structure Gives {α : Type} (P : α → Prop) (x : Except LineFault α) : Prop where
  value : ∀ a, x = .ok a → P a

namespace Gives

variable {α β : Type} {P : α → Prop} {a : α}

theorem ok (ha : P a) : Gives P (.ok a) := ⟨fun _ h => (by cases h; exact ha)⟩

theorem error (f : LineFault) : Gives P (.error f) := ⟨fun _ h => (by cases h)⟩

/-- Only the last step of a computation decides its value. -/
theorem bind {x : Except LineFault β} {next : β → Except LineFault α}
    (hnext : ∀ b, Gives P (next b)) : Gives P (x >>= next) := by
  cases x with
  | error f => exact .error f
  | ok b => exact hnext b

/-- What is known of the value of the first step is known in the next ones. -/
theorem bind_of {Q : β → Prop} {x : Except LineFault β} {next : β → Except LineFault α}
    (hx : Gives Q x) (hnext : ∀ b, Q b → Gives P (next b)) : Gives P (x >>= next) := by
  cases x with
  | error f => exact .error f
  | ok b => exact hnext b (hx.value b rfl)

theorem map {x : Except LineFault β} {g : β → α} (hg : ∀ b, P (g b)) : Gives P (x.map g) := by
  cases x with
  | error f => exact .error f
  | ok b => exact .ok (hg b)

theorem map_of {Q : β → Prop} {x : Except LineFault β} {g : β → α} (hx : Gives Q x)
    (hg : ∀ b, Q b → P (g b)) : Gives P (x.map g) := by
  cases x with
  | error f => exact .error f
  | ok b => exact .ok (hg b (hx.value b rfl))

theorem require {fault : LineFault} {o : Option α} (ho : ∀ a, o = some a → P a) :
    Gives P (require fault o) := by
  cases o with
  | none => exact .error fault
  | some a => exact .ok (ho a rfl)

end Gives

/-- Whatever event a computation ends with is one of the program. -/
abbrev TellsOf (agent : Agent) (x : Except LineFault Payload) : Prop :=
  Gives (·.agent? = some agent) x

theorem QueueManager.tellsOf_read (cs : List Char) : TellsOf .queueManager (read cs) := by
  unfold read
  refine .bind fun ⟨queue, rest⟩ => ?_
  dsimp only
  split
  · exact .ok rfl
  refine .bind fun rest => .bind fun ⟨sender, rest⟩ => ?_
  dsimp only
  split
  · exact .bind fun _ => .ok rfl
  · exact .bind fun message => .bind fun forced => .ok rfl

theorem Server.tellsOf_aboutQueue (queue : String) (cs : List Char) :
    TellsOf .server (aboutQueue queue cs) := by
  unfold aboutQueue
  split
  · exact .ok rfl
  · exact .bind fun rest => .bind fun client => .ok rfl

theorem Server.tellsOf_read (cs : List Char) : TellsOf .server (read cs) := by
  unfold read
  split
  · exact .bind fun client => .ok rfl
  dsimp only
  split
  · exact .bind fun client => .bind fun counts => .ok rfl
  split
  · exact .bind fun ⟨after, name⟩ => .bind fun client => .ok rfl
  split
  · exact .ok rfl
  exact .bind fun ⟨queue, rest⟩ => tellsOf_aboutQueue queue rest

theorem Cleanup.tellsOf_read (cs : List Char) : TellsOf .cleanup (read cs) := by
  refine .bind fun ⟨queue, rest⟩ => ?_
  dsimp only
  split
  · exact .ok rfl
  · exact .bind fun reason => .ok rfl

theorem Pickup.tellsOf_read (cs : List Char) : TellsOf .pickup (read cs) :=
  .bind fun _ => .bind fun _ => .bind fun _ => .bind fun _ => .bind fun _ => .ok rfl

theorem Bounce.tellsOf_read (cs : List Char) : TellsOf .bounce (read cs) := by
  refine .bind fun ⟨queue, rest⟩ => .bind fun child => ?_
  split
  · exact .ok rfl
  · exact .error _

theorem Master.tellsOf_read (cs : List Char) : TellsOf .master (read cs) := by
  refine .bind fun rest => ?_
  dsimp only
  split
  · exact .error _
  · exact .ok rfl

theorem Agent.tellsOf_read (agent : Agent) (text : List Char) :
    TellsOf agent (agent.read text) := by
  cases agent with
  | delivery => exact .map fun _ => rfl
  | queueManager => exact QueueManager.tellsOf_read text
  | server => exact Server.tellsOf_read text
  | cleanup => exact Cleanup.tellsOf_read text
  | pickup => exact Pickup.tellsOf_read text
  | bounce => exact Bounce.tellsOf_read text
  | master => exact Master.tellsOf_read text
  | relay => exact .map fun _ => rfl

/-- **An event is one of the program that wrote the line.** -/
theorem Payload.wrote_of_read {h : Header} {text : List Char} {p : Payload}
    (hp : Payload.read h text = .ok p) : ∃ agent, p.agent? = some agent ∧ agent.Wrote h := by
  unfold Payload.read at hp
  cases hagent : Agent.ofHeader? h with
  | none =>
    rw [hagent] at hp
    cases hp
  | some agent =>
    rw [hagent] at hp
    exact ⟨agent, (agent.tellsOf_read text).value p hp, Agent.wrote_of_ofHeader? hagent⟩

end MailTrace
