import MailTrace.Import.Reader

/-!
# The two tasks of a reader

Two tasks read the lines of a source. The scanner asks the source, sends each line on and asks again
only after a reply. The taker takes the lines, publishes their records and replies. The channels between
them hold one message each. Several moves can be possible at once, and time, the source and the
scheduler choose among them; `read` makes those that its moments call for.
-/

namespace MailTrace.Import

open MailTrace.Time

/-- The task that asks the source. -/
inductive Scanner where
  | asking
  /-- A line waits for room in the channel. -/
  | sending (line : SourceLine)
  /-- A line was sent, and the reply to it is not taken yet. -/
  | waiting
  /-- The task is over, and how: as the source ended, or well if it was stopped. -/
  | ended (ending : Ending)
deriving DecidableEq, Repr

/-- The task that takes the lines. -/
inductive Taker where
  /-- It waits for a line, a silence or the cancelling. -/
  | selecting
  | replying
  /-- It takes no more lines, and told the scanner so. -/
  | stopping
  /-- A line broke it off. -/
  | brokenOff
  | returned (result : Except ReadFault Unit)

namespace Taker

/-- The taker holds its end of the channel of lines. -/
def Listens : Taker → Prop
  | selecting | replying => True
  | stopping | brokenOff | returned _ => False

/-- How the taker came to its end, if it did. -/
def result? : Taker → Option (Except ReadFault Unit)
  | selecting | replying | stopping => none
  | brokenOff => some (.error .brokenOff)
  | returned result => some result

end Taker

/-- The events of a trace, without their moments. -/
def Trace.events (t : Trace) : List Event := t.map (·.2)

/-- The two tasks, what is on its way between them, and what was published and announced. -/
structure Handshake where
  /-- The lines that the source has yet to give. -/
  source : List SourceLine
  ending : Ending
  scanner : Scanner
  sent : Option SourceLine
  replied : Bool
  taker : Taker
  cancelled : Bool
  transformer : Transformer
  progress : Progress
  events : List Event

namespace Handshake

/-- Before the first move. -/
def start (transformer : Transformer) (clock : Instant) (source : List SourceLine) (ending : Ending) :
    Handshake :=
  ⟨source, ending, .asking, none, false, .selecting, false, transformer, .start clock, []⟩

/-- The reader that the taker is, at some moment. -/
def reader (h : Handshake) (now : Duration) (lastRecord : Option Duration) : Reader :=
  ⟨h.transformer, h.progress, now, lastRecord⟩

/-- One move. Cancelling goes before lines and lines before silence when the taker looks at them, but
each can come right after it looked, so all of them are moves. -/
inductive Step : Handshake → Handshake → Prop where
  | cancel {h : Handshake} (hcancelled : h.cancelled = false) : Step h { h with cancelled := true }
  | scanLine {h : Handshake} {line : SourceLine} {rest : List SourceLine}
      (hscanner : h.scanner = .asking) (hsource : h.source = line :: rest) :
      Step h { h with scanner := .sending line, source := rest }
  | scanEnd {h : Handshake} (hscanner : h.scanner = .asking) (hsource : h.source = []) :
      Step h { h with scanner := .ended h.ending }
  | scanStopped {h : Handshake} (hscanner : h.scanner = .asking)
      (hstop : h.cancelled = true ∨ h.taker = .stopping) :
      Step h { h with scanner := .ended .exhausted }
  | send {h : Handshake} {line : SourceLine} (hscanner : h.scanner = .sending line)
      (hroom : h.sent = none) (hlistens : h.taker.Listens) :
      Step h { h with scanner := .waiting, sent := some line }
  | sendRefused {h : Handshake} {line : SourceLine} (hscanner : h.scanner = .sending line)
      (hdeaf : ¬ h.taker.Listens) : Step h { h with scanner := .ended .exhausted }
  | takeReply {h : Handshake} (hscanner : h.scanner = .waiting) (hreplied : h.replied = true) :
      Step h { h with scanner := .asking, replied := false }
  | replyRefused {h : Handshake} (hscanner : h.scanner = .waiting) (hreplied : h.replied = false)
      (hdeaf : ¬ h.taker.Listens) : Step h { h with scanner := .ended .exhausted }
  | stop {h : Handshake} (htaker : h.taker = .selecting) (hcancelled : h.cancelled = true) :
      Step h { h with taker := .stopping }
  | stopAtEnd {h : Handshake} {ending : Ending} (htaker : h.taker = .selecting)
      (hsent : h.sent = none) (hscanner : h.scanner = .ended ending) :
      Step h { h with taker := .stopping }
  | take {h : Handshake} {line : SourceLine} {r : Reader} {taken : Trace} (now : Duration)
      (lastRecord : Option Duration) (htaker : h.taker = .selecting) (hsent : h.sent = some line)
      (htake : (h.reader now lastRecord).take? line = some (r, taken)) :
      Step h { h with
        sent := none, taker := .replying, transformer := r.transformer, progress := r.progress,
        events := h.events ++ taken.events }
  | breakOff {h : Handshake} {line : SourceLine} (now : Duration) (lastRecord : Option Duration)
      (htaker : h.taker = .selecting) (hsent : h.sent = some line)
      (htake : (h.reader now lastRecord).take? line = none) :
      Step h { h with sent := none, taker := .brokenOff }
  | silence {h : Handshake} (htaker : h.taker = .selecting) (hfirst : h.progress.first.isSome = true)
      (hended : h.progress.ended = false) :
      Step h { h with
        progress := (h.progress.finishAt h.progress.endTime).1,
        events := h.events ++ (h.progress.finishAt h.progress.endTime).2.map .announced }
  | reply {h : Handshake} (htaker : h.taker = .replying) (hroom : h.replied = false)
      (hscanner : ∀ ending, h.scanner ≠ .ended ending) :
      Step h { h with taker := .selecting, replied := true }
  | stopAtReply {h : Handshake} {ending : Ending} (htaker : h.taker = .replying)
      (hscanner : h.scanner = .ended ending) : Step h { h with taker := .stopping }
  | close {h : Handshake} {ending : Ending} (now : Duration) (lastRecord : Option Duration)
      (htaker : h.taker = .stopping) (hscanner : h.scanner = .ended ending)
      (hcancelled : h.cancelled = false) :
      Step h { h with
        taker := .returned ((h.reader now lastRecord).close ending).2,
        events := h.events ++ ((h.reader now lastRecord).close ending).1.events }
  | closeCancelled {h : Handshake} {ending : Ending} (htaker : h.taker = .stopping)
      (hscanner : h.scanner = .ended ending) (hcancelled : h.cancelled = true) :
      Step h { h with taker := .returned (.ok ()) }

end Handshake

end MailTrace.Import
