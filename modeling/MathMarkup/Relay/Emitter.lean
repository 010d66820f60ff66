import MathMarkup.Relay.Message
import MathMarkup.Relay.Settings

/-!
# Emitters

An emitter sends the steps of one request, one after the other with a pause between them. Before each
step it looks whether it was told to stop. `Emitter.run` lets it run until it has to wait past the
given time, or to its end.
-/

namespace MathMarkup.Relay

/-- Why an emitter was told to stop. -/
inductive Cancel where
  | superseded
  | disconnected
deriving DecidableEq, Repr

structure Emitter where
  session : String
  requestId : String
  /-- The number of its request among all that were started. -/
  generation : Nat
  /-- How many steps the request has. -/
  total : Nat
  /-- The steps that are not sent yet. -/
  pending : List Step
  /-- How many were sent. -/
  emitted : Nat
  /-- When it goes on. -/
  wake : Nat
  cancel : Option Cancel
deriving DecidableEq, Repr

/-- A message, and when it is sent. -/
structure Delivery where
  time : Nat
  message : Outbound
deriving DecidableEq, Repr

/-- What became of an emitter: what it sent, and the emitter itself while it waits. -/
structure Run where
  sent : List Delivery
  left : Option Emitter
  /-- It sent all there was to send. -/
  completed : Bool
deriving DecidableEq, Repr

namespace Emitter

/-- The request is answered in full. -/
def complete (e : Emitter) (time emitted : Nat) : Delivery :=
  ⟨time, .complete e.session e.requestId emitted⟩

/-- The record of the step that comes after `emitted` others. -/
def record (config : Config) (e : Emitter) (emitted : Nat) (step : Step) : Record :=
  Record.ofStep config e.requestId step (emitted + 1) e.total

/-- Sends steps while it is time; `emitted` of them were sent, and the next one is due at `wake`. -/
def send (settings : Settings) (due : Nat → Bool) (e : Emitter) (emitted wake : Nat) :
    List Step → Run
  | [] => ⟨[e.complete wake emitted], none, true⟩
  | step :: rest =>
    if !due wake then
      ⟨[], some { e with pending := step :: rest, emitted := emitted, wake := wake }, false⟩
    else
      match e.cancel with
      | some .superseded => ⟨[⟨wake, .superseded e.session e.requestId emitted⟩], none, false⟩
      | some .disconnected => ⟨[], none, false⟩
      | none =>
        let sent : Delivery := ⟨wake, .step e.session (e.record settings.engine emitted step)⟩
        if rest.isEmpty then ⟨[sent, e.complete wake (emitted + 1)], none, true⟩
        else
          let run := send settings due e (emitted + 1) (wake + settings.stepDelay) rest
          { run with sent := sent :: run.sent }

/-- Lets the emitter run as long as it is time. A request without steps is answered at once with the
record of a failure, whatever the emitter was told. -/
def run (settings : Settings) (due : Nat → Bool) (e : Emitter) : Run :=
  if e.total = 0 then
    ⟨[⟨e.wake, .step e.session (Record.failure e.requestId)⟩, e.complete e.wake 1], none, true⟩
  else e.send settings due e.emitted e.wake e.pending

/-- Tells an emitter to stop, which wakes it. -/
def stop (e : Emitter) (now : Nat) (reason : Cancel) : Emitter :=
  { e with cancel := some reason, wake := now }

end Emitter

end MathMarkup.Relay
