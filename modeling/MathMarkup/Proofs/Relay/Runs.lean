import MathMarkup.Proofs.Sorting
import MathMarkup.Relay.Basic

/-!
# Runs of a relay

A run is a list of events: messages that are taken in, and time that passes. Taking a message in does
not let the emitters run; letting time pass does, even if it is none. `State.play` is what a run sends;
`State.trace` tells of every message which request it answers, and sends the same
(`play_eq_trace`).
-/

namespace MathMarkup.Relay

variable {s : State} {due : Nat → Bool} {e : Emitter} {m : Sent} {events : List Event}

/-! ## Messages in the order of time -/

/-- A message that was sent, and the number of the request that it answers. -/
structure Sent where
  generation : Nat
  delivery : Delivery
deriving DecidableEq, Repr

def Sent.message (m : Sent) : Outbound := m.delivery.message

/-- Was it sent no later? -/
def Sent.notAfter (a b : Sent) : Bool := a.delivery.time ≤ b.delivery.time

theorem Sent.filter_mergeSort {p : Sent → Bool} {l : List Sent}
    (h : (l.filter p).Pairwise fun a b => a.delivery.time ≤ b.delivery.time) :
    (l.mergeSort notAfter).filter p = l.filter p := by
  refine filter_mergeSort_of_pairwise ?_ ?_ (by simpa [notAfter] using h)
  · simp only [notAfter, decide_eq_true_eq]
    exact fun a b c => Nat.le_trans
  · simp only [notAfter, Bool.or_eq_true, decide_eq_true_eq]
    exact fun a b => Nat.le_total _ _

/-! ## Letting the emitters run -/

/-- What an emitter sends while it is time. -/
def Emitter.sent (settings : Settings) (due : Nat → Bool) (e : Emitter) : List Sent :=
  (e.run settings due).sent.map (Sent.mk e.generation)

namespace State

/-- What the emitters send while it is time, one emitter after the other. -/
def unsorted (s : State) (due : Nat → Bool) : List Sent := s.emitters.flatMap (Emitter.sent s.settings due)

/-- What the emitters send while it is time. -/
def sent (s : State) (due : Nat → Bool) : List Sent := (s.unsorted due).mergeSort Sent.notAfter

theorem map_message_sent (s : State) (due : Nat → Bool) :
    (s.sent due).map Sent.message = (s.settle due).1 := by
  have hdeliveries : (s.unsorted due).map Sent.delivery =
      (s.emitters.map fun e => (e, e.run s.settings due)).flatMap fun ran => ran.2.sent := by
    simp [unsorted, Emitter.sent, List.map_flatMap, List.flatMap_map, Function.comp_def]
  have hsorted : (s.sent due).map Sent.delivery =
      ((s.unsorted due).map Sent.delivery).mergeSort fun a b => a.time ≤ b.time :=
    List.map_mergeSort fun a _ b _ => rfl
  calc (s.sent due).map Sent.message
      = ((s.sent due).map Sent.delivery).map Delivery.message := by rw [List.map_map]; rfl
    _ = inOrder ((s.unsorted due).map Sent.delivery) := by rw [hsorted, inOrder]
    _ = (s.settle due).1 := by rw [hdeliveries]; rfl

theorem emitters_settle (s : State) (due : Nat → Bool) :
    (s.settle due).2.emitters = s.emitters.filterMap fun e => (e.run s.settings due).left := by
  rw [settle, List.filterMap_map]
  rfl

theorem mem_emitters_settle {e' : Emitter} :
    e' ∈ (s.settle due).2.emitters ↔ ∃ e ∈ s.emitters, (e.run s.settings due).left = some e' := by
  rw [emitters_settle, List.mem_filterMap]

/-- The entries that stay are those of which no emitter has completed. -/
theorem mem_live_settle {session : String} {generation : Nat} :
    (session, generation) ∈ (s.settle due).2.live ↔ (session, generation) ∈ s.live ∧
      ∀ e ∈ s.emitters, (e.run s.settings due).completed = true → e.session = session →
        e.generation ≠ generation := by
  simp only [settle, List.mem_filter, Bool.not_eq_true', List.any_map, List.any_eq_false]
  simp

theorem mem_sent : m ∈ s.sent due ↔ ∃ e ∈ s.emitters, m ∈ e.sent s.settings due := by
  rw [sent, List.mem_mergeSort, unsorted, List.mem_flatMap]

end State

/-! ## Runs -/

/-- What happens to a relay. -/
inductive Event where
  /-- A message is taken in; `fresh` names a request that comes without an identifier. -/
  | take (fresh : String) (message : Inbound)
  /-- So many milliseconds pass, perhaps none, and the emitters run as long as it is time. -/
  | pass (time : Nat)
deriving DecidableEq, Repr

namespace State

/-- A relay at its start. -/
def initial (settings : Settings) : State := ⟨settings, 0, 0, [], []⟩

/-- All that a run sends, and where it leads. -/
def play : State → List Event → List Outbound × State
  | s, [] => ([], s)
  | s, .take fresh message :: events => (s.handle fresh message).play events
  | s, .pass time :: events =>
    let (sent, s) := s.advance time
    let (later, s) := s.play events
    (sent ++ later, s)

/-- What an event sends, and where it leads. -/
def react (s : State) : Event → List Sent × State
  | .take fresh message => ([], s.handle fresh message)
  | .pass time => ({ s with now := s.now + time }.sent (· ≤ s.now + time), (s.advance time).2)

/-- A run in which every message tells which request it answers. -/
def trace : State → List Event → List Sent × State
  | s, [] => ([], s)
  | s, event :: events =>
    ((s.react event).1 ++ ((s.react event).2.trace events).1, ((s.react event).2.trace events).2)

/-- Telling the requests changes nothing about what is sent. -/
theorem play_eq_trace (s : State) (events : List Event) :
    s.play events = ((s.trace events).1.map Sent.message, (s.trace events).2) := by
  induction events generalizing s with
  | nil => rfl
  | cons event events ih =>
    cases event with
    | take fresh message => exact ih (s.handle fresh message)
    | pass time =>
      have hsent : ((s.react (.pass time)).1).map Sent.message = (s.advance time).1 := map_message_sent _ _
      rw [play, trace, List.map_append, hsent]
      simp only [ih]
      rfl

theorem trace_append (s : State) (a b : List Event) :
    s.trace (a ++ b) = ((s.trace a).1 ++ ((s.trace a).2.trace b).1, ((s.trace a).2.trace b).2) := by
  induction a generalizing s with
  | nil => rfl
  | cons event a ih => simp only [List.cons_append, trace, ih, List.append_assoc]

end State

end MathMarkup.Relay
