import MathMarkup.Relay.Emitter

/-!
# The relay

A session has at most one live request. A new request for a busy session supersedes the one before,
which says so at its next step; after a disconnect the request stops without a word. The state is a
value, and the time that passes is an argument: `handle` takes a message in, `advance` lets time
pass, and `finish` lets all emitters run to their end.
-/

namespace MathMarkup.Relay

/-- The state of a relay. -/
structure State where
  settings : Settings
  now : Nat := 0
  /-- The number of the next request. -/
  nextGeneration : Nat := 0
  /-- The live request of each session, by its number. -/
  live : List (String × Nat) := []
  /-- The emitters that have not come to their end, in the order in which they were started. -/
  emitters : List Emitter := []
deriving DecidableEq, Repr

namespace State

/-- How many sessions have a live request. -/
def active (s : State) : Nat := s.live.length

/-! ## Messages -/

/-- The live requests without that of one session. -/
def withoutSession (session : String) (live : List (String × Nat)) : List (String × Nat) :=
  live.filter fun entry => entry.1 != session

/-- Tells the emitter of the session's live request to stop. -/
def stopEmitters (s : State) (session : String) (reason : Cancel) : List Emitter :=
  match s.live.lookup session with
  | none => s.emitters
  | some generation =>
    s.emitters.map fun e => if e.generation = generation then e.stop s.now reason else e

/-- The emitter of a new request. -/
def newEmitter (s : State) (session requestId : String) (steps : List Step) : Emitter :=
  ⟨session, requestId, s.nextGeneration, steps.length, steps, 0, s.now, none⟩

/-- Starts a request. -/
def start (s : State) (session requestId : String) (steps : List Step) : State :=
  { s with
    nextGeneration := s.nextGeneration + 1
    live := withoutSession session s.live ++ [(session, s.nextGeneration)]
    emitters := s.stopEmitters session .superseded ++ [s.newEmitter session requestId steps] }

/-- Ends a session. -/
def disconnect (s : State) (session : String) : State :=
  { s with
    live := withoutSession session s.live
    emitters := s.stopEmitters session .disconnected }

/-- Takes a message in; `fresh` names a request that comes without an identifier. Emitters do not run
yet. -/
def handle (s : State) (fresh : String) : Inbound → State
  | .request session requestId steps => s.start session (requestId.getD fresh) steps
  | .disconnect session => s.disconnect session

/-! ## Time -/

/-- Messages in the order of their times; those of one time keep their order. -/
def inOrder (deliveries : List Delivery) : List Outbound :=
  (deliveries.mergeSort fun a b => a.time ≤ b.time).map (·.message)

/-- Lets every emitter run as long as it is time. One that completes takes the entry of its session
away, unless that is a newer request's. -/
def settle (s : State) (due : Nat → Bool) : List Outbound × State :=
  let runs := s.emitters.map fun e => (e, e.run s.settings due)
  let isOver (entry : String × Nat) : Bool :=
    runs.any fun (e, run) => run.completed && e.session == entry.1 && e.generation == entry.2
  (inOrder (runs.flatMap fun (_, run) => run.sent),
    { s with
      live := s.live.filter fun entry => !isOver entry
      emitters := runs.filterMap fun (_, run) => run.left })

/-- Lets `time` milliseconds pass. -/
def advance (s : State) (time : Nat) : List Outbound × State :=
  { s with now := s.now + time }.settle (· ≤ s.now + time)

/-- Takes a message in and lets the emitters run until they wait. -/
def receive (s : State) (fresh : String) (message : Inbound) : List Outbound × State :=
  (s.handle fresh message).advance 0

/-- Lets all emitters run to their end. -/
def finish (s : State) : List Outbound × State := s.settle fun _ => true

end State

end MathMarkup.Relay
