import MathMarkup.Proofs.Relay.Answers

/-!
# Which request of a session is live

`IsCurrent` reads off the messages of a run which request of a session ought to be running: the one that
was started last, unless the session was disconnected behind it. `Tracked` says that these are the emitters
that were not told to stop; every event keeps it so (`Tracked.react`).

Main theorem `live_of_play`: the list of live requests names the current requests that still run, and
an entry goes only when its own request completes or a message for its session comes.
-/

namespace MathMarkup.Relay

variable {settings : Settings} {s : State} {due : Nat → Bool} {e : Emitter} {events : List Event}
  {event : Event} {session : String} {generation : Nat}

/-! ## The current request of a session -/

/-- The session that a message is about. -/
def Event.session? : Event → Option String
  | .take _ message => some message.session
  | .pass _ => none

/-- The request with this number was started last for the session, and no message for the session came
behind it, so it was neither superseded nor disconnected. -/
def IsCurrent (events : List Event) (session : String) (generation : Nat) : Prop :=
  ∃ before fresh requestId steps after,
    events = before ++ .take fresh (.request session requestId steps) :: after ∧
    (requests before).length = generation ∧ ∀ event ∈ after, event.session? ≠ some session

theorem requests_append (a b : List Event) : requests (a ++ b) = requests a ++ requests b :=
  List.filterMap_append

/-- A request is current from its message on, until another message for its session comes. -/
theorem isCurrent_concat : IsCurrent (events ++ [event]) session generation ↔
    (event.session? ≠ some session ∧ IsCurrent events session generation) ∨
    ∃ fresh requestId steps, event = .take fresh (.request session requestId steps) ∧
      (requests events).length = generation := by
  constructor
  · rintro ⟨before, fresh, requestId, steps, after, hsplit, hcount, hafter⟩
    rcases List.eq_nil_or_concat after with rfl | ⟨after, last, rfl⟩
    · obtain ⟨rfl, hevent⟩ := List.append_inj' hsplit rfl
      exact Or.inr ⟨fresh, requestId, steps, by simpa using hevent, hcount⟩
    · rw [List.concat_eq_append, ← List.cons_append, ← List.append_assoc] at hsplit
      obtain ⟨rfl, hlast⟩ := List.append_inj' hsplit rfl
      obtain rfl : event = last := by simpa using hlast
      refine Or.inl ⟨hafter event (by simp), before, fresh, requestId, steps, after, rfl, hcount, ?_⟩
      intro other hother
      exact hafter other (by simp [hother])
  · rintro (⟨hevent, before, fresh, requestId, steps, after, rfl, hcount, hafter⟩ |
      ⟨fresh, requestId, steps, rfl, hcount⟩)
    · refine ⟨before, fresh, requestId, steps, after ++ [event], by simp, hcount, ?_⟩
      intro other hother
      rcases List.mem_append.1 hother with hother | hother
      · exact hafter other hother
      · rw [List.mem_singleton.1 hother]
        exact hevent
    · exact ⟨events, fresh, requestId, steps, [], rfl, hcount, nofun⟩

/-- The number of a current request is the number of a request of its session. -/
theorem IsCurrent.exists_request (h : IsCurrent events session generation) :
    ∃ r, (requests events)[generation]? = some r ∧ r.session = session := by
  obtain ⟨before, fresh, requestId, steps, after, rfl, rfl, -⟩ := h
  refine ⟨⟨session, requestId.getD fresh, steps⟩, ?_, rfl⟩
  rw [requests_append]
  simp [requests, Event.request?]

/-! ## The emitters that go on -/

/-- The emitters that were not told to stop are those of current requests. -/
structure Tracked (events : List Event) (s : State) : Prop where
  coherent : s.Coherent
  count : s.nextGeneration = (requests events).length
  current : ∀ e ∈ s.emitters, e.cancel = none ↔ IsCurrent events e.session e.generation

namespace Tracked

theorem initial (settings : Settings) : Tracked [] (State.initial settings) :=
  ⟨State.coherent_initial settings, rfl, nofun⟩

theorem generation_lt (h : Tracked events s) (he : e ∈ s.emitters) :
    e.generation < (requests events).length := h.count ▸ h.coherent.fresh e he

/-- A message for a session leaves the current requests of the other sessions alone. -/
theorem current_stopFor (h : Tracked events s) (fresh : String) (message : Inbound) (reason : Cancel) :
    ∀ e ∈ s.emitters.map (Emitter.stopFor s.now message.session reason), e.cancel = none ↔
      IsCurrent (events ++ [.take fresh message]) e.session e.generation := by
  rw [List.forall_mem_map]
  intro e he
  rw [Emitter.cancel_stopFor, Emitter.session_stopFor, Emitter.generation_stopFor, h.current e he,
    isCurrent_concat]
  have hold : (requests events).length ≠ e.generation := Nat.ne_of_gt (h.generation_lt he)
  simp only [Event.session?, ne_eq, Option.some.injEq, hold, and_false, exists_false, or_false]
  rw [and_comm, eq_comm]

theorem disconnect (h : Tracked events s) (fresh session : String) :
    Tracked (events ++ [.take fresh (.disconnect session)]) (s.disconnect session) := by
  refine ⟨h.coherent.disconnect session, ?_, ?_⟩
  · have hnone : requests [.take fresh (.disconnect session)] = [] := rfl
    rw [requests_append, hnone, List.append_nil]
    exact h.count
  · have hemitters : (s.disconnect session).emitters =
        s.emitters.map (Emitter.stopFor s.now session .disconnected) :=
      h.coherent.stopEmitters_eq session .disconnected
    rw [hemitters]
    exact h.current_stopFor fresh (.disconnect session) .disconnected

theorem start (h : Tracked events s) (fresh session : String) (requestId : Option String)
    (steps : List Step) : Tracked (events ++ [.take fresh (.request session requestId steps)])
      (s.start session (requestId.getD fresh) steps) := by
  refine ⟨h.coherent.start session _ steps, ?_, ?_⟩
  · rw [requests_append, List.length_append, ← h.count]
    rfl
  · have hemitters : (s.start session (requestId.getD fresh) steps).emitters =
        s.emitters.map (Emitter.stopFor s.now session .superseded) ++
          [s.newEmitter session (requestId.getD fresh) steps] := by
      rw [State.start, h.coherent.stopEmitters_eq]
    rw [hemitters, List.forall_mem_append]
    refine ⟨h.current_stopFor fresh (.request session requestId steps) .superseded, ?_⟩
    intro e he
    obtain rfl := List.mem_singleton.1 he
    have hcurrent : IsCurrent (events ++ [.take fresh (.request session requestId steps)]) session
        s.nextGeneration := isCurrent_concat.2 (Or.inr ⟨fresh, requestId, steps, rfl, h.count.symm⟩)
    exact ⟨fun _ => hcurrent, fun _ => rfl⟩

theorem pass (h : Tracked events s) (time : Nat) :
    Tracked (events ++ [.pass time]) (s.advance time).2 := by
  refine ⟨h.coherent.advance time, ?_, ?_⟩
  · have hnone : requests [.pass time] = [] := rfl
    rw [requests_append, hnone, List.append_nil]
    exact h.count
  · intro e' he'
    obtain ⟨e, he, hleft⟩ := State.mem_emitters_settle.1 he'
    obtain ⟨hwaits, -⟩ := Emitter.waitsAs_of_left_run hleft
    rw [hwaits.cancel, hwaits.session, hwaits.generation, h.current e he, isCurrent_concat]
    simp [Event.session?]

/-- **Every event** keeps track of the current requests. -/
theorem react (h : Tracked events s) (event : Event) : Tracked (events ++ [event]) (s.react event).2 := by
  cases event with
  | take fresh message =>
    cases message with
    | request session requestId steps => exact h.start fresh session requestId steps
    | disconnect session => exact h.disconnect fresh session
  | pass time => exact h.pass time

theorem trace (h : Tracked events s) (later : List Event) :
    Tracked (events ++ later) (s.trace later).2 := by
  induction later generalizing events s with
  | nil => simpa [State.trace] using h
  | cons event later ih =>
    have hstep := ih (h.react event)
    rwa [List.append_assoc, List.singleton_append] at hstep

end Tracked

/-! ## Entries that go -/

namespace Emitter

/-- An emitter that completes says so, and no other one does. -/
theorem Sends.completed_iff {emitted wake : Nat} {pending : List Step} {run : Run}
    (h : Sends settings due e emitted wake pending run) :
    run.completed = true ↔ ∃ requestId count, .complete e.session requestId count ∈ run.messages := by
  induction h with
  | next step hdue hcancel hrest _ ih =>
    rw [Run.messages_behind, Run.completed_behind, ih]
    simp
  | _ => simp [Run.messages, complete]

theorem completed_iff_run : (e.run settings due).completed = true ↔ ∃ requestId count,
    .complete e.session requestId count ∈ (e.run settings due).messages := by
  by_cases htotal : e.total = 0
  · rw [run_of_total_eq_zero htotal]
    simp [Run.messages, complete]
  · exact (sends_run htotal).completed_iff

end Emitter

namespace State

/-- **The entry that goes** when emitters run is that of the request that completes, and of no other
one. -/
theorem Coherent.notMem_live_settle (h : s.Coherent) (due : Nat → Bool)
    (hlive : (session, generation) ∈ s.live) :
    (session, generation) ∉ (s.settle due).2.live ↔
      ∃ requestId count, .complete session requestId count ∈ messagesOf generation (s.sent due) := by
  obtain ⟨e, he, -, rfl, rfl⟩ := (h.live session generation).1 hlive
  rw [h.messagesOf_sent due he, ← Emitter.completed_iff_run, mem_live_settle, not_and]
  constructor
  · intro hgone
    by_contra hrunning
    refine hgone hlive ?_
    intro f hf hcompleted _ hsame
    obtain rfl := h.eq_of_generation hf he hsame
    exact hrunning hcompleted
  · intro hcompleted _ hstays
    exact hstays e he hcompleted rfl rfl

/-- At most one emitter of a session was not told to stop. -/
theorem Coherent.length_filter_le_one (h : s.Coherent) (session : String) :
    (s.emitters.filter fun e => e.session = session ∧ e.cancel = none).length ≤ 1 := by
  have horder : (s.emitters.filter fun e => e.session = session ∧ e.cancel = none).Pairwise Emitter.Precedes :=
    h.order.filter _
  have hgoing : ∀ e ∈ s.emitters.filter fun e => e.session = session ∧ e.cancel = none,
      e.session = session ∧ e.cancel = none := by
    intro e he
    simpa using (List.mem_filter.1 he).2
  generalize s.emitters.filter (fun e => e.session = session ∧ e.cancel = none) = going at horder hgoing ⊢
  match going with
  | [] => simp
  | [e] => simp
  | a :: b :: rest =>
    -- of two emitters of a session the earlier one was told to stop
    obtain ⟨ha, hcancel⟩ := hgoing a (by simp)
    obtain ⟨hb, -⟩ := hgoing b (by simp)
    have hprecedes : a.Precedes b := (List.pairwise_cons.1 horder).1 b (by simp)
    exact absurd hcancel (hprecedes.stopped (ha.trans hb.symm)).1

/-- Without emitters there are no entries. -/
theorem Coherent.active_eq_zero (h : s.Coherent) (hnone : s.emitters = []) : s.active = 0 := by
  rw [active, List.length_eq_zero_iff, List.eq_nil_iff_forall_not_mem]
  rintro ⟨session, generation⟩ hlive
  obtain ⟨e, he, -⟩ := (h.live session generation).1 hlive
  rw [hnone] at he
  cases he

/-- No emitter waits when there is time without end. -/
theorem emitters_finish (s : State) : s.finish.2.emitters = [] := by
  rw [List.eq_nil_iff_forall_not_mem]
  intro e' he'
  obtain ⟨e, -, hleft⟩ := mem_emitters_settle.1 he'
  have hwaits := (Emitter.waitsAs_of_left_run hleft).1.wake
  cases hwaits

end State

/-- **Which requests are live** in a run: a session has an entry when its latest request still runs and
was neither superseded nor disconnected, and then the entry has the number of that request. At most one
emitter of a session goes on. When emitters run, an entry goes exactly if its own request completes,
so the end of an older one takes nothing away; and no entry is left when no emitter is, which is so once
all of them have finished. -/
theorem live_of_play (settings : Settings) (events : List Event) :
    let s := ((State.initial settings).play events).2
    (∀ session generation, (session, generation) ∈ s.live ↔
      IsCurrent events session generation ∧ ∃ e ∈ s.emitters, e.generation = generation) ∧
    (s.live.map Prod.fst).Nodup ∧
    (∀ session, (s.emitters.filter fun e => e.session = session ∧ e.cancel = none).length ≤ 1) ∧
    (∀ time session generation, (session, generation) ∈ s.live →
      ((session, generation) ∉ (s.advance time).2.live ↔ ∃ requestId count,
        .complete session requestId count ∈ messagesOf generation (s.react (.pass time)).1)) ∧
    (s.emitters = [] → s.active = 0) ∧ s.finish.2.emitters = [] ∧ s.finish.2.active = 0 := by
  rw [State.play_eq_trace]
  intro s
  have htracked : Tracked events s := (Tracked.initial settings).trace events
  have haccounted := (accounted_initial settings).trace events
  rw [List.nil_append, List.nil_append] at haccounted
  have hcoherent : s.Coherent := htracked.coherent
  refine ⟨fun session generation => ?_, hcoherent.unique, hcoherent.length_filter_le_one, ?_,
    hcoherent.active_eq_zero, s.emitters_finish, ?_⟩
  · rw [hcoherent.live]
    constructor
    · rintro ⟨e, he, hcancel, rfl, rfl⟩
      exact ⟨(htracked.current e he).1 hcancel, e, he, rfl⟩
    · rintro ⟨hcurrent, e, he, rfl⟩
      obtain ⟨r, hr, hsession⟩ := hcurrent.exists_request
      obtain ⟨r', hr', hserves, -⟩ := haccounted.serving e he
      obtain rfl : r = r' := Option.some.inj (hr.symm.trans hr')
      have hown : e.session = session := hserves.session.trans hsession
      exact ⟨e, he, (htracked.current e he).2 (hown ▸ hcurrent), hown, rfl⟩
  · intro time session generation hlive
    exact (hcoherent.later time).notMem_live_settle (· ≤ s.now + time) hlive
  · exact (hcoherent.settle fun _ _ _ => rfl).active_eq_zero s.emitters_finish

end MathMarkup.Relay
