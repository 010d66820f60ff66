import Mathlib
import MathMarkup.Proofs.Relay.Coherence

/-!
# What the requests of a run are answered with

`requests` lists the requests of a run; the number of a request is its place in the list.
`Accounted` says how what was sent so far and what the emitters have still to send belong together: an
emitter goes on where its request was left off, a request without an emitter is answered in full, and in
a session no message comes behind one for a later request. Every event keeps it so
(`Accounted.react`).

Main theorem: `answers_of_trace`.
-/

namespace MathMarkup.Relay

variable {settings : Settings} {s : State} {due : Nat → Bool} {e : Emitter} {m : Sent} {rs : List Request}
  {history : List Sent} {session : String}

/-- The request that an event starts. -/
def Event.request? : Event → Option Request
  | .take fresh (.request session requestId steps) => some ⟨session, requestId.getD fresh, steps⟩
  | .take _ (.disconnect _) => none
  | .pass _ => none

/-- The requests of a run, in the order in which they are started. -/
def requests (events : List Event) : List Request := events.filterMap Event.request?

/-- The messages that answer one request. -/
def messagesOf (generation : Nat) (sent : List Sent) : List Outbound :=
  (sent.filter fun m => m.generation = generation).map Sent.message

/-- The numbers of the requests that the messages for one session answer, message by message. -/
def turns (session : String) (sent : List Sent) : List Nat :=
  (sent.filter fun m => m.message.session? = some session).map Sent.generation

theorem messagesOf_append (generation : Nat) (a b : List Sent) :
    messagesOf generation (a ++ b) = messagesOf generation a ++ messagesOf generation b := by
  rw [messagesOf, List.filter_append, List.map_append, messagesOf, messagesOf]

theorem messagesOf_eq_nil {generation : Nat} {sent : List Sent} (h : ∀ m ∈ sent, m.generation ≠ generation) :
    messagesOf generation sent = [] := by
  rw [messagesOf, List.map_eq_nil_iff, List.filter_eq_nil_iff]
  exact fun m hm => by simpa using h m hm

theorem turns_append (session : String) (a b : List Sent) :
    turns session (a ++ b) = turns session a ++ turns session b := by
  rw [turns, List.filter_append, List.map_append, turns, turns]

theorem mem_turns {sent : List Sent} {generation : Nat} : generation ∈ turns session sent ↔
    ∃ m ∈ sent, m.message.session? = some session ∧ m.generation = generation := by
  simp [turns, and_assoc]

/-! ## What one settling sends -/

theorem of_mem_sent (hm : m ∈ e.sent settings due) : m.generation = e.generation ∧
    m.message.session? = some e.session ∧ e.wake ≤ m.delivery.time ∧
    (e.cancel ≠ none → m.delivery.time = e.wake) := by
  obtain ⟨d, hd, rfl⟩ := List.mem_map.1 hm
  exact ⟨rfl, Emitter.session_of_mem_run d hd, Emitter.pairwise_sent_run.1 d hd,
    fun hcancel => Emitter.time_of_mem_run hcancel d hd⟩

theorem pairwise_sent : (e.sent settings due).Pairwise fun a b => a.delivery.time ≤ b.delivery.time := by
  rw [Emitter.sent, List.pairwise_map]
  exact Emitter.pairwise_sent_run.2

theorem messages_sent : (e.sent settings due).map Sent.message = (e.run settings due).messages := by
  rw [Emitter.sent, List.map_map]
  rfl

namespace State

/-- What is sent for one request is what its emitter sends. -/
theorem Coherent.filter_unsorted (h : s.Coherent) (due : Nat → Bool) (he : e ∈ s.emitters) :
    ((s.unsorted due).filter fun m => m.generation = e.generation) = e.sent s.settings due := by
  obtain ⟨a, b, hsplit⟩ := List.append_of_mem he
  have horder := h.order
  rw [hsplit, List.pairwise_append, List.pairwise_cons] at horder
  obtain ⟨-, ⟨hbehind, -⟩, hbefore⟩ := horder
  have hother : ∀ l : List Emitter, (∀ f ∈ l, f.generation ≠ e.generation) →
      ((l.flatMap (Emitter.sent s.settings due)).filter fun m => m.generation = e.generation) = [] := by
    intro l hl
    rw [List.filter_eq_nil_iff]
    intro m hm
    obtain ⟨f, hf, hmf⟩ := List.mem_flatMap.1 hm
    simpa [(of_mem_sent hmf).1] using hl f hf
  have hown : ((e.sent s.settings due).filter fun m => m.generation = e.generation) = e.sent s.settings due := by
    rw [List.filter_eq_self]
    exact fun m hm => by simpa using (of_mem_sent hm).1
  rw [unsorted, hsplit, List.flatMap_append, List.flatMap_cons, List.filter_append, List.filter_append,
    hother a fun f hf => Nat.ne_of_lt (hbefore f hf e List.mem_cons_self).generation, hown,
    hother b fun f hf => Nat.ne_of_gt (hbehind f hf).generation, List.nil_append, List.append_nil]

theorem Coherent.messagesOf_sent (h : s.Coherent) (due : Nat → Bool) (he : e ∈ s.emitters) :
    messagesOf e.generation (s.sent due) = (e.run s.settings due).messages := by
  have hown := h.filter_unsorted due he
  rw [messagesOf, sent, Sent.filter_mergeSort (by rw [hown]; exact pairwise_sent), hown, messages_sent]

theorem messagesOf_sent_eq_nil {generation : Nat} (h : ∀ e ∈ s.emitters, e.generation ≠ generation) :
    messagesOf generation (s.sent due) = [] := by
  refine messagesOf_eq_nil fun m hm => ?_
  obtain ⟨e, he, hme⟩ := mem_sent.1 hm
  rw [(of_mem_sent hme).1]
  exact h e he

/-- The emitters of a session send one after the other. -/
theorem Coherent.pairwise_unsorted (h : s.Coherent) (due : Nat → Bool) (session : String) :
    ((s.unsorted due).filter fun m => m.message.session? = some session).Pairwise fun a b =>
      a.delivery.time ≤ b.delivery.time ∧ a.generation ≤ b.generation := by
  rw [List.pairwise_filter, unsorted, List.pairwise_flatMap]
  constructor
  · intro e he
    refine pairwise_sent.imp_of_mem fun {a b} ha hb hab _ _ => ⟨hab, ?_⟩
    exact Nat.le_of_eq ((of_mem_sent ha).1.trans (of_mem_sent hb).1.symm)
  · refine h.order.imp fun {e f} hef a ha b hb hsession hsession' => ?_
    obtain ⟨hgeneration, hown, -, hat⟩ := of_mem_sent ha
    obtain ⟨hgeneration', hown', hlate, -⟩ := of_mem_sent hb
    rw [decide_eq_true_eq, hown] at hsession
    rw [decide_eq_true_eq, hown', ← hsession] at hsession'
    obtain ⟨hcancel, hwake⟩ := hef.stopped (Option.some.inj hsession').symm
    rw [hat hcancel, hgeneration, hgeneration']
    exact ⟨Nat.le_trans hwake hlate, Nat.le_of_lt hef.generation⟩

theorem Coherent.pairwise_turns (h : s.Coherent) (due : Nat → Bool) (session : String) :
    (turns session (s.sent due)).Pairwise (· ≤ ·) := by
  have hpairs := h.pairwise_unsorted due session
  rw [turns, sent, Sent.filter_mergeSort (hpairs.imp And.left), List.pairwise_map]
  exact hpairs.imp And.right

end State

/-! ## Accounts -/

/-- What was sent, and what the emitters still have to send, make up the answers to the requests. -/
structure Accounted (settings : Settings) (rs : List Request) (history : List Sent) (s : State) : Prop where
  coherent : s.Coherent
  same : s.settings = settings
  count : s.nextGeneration = rs.length
  /-- An emitter goes on where its request was left off. -/
  serving : ∀ e ∈ s.emitters, ∃ r, rs[e.generation]? = some r ∧ e.Serves r ∧
    messagesOf e.generation history = r.shown settings e.emitted
  /-- A request without an emitter is answered in full. -/
  ended : ∀ generation r, rs[generation]? = some r → (∀ e ∈ s.emitters, e.generation ≠ generation) →
    Answers settings r (messagesOf generation history)
  started : ∀ m ∈ history, m.generation < rs.length
  inTurn : ∀ session, (turns session history).Pairwise (· ≤ ·)
  /-- In a session nothing was sent for a later request than the emitters serve. -/
  behind : ∀ m ∈ history, ∀ e ∈ s.emitters, m.message.session? = some e.session →
    m.generation ≤ e.generation

theorem accounted_initial (settings : Settings) : Accounted settings [] [] (State.initial settings) :=
  ⟨State.coherent_initial settings, rfl, rfl, nofun, nofun, nofun, fun _ => .nil, nofun⟩

namespace Accounted

theorem started_of_emitter (h : Accounted settings rs history s) (he : e ∈ s.emitters) :
    e.generation < rs.length := h.count ▸ h.coherent.fresh e he

theorem serves_stopFor {r : Request} (now : Nat) (session : String) (reason : Cancel) (h : e.Serves r) :
    (e.stopFor now session reason).Serves r ∧ (e.stopFor now session reason).emitted = e.emitted := by
  rw [Emitter.stopFor]
  split
  · exact ⟨⟨h.session, h.requestId, h.total, h.pending, h.more⟩, rfl⟩
  · exact ⟨h, rfl⟩

/-- Telling a session to stop changes no account. -/
theorem serving_stopFor (h : Accounted settings rs history s) (session : String) (reason : Cancel) :
    ∀ e ∈ s.emitters.map (Emitter.stopFor s.now session reason), ∃ r, rs[e.generation]? = some r ∧
      e.Serves r ∧ messagesOf e.generation history = r.shown settings e.emitted := by
  rw [List.forall_mem_map]
  intro e he
  obtain ⟨r, hr, hserves, hshown⟩ := h.serving e he
  obtain ⟨hserves', hemitted⟩ := serves_stopFor s.now session reason hserves
  rw [Emitter.generation_stopFor, hemitted]
  exact ⟨r, hr, hserves', hshown⟩

theorem behind_stopFor (h : Accounted settings rs history s) (session : String) (reason : Cancel) :
    ∀ m ∈ history, ∀ e ∈ s.emitters.map (Emitter.stopFor s.now session reason),
      m.message.session? = some e.session → m.generation ≤ e.generation := by
  intro m hm
  rw [List.forall_mem_map]
  intro e he
  rw [Emitter.session_stopFor, Emitter.generation_stopFor]
  exact h.behind m hm e he

theorem disconnect (h : Accounted settings rs history s) (session : String) :
    Accounted settings rs history (s.disconnect session) := by
  have hemitters : (s.disconnect session).emitters =
      s.emitters.map (Emitter.stopFor s.now session .disconnected) :=
    h.coherent.stopEmitters_eq session .disconnected
  refine ⟨h.coherent.disconnect session, h.same, h.count, ?_, ?_, h.started, h.inTurn, ?_⟩
  · rw [hemitters]
    exact h.serving_stopFor session .disconnected
  · intro generation r hr hnone
    rw [hemitters, List.forall_mem_map] at hnone
    simp only [Emitter.generation_stopFor] at hnone
    exact h.ended generation r hr hnone
  · rw [hemitters]
    exact h.behind_stopFor session .disconnected

theorem start (h : Accounted settings rs history s) (session requestId : String) (steps : List Step) :
    Accounted settings (rs ++ [⟨session, requestId, steps⟩]) history (s.start session requestId steps) := by
  have hemitters : (s.start session requestId steps).emitters =
      s.emitters.map (Emitter.stopFor s.now session .superseded) ++ [s.newEmitter session requestId steps] := by
    rw [State.start, h.coherent.stopEmitters_eq]
  have hnew : (s.newEmitter session requestId steps).generation = rs.length := h.count
  refine ⟨h.coherent.start session requestId steps, h.same, ?_, ?_, ?_, ?_, h.inTurn, ?_⟩
  · rw [List.length_append, List.length_singleton, ← h.count]
    rfl
  · rw [hemitters, List.forall_mem_append]
    constructor
    · intro e he
      obtain ⟨r, hr, hserves, hshown⟩ := h.serving_stopFor session .superseded e he
      exact ⟨r, List.getElem?_append_left (List.getElem?_eq_some_iff.1 hr).1 ▸ hr, hserves, hshown⟩
    · intro e he
      obtain rfl := List.mem_singleton.1 he
      refine ⟨⟨session, requestId, steps⟩, ?_, ⟨rfl, rfl, rfl, rfl, List.length_pos_of_ne_nil⟩, ?_⟩
      · rw [hnew, List.getElem?_concat_length]
      · rw [hnew]
        exact messagesOf_eq_nil fun m hm => Nat.ne_of_lt (h.started m hm)
  · intro generation r hr hnone
    rw [hemitters, List.forall_mem_append, List.forall_mem_map] at hnone
    simp only [Emitter.generation_stopFor, List.mem_singleton, forall_eq, hnew] at hnone
    have hless : generation < rs.length := by
      have hlength := (List.getElem?_eq_some_iff.1 hr).1
      rw [List.length_append, List.length_singleton] at hlength
      have := hnone.2
      omega
    rw [List.getElem?_append_left hless] at hr
    exact h.ended generation r hr hnone.1
  · intro m hm
    rw [List.length_append]
    exact Nat.lt_add_right _ (h.started m hm)
  · intro m hm
    rw [hemitters, List.forall_mem_append]
    refine ⟨h.behind_stopFor session .superseded m hm, fun e he _ => ?_⟩
    obtain rfl := List.mem_singleton.1 he
    rw [hnew]
    exact Nat.le_of_lt (h.started m hm)

/-- An emitter that is left has shown the steps that were its turn. -/
theorem serving_settle (h : Accounted settings rs history s) (due : Nat → Bool) :
    ∀ e ∈ (s.settle due).2.emitters, ∃ r, rs[e.generation]? = some r ∧ e.Serves r ∧
      messagesOf e.generation (history ++ s.sent due) = r.shown settings e.emitted := by
  intro e' he'
  obtain ⟨e, he, hleft⟩ := State.mem_emitters_settle.1 he'
  obtain ⟨r, hr, hserves, hshown⟩ := h.serving e he
  obtain ⟨hserves', hshown'⟩ := hserves.answers_of_run.1 e' hleft
  rw [(Emitter.waitsAs_of_left_run hleft).1.generation, messagesOf_append, hshown,
    h.coherent.messagesOf_sent due he]
  rw [h.same] at hshown' ⊢
  exact ⟨r, hr, hserves', hshown'⟩

/-- An emitter that is not left has answered its request in full. -/
theorem ended_settle (h : Accounted settings rs history s) (due : Nat → Bool) {generation : Nat} {r : Request}
    (hr : rs[generation]? = some r) (hnone : ∀ e ∈ (s.settle due).2.emitters, e.generation ≠ generation) :
    Answers settings r (messagesOf generation (history ++ s.sent due)) := by
  rw [messagesOf_append]
  by_cases hserved : ∃ e ∈ s.emitters, e.generation = generation
  · obtain ⟨e, he, rfl⟩ := hserved
    obtain ⟨r', hr', hserves, hshown⟩ := h.serving e he
    obtain rfl : r = r' := Option.some.inj (hr.symm.trans hr')
    have hleft : (e.run s.settings due).left = none := by
      rw [Option.eq_none_iff_forall_ne_some]
      intro e' hleft
      exact hnone e' (State.mem_emitters_settle.2 ⟨e, he, hleft⟩)
        (Emitter.waitsAs_of_left_run hleft).1.generation
    have hanswers := hserves.answers_of_run.2 hleft
    rw [hshown, h.coherent.messagesOf_sent due he]
    rw [h.same] at hanswers ⊢
    exact hanswers
  · have hnobody : ∀ e ∈ s.emitters, e.generation ≠ generation := fun e he heq => hserved ⟨e, he, heq⟩
    rw [State.messagesOf_sent_eq_nil hnobody, List.append_nil]
    exact h.ended generation r hr hnobody

/-- What is sent now comes behind what was sent, session by session. -/
theorem inTurn_settle (h : Accounted settings rs history s) (due : Nat → Bool) (session : String) :
    (turns session (history ++ s.sent due)).Pairwise (· ≤ ·) := by
  rw [turns_append, List.pairwise_append]
  refine ⟨h.inTurn session, h.coherent.pairwise_turns due session, fun a ha b hb => ?_⟩
  obtain ⟨m, hm, hsession, rfl⟩ := mem_turns.1 ha
  obtain ⟨m', hm', hsession', rfl⟩ := mem_turns.1 hb
  obtain ⟨e, he, hme⟩ := State.mem_sent.1 hm'
  obtain ⟨hgeneration, hown, -, -⟩ := of_mem_sent hme
  rw [hgeneration]
  exact h.behind m hm e he (hsession.trans (hsession'.symm.trans hown))

/-- An emitter that is left is the last one of its session that has sent anything. -/
theorem behind_settle (h : Accounted settings rs history s) (due : Nat → Bool)
    (hdue : ∀ e ∈ s.emitters, e.cancel ≠ none → due e.wake = true) :
    ∀ m ∈ history ++ s.sent due, ∀ e ∈ (s.settle due).2.emitters,
      m.message.session? = some e.session → m.generation ≤ e.generation := by
  intro m hm e' he' hsession
  obtain ⟨e, he, hleft⟩ := State.mem_emitters_settle.1 he'
  obtain ⟨hwaits, -⟩ := Emitter.waitsAs_of_left_run hleft
  rw [hwaits.session] at hsession
  rw [hwaits.generation]
  rcases List.mem_append.1 hm with hm | hm
  · exact h.behind m hm e he hsession
  · obtain ⟨f, hf, hmf⟩ := State.mem_sent.1 hm
    obtain ⟨hgeneration, hown, -, -⟩ := of_mem_sent hmf
    rw [hgeneration]
    have hsame : e.session = f.session := Option.some.inj (hsession.symm.trans hown)
    by_contra hlater
    -- the earlier emitter of the session was told to stop, so it is not left
    have hcancel := (h.coherent.stopped_of_lt he hf hsame (by omega)).1
    rw [Emitter.left_run_eq_none hcancel (hdue e he hcancel)] at hleft
    cases hleft

/-- What the emitters send when it is time is accounted for. -/
theorem settle (h : Accounted settings rs history s) (due : Nat → Bool)
    (hdue : ∀ e ∈ s.emitters, e.cancel ≠ none → due e.wake = true) :
    Accounted settings rs (history ++ s.sent due) (s.settle due).2 := by
  refine ⟨h.coherent.settle hdue, h.same, h.count, h.serving_settle due,
    fun _ _ => h.ended_settle due, ?_, h.inTurn_settle due, h.behind_settle due hdue⟩
  rw [List.forall_mem_append]
  refine ⟨h.started, fun m hm => ?_⟩
  obtain ⟨e, he, hme⟩ := State.mem_sent.1 hm
  rw [(of_mem_sent hme).1]
  exact h.started_of_emitter he

theorem later (h : Accounted settings rs history s) (time : Nat) :
    Accounted settings rs history { s with now := s.now + time } :=
  ⟨h.coherent.later time, h.same, h.count, h.serving, h.ended, h.started, h.inTurn, h.behind⟩

/-- **Every event keeps the accounts**, and adds the request that it starts. -/
theorem react (h : Accounted settings rs history s) (event : Event) :
    Accounted settings (rs ++ event.request?.toList) (history ++ (s.react event).1) (s.react event).2 := by
  cases event with
  | take fresh message =>
    cases message with
    | request session requestId steps =>
      have hsent : (s.react (.take fresh (.request session requestId steps))).1 = [] := rfl
      rw [hsent, List.append_nil]
      exact h.start session (requestId.getD fresh) steps
    | disconnect session =>
      have hsent : (s.react (.take fresh (.disconnect session))).1 = [] := rfl
      have hrequest : (Event.take fresh (.disconnect session)).request?.toList = [] := rfl
      rw [hsent, hrequest, List.append_nil, List.append_nil]
      exact h.disconnect session
  | pass time =>
    have hrequest : (Event.pass time).request?.toList = [] := rfl
    rw [hrequest, List.append_nil]
    exact (h.later time).settle (· ≤ s.now + time) (h.coherent.due_of_cancel time)

theorem trace (h : Accounted settings rs history s) (events : List Event) :
    Accounted settings (rs ++ requests events) (history ++ (s.trace events).1) (s.trace events).2 := by
  induction events generalizing rs history s with
  | nil => simpa [requests, State.trace] using h
  | cons event events ih =>
    have hrequests : requests (event :: events) = event.request?.toList ++ requests events := by
      cases hrequest : event.request? <;> simp [requests, hrequest]
    rw [State.trace, hrequests, ← List.append_assoc, ← List.append_assoc]
    exact ih (h.react event)

/-- A request is answered so far, unless it has no steps and its emitter did not run yet. -/
theorem answers_or (h : Accounted settings rs history s) {generation : Nat} {r : Request}
    (hr : rs[generation]? = some r) : Answers settings r (messagesOf generation history) ∨
      r.steps = [] ∧ messagesOf generation history = [] := by
  by_cases hserved : ∃ e ∈ s.emitters, e.generation = generation
  · obtain ⟨e, he, rfl⟩ := hserved
    obtain ⟨r', hr', hserves, hshown⟩ := h.serving e he
    obtain rfl : r = r' := Option.some.inj (hr.symm.trans hr')
    rw [hshown]
    by_cases hsteps : r.steps = []
    · exact Or.inr ⟨hsteps, Request.shown_of_steps_eq_nil hsteps e.emitted⟩
    · exact Or.inl (.shown e.emitted (hserves.more hsteps))
  · exact Or.inl (h.ended generation r hr fun e he heq => hserved ⟨e, he, heq⟩)

/-- Once the emitters have run every request is answered so far. -/
theorem answers_of_pass (h : Accounted settings rs history s) (time : Nat) {generation : Nat} {r : Request}
    (hr : rs[generation]? = some r) :
    Answers settings r (messagesOf generation (history ++ (s.react (.pass time)).1)) := by
  have hafter : Accounted settings rs (history ++ (s.react (.pass time)).1) (s.react (.pass time)).2 :=
    (h.later time).settle (· ≤ s.now + time) (h.coherent.due_of_cancel time)
  by_cases hserved : ∃ e ∈ (s.react (.pass time)).2.emitters, e.generation = generation
  · obtain ⟨e, he, rfl⟩ := hserved
    obtain ⟨r', hr', hserves, hshown⟩ := hafter.serving e he
    obtain rfl : r = r' := Option.some.inj (hr.symm.trans hr')
    obtain ⟨-, htotal, -⟩ := State.of_mem_settle (h.coherent.due_of_cancel time) e he
    rw [hshown]
    refine .shown e.emitted (hserves.more fun hnil => htotal ?_)
    rw [hserves.total, hnil, List.length_nil]
  · exact hafter.ended generation r hr fun e he heq => hserved ⟨e, he, heq⟩

end Accounted

/-- **What every run sends**: each request is answered with the records of its steps, numbered from 1
and without gaps, and behind them with at most one message, which says that it is complete when all
steps were shown, or superseded when not; a request without steps is answered with the record of a
failure, as soon as the emitters run. Nothing else is sent, and for one session the messages of two
requests do not mix. -/
theorem answers_of_trace (settings : Settings) (events : List Event) :
    let sent := ((State.initial settings).trace events).1
    sent.map Sent.message = ((State.initial settings).play events).1 ∧
    (∀ m ∈ sent, m.generation < (requests events).length) ∧
    (∀ generation r, (requests events)[generation]? = some r →
      (Answers settings r (messagesOf generation sent) ∨ r.steps = [] ∧ messagesOf generation sent = []) ∧
      ∀ time, Answers settings r
        (messagesOf generation ((State.initial settings).trace (events ++ [.pass time])).1)) ∧
    ∀ session, (turns session sent).Pairwise (· ≤ ·) := by
  intro sent
  have haccounted := (accounted_initial settings).trace events
  rw [List.nil_append, List.nil_append] at haccounted
  refine ⟨by rw [State.play_eq_trace], haccounted.started, fun generation r hr => ?_, haccounted.inTurn⟩
  refine ⟨haccounted.answers_or hr, fun time => ?_⟩
  rw [State.trace_append, State.trace, State.trace, List.append_nil]
  exact haccounted.answers_of_pass time hr

/-- A request that is superseded behind the first of its two steps, and the one that comes in its place. -/
theorem answers_of_trace_superseded :
    let old : Request := ⟨"s", "old", [⟨"first", ""⟩, ⟨"second", ""⟩]⟩
    let new : Request := ⟨"s", "new", [⟨"only", ""⟩]⟩
    let events : List Event := [.take "old" (.request "s" none old.steps), .pass 0,
      .take "" (.request "s" (some "new") new.steps), .pass 0]
    let sent := ((State.initial {}).trace events).1
    requests events = [old, new] ∧
    messagesOf 0 sent = [.step "s" ⟨"first", none, none, 1, 2, "old"⟩, .superseded "s" "old" 1] ∧
    messagesOf 1 sent = [.step "s" ⟨"only", none, none, 1, 1, "new"⟩, .complete "s" "new" 1] ∧
    turns "s" sent = [0, 0, 1, 1] ∧
    Answers {} old (messagesOf 0 sent) ∧ Answers {} new (messagesOf 1 sent) := by
  refine ⟨rfl, by cbv, by cbv, by cbv, ?_⟩
  obtain ⟨-, -, hanswers, -⟩ := answers_of_trace {} [
    .take "old" (.request "s" none [⟨"first", ""⟩, ⟨"second", ""⟩]), .pass 0,
    .take "" (.request "s" (some "new") [⟨"only", ""⟩]), .pass 0]
  have hold := (hanswers 0 _ rfl).1.resolve_right (by simp)
  have hnew := (hanswers 1 _ rfl).1.resolve_right (by simp)
  exact ⟨hold, hnew⟩

end MathMarkup.Relay
