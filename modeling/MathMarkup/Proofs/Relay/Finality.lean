import Mathlib
import MathMarkup.Proofs.Relay.Answers
import MathMarkup.Relay.Serve

/-!
# What a request still sends when it was told to stop

An emitter that was told to stop says its last words the next time it runs, and then it is gone
(`State.Coherent.messagesOf_of_cancel`). Its last words depend on the message that came, except for a
request without steps, which does not listen.

Main theorem: `last_words_of_live`. It covers runs of any length as well as `serve`, which takes in all
lines before any emitter runs (`serve_eq`).
-/

namespace MathMarkup.Relay

variable {settings : Settings} {s : State} {due : Nat → Bool} {e : Emitter} {generation : Nat}
  {fresh : String} {message : Inbound} {names : Names}

/-- What a message tells the live request of its session. -/
def Inbound.reason : Inbound → Cancel
  | .request _ _ _ => .superseded
  | .disconnect _ => .disconnected

/-- Do the emitters run? -/
def Event.letsRun : Event → Bool
  | .take _ _ => false
  | .pass _ => true

/-- All that is sent in a run behind which the emitters run to their end. -/
def State.traceToEnd (s : State) (events : List Event) : List Sent :=
  (s.trace events).1 ++ (s.trace events).2.sent fun _ => true

/-! ## The last words of an emitter -/

namespace Emitter

/-- What an emitter that was told to stop still sends. -/
def lastWords (e : Emitter) : List Outbound :=
  if e.total = 0 then
    [.step e.session (Record.failure e.requestId), .complete e.session e.requestId 1]
  else if e.cancel = some .superseded then [.superseded e.session e.requestId e.emitted]
  else []

/-- An emitter with steps to send says at most that it was superseded. -/
theorem Sends.messages_of_cancel {emitted wake : Nat} {pending : List Step} {run : Run}
    (h : Sends settings due e emitted wake pending run) (hcancel : e.cancel ≠ none) (hdue : due wake = true)
    (hpending : pending ≠ []) : run.messages =
      if e.cancel = some .superseded then [.superseded e.session e.requestId emitted] else [] := by
  cases h with
  | done => exact absurd rfl hpending
  | waits _ _ _ hnot => exact absurd hdue (by simp [hnot])
  | superseded _ _ _ _ hstopped => rw [if_pos hstopped]; rfl
  | disconnected _ _ _ _ hstopped => simp [hstopped, Run.messages]
  | last _ _ _ hnone => exact absurd hnone hcancel
  | next _ _ hnone => exact absurd hnone hcancel

theorem messages_run_of_cancel (hcancel : e.cancel ≠ none) (hdue : due e.wake = true)
    (hpending : e.total ≠ 0 → e.pending ≠ []) : (e.run settings due).messages = e.lastWords := by
  by_cases htotal : e.total = 0
  · rw [run_of_total_eq_zero htotal, lastWords, if_pos htotal]
    rfl
  · rw [(sends_run htotal).messages_of_cancel hcancel hdue (hpending htotal), lastWords, if_neg htotal]

end Emitter

/-! ## The emitters behind a message -/

namespace State

/-- The emitters that a message starts. -/
def started (s : State) (fresh : String) : Inbound → List Emitter
  | .request session requestId steps => [s.newEmitter session (requestId.getD fresh) steps]
  | .disconnect _ => []

theorem generation_of_mem_started (he : e ∈ s.started fresh message) : e.generation = s.nextGeneration := by
  cases message with
  | request session requestId steps =>
    rw [started, List.mem_singleton] at he
    rw [he]
    rfl
  | disconnect session => cases he

/-- A message tells the emitters of its session to stop, and what it starts stands behind them. -/
theorem Coherent.emitters_handle (h : s.Coherent) (fresh : String) (message : Inbound) :
    (s.handle fresh message).emitters =
      s.emitters.map (Emitter.stopFor s.now message.session message.reason) ++ s.started fresh message := by
  cases message with
  | request session requestId steps =>
    rw [State.handle, State.start, h.stopEmitters_eq]
    rfl
  | disconnect session =>
    rw [State.handle, State.disconnect, h.stopEmitters_eq]
    exact (List.append_nil _).symm

/-- What a message leaves of an emitter. -/
theorem Coherent.stopFor_mem_handle (h : s.Coherent) (he : e ∈ s.emitters) (fresh : String)
    (message : Inbound) :
    e.stopFor s.now message.session message.reason ∈ (s.handle fresh message).emitters := by
  rw [h.emitters_handle]
  exact List.mem_append_left _ (List.mem_map_of_mem he)

theorem nextGeneration_le_react (s : State) (event : Event) :
    s.nextGeneration ≤ (s.react event).2.nextGeneration := by
  cases event with
  | take fresh message =>
    cases message with
    | request session requestId steps => exact Nat.le_succ _
    | disconnect session => exact Nat.le_refl _
  | pass time => exact Nat.le_refl _

theorem traceToEnd_nil (s : State) : s.traceToEnd [] = s.sent fun _ => true := rfl

theorem traceToEnd_cons (s : State) (event : Event) (events : List Event) :
    s.traceToEnd (event :: events) = (s.react event).1 ++ (s.react event).2.traceToEnd events :=
  List.append_assoc _ _ _

/-- A request that has no emitter is given none. -/
theorem Coherent.generation_ne_react (h : s.Coherent) (hold : generation < s.nextGeneration)
    (hnone : ∀ e ∈ s.emitters, e.generation ≠ generation) (event : Event) :
    ∀ e ∈ (s.react event).2.emitters, e.generation ≠ generation := by
  cases event with
  | take fresh message =>
    intro e he
    rw [State.react, h.emitters_handle, List.mem_append, List.mem_map] at he
    rcases he with ⟨f, hf, rfl⟩ | he
    · rw [Emitter.generation_stopFor]
      exact hnone f hf
    · rw [generation_of_mem_started he]
      omega
  | pass time =>
    intro e' he'
    obtain ⟨e, he, hleft⟩ := mem_emitters_settle.1 he'
    rw [(Emitter.waitsAs_of_left_run hleft).1.generation]
    exact hnone e he

/-- A request whose emitter is gone sends nothing any more. -/
theorem Coherent.messagesOf_traceToEnd_eq_nil (h : s.Coherent) (hold : generation < s.nextGeneration)
    (hnone : ∀ e ∈ s.emitters, e.generation ≠ generation) (events : List Event) :
    messagesOf generation (s.traceToEnd events) = [] := by
  induction events generalizing s with
  | nil =>
    rw [traceToEnd_nil]
    exact messagesOf_sent_eq_nil hnone
  | cons event events ih =>
    have hnow : messagesOf generation (s.react event).1 = [] := by
      cases event with
      | take fresh message => rfl
      | pass time => exact messagesOf_sent_eq_nil hnone
    have hlater := ih (h.react event) (Nat.lt_of_lt_of_le hold (s.nextGeneration_le_react event))
      (h.generation_ne_react hold hnone event)
    rw [traceToEnd_cons, messagesOf_append, hnow, hlater]
    rfl

/-- **Last words**: what a request sends after its emitter was told to stop. It is sent the next time that
emitters run. -/
theorem Coherent.messagesOf_of_cancel (h : s.Coherent) (he : e ∈ s.emitters) (hcancel : e.cancel ≠ none)
    (hpending : e.total ≠ 0 → e.pending ≠ []) (events : List Event) :
    messagesOf e.generation (s.trace events).1 = (if events.any Event.letsRun then e.lastWords else []) ∧
    messagesOf e.generation (s.traceToEnd events) = e.lastWords := by
  induction events generalizing s with
  | nil =>
    refine ⟨rfl, ?_⟩
    rw [traceToEnd_nil, h.messagesOf_sent _ he]
    exact Emitter.messages_run_of_cancel hcancel rfl hpending
  | cons event events ih =>
    cases event with
    | take fresh message =>
      -- it is told only once
      have hstays := h.stopFor_mem_handle he fresh message
      rw [Emitter.stopFor_of_cancel hcancel] at hstays
      exact ih (h.handle fresh message) hstays
    | pass time =>
      have hdue : decide (e.wake ≤ s.now + time) = true := h.due_of_cancel time e he hcancel
      have hnow : messagesOf e.generation (s.react (.pass time)).1 = e.lastWords := by
        have hsent := (h.later time).messagesOf_sent (· ≤ s.now + time) he
        exact hsent.trans (Emitter.messages_run_of_cancel hcancel hdue hpending)
      have hgone : ∀ f ∈ (s.react (.pass time)).2.emitters, f.generation ≠ e.generation := by
        intro f' hf' hsame
        obtain ⟨f, hf, hleft⟩ := mem_emitters_settle.1 hf'
        rw [(Emitter.waitsAs_of_left_run hleft).1.generation] at hsame
        obtain rfl := h.eq_of_generation hf he hsame
        rw [Emitter.left_run_eq_none hcancel hdue] at hleft
        cases hleft
      have hlater := (h.react (.pass time)).messagesOf_traceToEnd_eq_nil (h.fresh e he) hgone events
      have hquiet : messagesOf e.generation ((s.react (.pass time)).2.trace events).1 = [] := by
        rw [traceToEnd, messagesOf_append] at hlater
        exact (List.append_eq_nil_iff.1 hlater).1
      constructor
      · rw [State.trace, messagesOf_append, hnow, hquiet]
        simp [Event.letsRun]
      · rw [traceToEnd_cons, messagesOf_append, hnow, hlater, List.append_nil]

end State

/-! ## Lines -/

/-- The message that a line holds, taken in. -/
def Event.ofLine? (fresh line : String) : Option Event :=
  match readLine? line with
  | some (.ok message) => some (.take fresh message)
  | _ => none

/-- The messages that the lines hold, taken in one after the other. -/
def lineEvents (names : Names) (lines : List String) : List Event :=
  (names.along lines).filterMap fun (fresh, line) => Event.ofLine? fresh line

theorem handleLines_snd (s : State) (lines : List (String × String)) :
    (s.handleLines lines).2 = (s.trace (lines.filterMap fun (fresh, line) => Event.ofLine? fresh line)).2 := by
  induction lines generalizing s with
  | nil => rfl
  | cons line lines ih =>
    obtain ⟨fresh, line⟩ := line
    rw [State.handleLines, State.handleLine, List.filterMap_cons]
    simp only [Event.ofLine?]
    rcases readLine? line with _ | fault | message
    · exact ih s
    · exact ih s
    · exact ih (s.handle fresh message)

/-- While messages are only taken in, nothing is sent. -/
theorem trace_fst_eq_nil (s : State) {events : List Event} (h : ∀ event ∈ events, event.letsRun = false) :
    (s.trace events).1 = [] := by
  induction events generalizing s with
  | nil => rfl
  | cons event events ih =>
    rw [List.forall_mem_cons] at h
    cases event with
    | take fresh message => exact ih (s.handle fresh message) h.2
    | pass time => cases h.1

theorem letsRun_of_mem_lineEvents {lines : List String} :
    ∀ event ∈ lineEvents names lines, event.letsRun = false := by
  intro event hevent
  obtain ⟨⟨fresh, line⟩, -, hline⟩ := List.mem_filterMap.1 hevent
  simp only [Event.ofLine?] at hline
  split at hline
  · obtain rfl := Option.some.inj hline
    rfl
  · cases hline

/-- Only lines that cannot be read are answered at once. -/
theorem session?_of_mem_handleLines (s : State) (lines : List (String × String)) :
    ∀ m ∈ (s.handleLines lines).1, m.session? = none := by
  induction lines generalizing s with
  | nil => nofun
  | cons line lines ih =>
    obtain ⟨fresh, line⟩ := line
    rw [State.handleLines, State.handleLine]
    rcases readLine? line with _ | fault | message
    · exact ih s
    · intro m hm
      rcases List.mem_cons.1 hm with rfl | hm
      · rfl
      · exact ih s m hm
    · exact ih (s.handle fresh message)

/-- Serving lines is a run that takes in their messages, behind the refusals of what is none. -/
theorem serve_eq (settings : Settings) (names : Names) (lines : List String) :
    ∃ refused, serve settings names lines = refused ++
        ((State.initial settings).traceToEnd (lineEvents names lines)).map Sent.message ∧
      ∀ m ∈ refused, m.session? = none := by
  refine ⟨_, ?_, session?_of_mem_handleLines (State.initial settings) (names.along lines)⟩
  rw [State.traceToEnd, trace_fst_eq_nil _ letsRun_of_mem_lineEvents, List.nil_append,
    State.map_message_sent, lineEvents, ← handleLines_snd]
  rfl

/-- A run that serves lines, from the place on where one of their messages is taken in. -/
theorem traceToEnd_lineEvents {lines : List String} {before after : List Event}
    (h : lineEvents names lines = before ++ .take fresh message :: after) (s : State) :
    s.traceToEnd (lineEvents names lines) = ((s.trace before).2.handle fresh message).traceToEnd after := by
  have hquiet : (s.trace before).1 = [] := by
    refine trace_fst_eq_nil s fun event hevent => ?_
    have hmem : event ∈ lineEvents names lines := by
      rw [h]
      exact List.mem_append_left _ hevent
    exact letsRun_of_mem_lineEvents event hmem
  rw [h, State.traceToEnd, State.trace_append, hquiet]
  rfl

/-! ## The last words of a request -/

/-- What a request with steps, some of which were shown, still sends when a message for its session comes:
that it was superseded, or nothing. -/
def Request.lastWords (r : Request) (shown : Nat) : Inbound → List Outbound
  | .request _ _ _ => [.superseded r.session r.requestId shown]
  | .disconnect _ => []

variable {r : Request}

namespace Emitter

theorem Serves.lastWords_stop (h : e.Serves r) (now : Nat) (message : Inbound) :
    (e.stop now message.reason).lastWords =
      if r.steps = [] then [.step r.session (Record.failure r.requestId), .complete r.session r.requestId 1]
      else r.lastWords e.emitted message := by
  have htotal : (e.stop now message.reason).total = 0 ↔ r.steps = [] := h.total_eq_zero_iff
  rw [lastWords]
  by_cases hsteps : r.steps = []
  · rw [if_pos hsteps, if_pos (htotal.2 hsteps)]
    simp [stop, h.session, h.requestId]
  · rw [if_neg hsteps, if_neg (hsteps ∘ htotal.1)]
    cases message <;> simp [stop, Inbound.reason, Request.lastWords, h.session, h.requestId]

end Emitter

/-- **Being told to stop is final** for a live request with steps: behind a disconnect it sends nothing,
and behind a newer request only that it was superseded, as soon as emitters run. This holds however the run
goes on, and for lines that are served. A live request without steps is not stopped: it sends the record of
a failure, and that it is complete, behind either message. -/
theorem last_words_of_live (settings : Settings) (before : List Event) (fresh : String) (message : Inbound)
    (after : List Event) (generation : Nat)
    (hlive : (message.session, generation) ∈ ((State.initial settings).trace before).2.live) :
    let earlier := ((State.initial settings).trace before).1
    let told := ((State.initial settings).trace before).2.handle fresh message
    (∃ r, (requests before)[generation]? = some r ∧ r.session = message.session ∧
      (r.steps ≠ [] →
        let words := r.lastWords (messagesOf generation earlier).length message
        messagesOf generation (told.trace after).1 = (if after.any Event.letsRun then words else []) ∧
        messagesOf generation (told.traceToEnd after) = words) ∧
      (r.steps = [] →
        messagesOf generation (told.traceToEnd after) =
          [.step r.session (Record.failure r.requestId), .complete r.session r.requestId 1])) ∧
    ∀ (names : Names) lines, lineEvents names lines = before ++ .take fresh message :: after →
      ∃ refused, serve settings names lines = refused ++ (told.traceToEnd after).map Sent.message ∧
        ∀ m ∈ refused, m.session? = none := by
  intro earlier told
  constructor
  · have haccounted := (accounted_initial settings).trace before
    rw [List.nil_append, List.nil_append] at haccounted
    have hcoherent := haccounted.coherent
    obtain ⟨e, he, hcancel, hsession, rfl⟩ := (hcoherent.live _ _).1 hlive
    obtain ⟨r, hr, hserves, hshown⟩ := haccounted.serving e he
    have hstopped := hcoherent.stopFor_mem_handle he fresh message
    rw [Emitter.stopFor_eq hcancel hsession] at hstopped
    have hsent := (hcoherent.handle fresh message).messagesOf_of_cancel hstopped
      (Option.some_ne_none _) hserves.pending_ne_nil after
    rw [hserves.lastWords_stop] at hsent
    refine ⟨r, hr, hserves.session.symm.trans hsession, ?_, ?_⟩
    · intro hsteps words
      have hcount : (messagesOf e.generation earlier).length = e.emitted := by
        have hmore := hserves.more hsteps
        rw [hshown, Request.length_shown]
        omega
      have hwords : words = r.lastWords e.emitted message := congrArg (r.lastWords · message) hcount
      rw [if_neg hsteps, ← hwords] at hsent
      exact hsent
    · intro hsteps
      rw [if_pos hsteps] at hsent
      exact hsent.2
  · intro names lines hlines
    obtain ⟨refused, hserve, hrefused⟩ := serve_eq settings names lines
    rw [traceToEnd_lineEvents hlines] at hserve
    exact ⟨refused, hserve, hrefused⟩

/-- Superseded behind the first of two steps. -/
theorem last_words_of_live_superseded :
    let before : List Event :=
      [.take "" (.request "s" (some "old") [⟨"first", ""⟩, ⟨"second", ""⟩]), .pass 0]
    let told := ((State.initial {}).trace before).2.handle "" (.request "s" (some "new") [])
    ("s", 0) ∈ ((State.initial {}).trace before).2.live ∧
      messagesOf 0 (told.trace [.pass 0]).1 = [.superseded "s" "old" 1] := by
  intro before told
  have hlive : ("s", 0) ∈ ((State.initial {}).trace before).2.live := by decide
  have hshown : (messagesOf 0 ((State.initial {}).trace before).1).length = 1 := by cbv
  obtain ⟨⟨r, hr, -, hsteps, -⟩, -⟩ :=
    last_words_of_live {} before "" (.request "s" (some "new") []) [.pass 0] 0 hlive
  obtain rfl : ⟨"s", "old", [⟨"first", ""⟩, ⟨"second", ""⟩]⟩ = r := Option.some.inj hr
  have hwords := (hsteps (by decide)).1
  rw [hshown] at hwords
  exact ⟨hlive, hwords⟩

/-- A request without steps is live and hears of neither message: all of its answer comes behind the end of
its session. -/
theorem disconnect_unheard :
    let asked := "\x7b\"event\":\"request_math\",\"session\":\"s\",\"requestId\":\"r\",\"steps\":[]\x7d"
    let ended := "\x7b\"event\":\"disconnect\",\"session\":\"s\"\x7d"
    lineEvents "" [ended] = [.take "" (.disconnect "s")] ∧
      ((State.initial {}).trace (lineEvents "" [asked])).2.live = [("s", 0)] ∧
      serve {} "" [asked, ended] = [.step "s" (Record.failure "r"), .complete "s" "r" 1] := by
  refine ⟨?_, ?_, ?_⟩ <;> cbv

end MathMarkup.Relay
