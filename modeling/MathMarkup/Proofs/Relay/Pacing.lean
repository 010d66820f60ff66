import MathMarkup.Proofs.Relay.Sessions
import MathMarkup.Proofs.Relay.Splitting

/-!
# When the steps of a request are sent

`Request.schedule` says when the messages of a request are due that nobody stops. What was sent of it and
what its emitter would still send are the schedule all the time (`OnSchedule`): a stretch of time moves a
part of it from the emitter to the messages, and a message that does not find the request live leaves it
alone. So the part that was sent is what is due (`OnSchedule.deliveriesOf_eq`).

Main theorem: `paced_of_play`.
-/

namespace MathMarkup.Relay

variable {settings : Settings} {s : State} {due : Nat → Bool} {e : Emitter} {r : Request} {rs : List Request}
  {history : List Sent} {event : Event} {generation start : Nat}

/-! ## The schedule of a request -/

/-- The steps of a request, a pause apart. -/
def Request.paced (settings : Settings) (r : Request) (start : Nat) : List Delivery :=
  (Record.ofSteps settings.engine r.requestId r.steps).mapIdx fun k record =>
    ⟨start + k * settings.stepDelay, .step r.session record⟩

/-- The messages of a request that is taken in at `start` and never told to stop: the steps, a pause apart,
and with the last one that it is complete. Without steps there is the record of a failure. -/
def Request.schedule (settings : Settings) (r : Request) (start : Nat) : List Delivery :=
  if r.steps = [] then
    [⟨start, .step r.session (Record.failure r.requestId)⟩, ⟨start, .complete r.session r.requestId 1⟩]
  else
    r.paced settings start ++ [⟨start + (r.steps.length - 1) * settings.stepDelay,
      .complete r.session r.requestId r.steps.length⟩]

theorem Request.getElem?_paced {step : Step} {k : Nat} (h : r.steps[k]? = some step) :
    (r.paced settings start)[k]? = some ⟨start + k * settings.stepDelay,
      .step r.session (Record.ofStep settings.engine r.requestId step (k + 1) r.steps.length)⟩ := by
  simp [paced, Record.ofSteps, h, Nat.add_comm]

theorem Request.drop_paced {step : Step} {k : Nat} (h : r.steps[k]? = some step) :
    (r.paced settings start).drop k = ⟨start + k * settings.stepDelay,
      .step r.session (Record.ofStep settings.engine r.requestId step (k + 1) r.steps.length)⟩ ::
        (r.paced settings start).drop (k + 1) := by
  have hpaced : (r.paced settings start)[k]? = some ⟨start + k * settings.stepDelay,
      .step r.session (Record.ofStep settings.engine r.requestId step (k + 1) r.steps.length)⟩ := getElem?_paced h
  obtain ⟨hk, hget⟩ := List.getElem?_eq_some_iff.1 hpaced
  rw [List.drop_eq_getElem_cons hk, hget]

theorem Request.length_paced : (r.paced settings start).length = r.steps.length := by
  simp [paced, Record.ofSteps]

namespace Emitter

/-- What the emitter sends when time passes without end. -/
def rest (settings : Settings) (e : Emitter) : List Delivery := (e.run settings fun _ => true).sent

/-- A stretch of time takes the beginning of the rest. -/
theorem rest_eq_append (due : Nat → Bool) (e : Emitter) : e.rest settings =
    (e.run settings due).sent ++ (e.run settings due).left.toList.flatMap (Emitter.rest settings) := by
  have hresume : e.run settings (fun _ => true) = (e.run settings due).resume (·.run settings fun _ => true) :=
    run_eq_resume fun _ _ => rfl
  rw [rest, hresume]
  cases hleft : (e.run settings due).left with
  | none => rw [Run.resume_of_none hleft, Option.toList_none, List.flatMap_nil, List.append_nil]
  | some e' => rw [Run.resume_of_some hleft, Option.toList_some, List.flatMap_singleton, rest]

/-- Nobody stops the emitter, so it sends the pending steps, a pause apart. -/
theorem Sends.sent_eq_drop {emitted wake : Nat} {pending : List Step} {run : Run}
    (h : Sends settings (fun _ => true) e emitted wake pending run) (hcancel : e.cancel = none)
    (hsession : e.session = r.session) (hid : e.requestId = r.requestId) (htotal : e.total = r.steps.length)
    (hpending : pending = r.steps.drop emitted) (hne : pending ≠ [])
    (hwake : wake = start + emitted * settings.stepDelay) :
    run.sent = (r.paced settings start).drop emitted ++
      [⟨start + (r.steps.length - 1) * settings.stepDelay, .complete r.session r.requestId r.steps.length⟩] := by
  induction h with
  | done => exact absurd rfl hne
  | waits _ _ _ hdue => cases hdue
  | superseded _ _ _ _ hstopped => cases hcancel.symm.trans hstopped
  | disconnected _ _ _ _ hstopped => cases hcancel.symm.trans hstopped
  | last emitted step =>
    obtain ⟨hstep, -, -⟩ := getElem?_of_drop_eq_cons hpending
    have hlength := length_of_drop_eq_singleton hpending
    have hlast : (r.paced settings start).drop (emitted + 1) = [] :=
      List.drop_eq_nil_of_le (Nat.le_of_eq (Request.length_paced.trans hlength))
    rw [Request.drop_paced hstep, hlast, hlength, Nat.add_sub_cancel]
    simp only [record, complete, hsession, hid, htotal, hlength, hwake, List.cons_append, List.nil_append]
  | @next emitted wake step rest run _ _ hrest _ ih =>
    obtain ⟨hstep, hdrop, -⟩ := getElem?_of_drop_eq_cons hpending
    have hnext : wake + settings.stepDelay = start + (emitted + 1) * settings.stepDelay := by
      rw [hwake, Nat.succ_mul, Nat.add_assoc]
    rw [Request.drop_paced hstep, List.cons_append, ← ih hdrop hrest hnext]
    simp only [Run.behind, record, hsession, hid, htotal, hwake]

/-- **A new emitter** has all of the schedule to send. -/
theorem rest_newEmitter (s : State) (session requestId : String) (steps : List Step) :
    (s.newEmitter session requestId steps).rest settings =
      Request.schedule settings ⟨session, requestId, steps⟩ s.now := by
  by_cases hsteps : steps = []
  · rw [Request.schedule, if_pos hsteps, rest, run_of_total_eq_zero (List.length_eq_zero_iff.2 hsteps)]
    rfl
  · have htotal : (s.newEmitter session requestId steps).total ≠ 0 :=
      fun hzero => hsteps (List.length_eq_zero_iff.1 hzero)
    have hwake : s.now = s.now + 0 * settings.stepDelay := by rw [Nat.zero_mul, Nat.add_zero]
    rw [Request.schedule, if_neg hsteps, rest]
    exact (sends_run htotal).sent_eq_drop (r := ⟨session, requestId, steps⟩) rfl rfl rfl rfl rfl hsteps hwake

end Emitter

/-! ## Messages of one request -/

/-- What was sent for one request, and when. -/
def deliveriesOf (generation : Nat) (sent : List Sent) : List Delivery :=
  (sent.filter fun m => m.generation = generation).map Sent.delivery

theorem deliveriesOf_append (generation : Nat) (a b : List Sent) :
    deliveriesOf generation (a ++ b) = deliveriesOf generation a ++ deliveriesOf generation b := by
  rw [deliveriesOf, List.filter_append, List.map_append, deliveriesOf, deliveriesOf]

theorem deliveriesOf_eq_nil {sent : List Sent} (h : ∀ m ∈ sent, m.generation ≠ generation) :
    deliveriesOf generation sent = [] := by
  rw [deliveriesOf, List.map_eq_nil_iff, List.filter_eq_nil_iff]
  exact fun m hm => by simpa using h m hm

namespace State

theorem Coherent.deliveriesOf_sent (h : s.Coherent) (due : Nat → Bool) (he : e ∈ s.emitters) :
    deliveriesOf e.generation (s.sent due) = (e.run s.settings due).sent := by
  have hown := h.filter_unsorted due he
  rw [deliveriesOf, sent, Sent.filter_mergeSort (by rw [hown]; exact Relay.pairwise_sent), hown, Emitter.sent,
    List.map_map]
  exact List.map_id _

theorem deliveriesOf_sent_eq_nil (h : ∀ e ∈ s.emitters, e.generation ≠ generation) :
    deliveriesOf generation (s.sent due) = [] := by
  refine deliveriesOf_eq_nil fun m hm => ?_
  obtain ⟨e, he, hme⟩ := mem_sent.1 hm
  rw [(of_mem_sent hme).1]
  exact h e he

end State

/-! ## On schedule -/

/-- No message for the session finds its request with this number live, so nobody tells that one to
stop. -/
def Undisturbed (session : String) (generation : Nat) : State → List Event → Prop
  | _, [] => True
  | s, event :: events =>
    (event.session? = some session → (session, generation) ∉ s.live) ∧
      Undisturbed session generation (s.react event).2 events

instance Undisturbed.decidable (session : String) (generation : Nat) :
    ∀ s events, Decidable (Undisturbed session generation s events)
  | _, [] => inferInstanceAs (Decidable True)
  | s, event :: events =>
    have := Undisturbed.decidable session generation (s.react event).2 events
    inferInstanceAs (Decidable ((event.session? = some session → (session, generation) ∉ s.live) ∧
      Undisturbed session generation (s.react event).2 events))

/-- What was sent for the request was due, and with what its emitter still has to send it makes up the
schedule. -/
structure OnSchedule (r : Request) (start generation : Nat) (history : List Sent) (s : State) : Prop where
  due : ∀ d ∈ deliveriesOf generation history, d.time ≤ s.now
  whole : (∃ e ∈ s.emitters, e.generation = generation ∧ e.session = r.session ∧ e.cancel = none ∧
      deliveriesOf generation history ++ e.rest s.settings = r.schedule s.settings start) ∨
    (∀ e ∈ s.emitters, e.generation ≠ generation) ∧ deliveriesOf generation history = r.schedule s.settings start

namespace OnSchedule

/-- A request is on schedule from its message on. -/
theorem of_start (h : Accounted settings rs history s) (session requestId : String) (steps : List Step) :
    OnSchedule ⟨session, requestId, steps⟩ s.now s.nextGeneration history (s.start session requestId steps) := by
  have hnone : deliveriesOf s.nextGeneration history = [] :=
    deliveriesOf_eq_nil fun m hm => Nat.ne_of_lt (h.count ▸ h.started m hm)
  refine ⟨by rw [hnone]; exact nofun, Or.inl ⟨s.newEmitter session requestId steps, ?_, rfl, rfl, rfl, ?_⟩⟩
  · exact List.mem_append_right _ (List.mem_singleton_self _)
  · rw [hnone, List.nil_append]
    exact Emitter.rest_newEmitter s session requestId steps

/-- A message that does not find the request live leaves it on schedule. -/
theorem handle (h : OnSchedule r start generation history s) (hcoherent : s.Coherent)
    (hnumber : generation < s.nextGeneration) {message : Inbound} (fresh : String)
    (halone : message.session = r.session → (r.session, generation) ∉ s.live) :
    OnSchedule r start generation history (s.handle fresh message) := by
  have hfresh : s.nextGeneration ≠ generation := Nat.ne_of_gt hnumber
  -- an emitter of the request that goes on is not one of the session that is told to stop
  have hkept : ∀ e ∈ s.emitters, e.generation = generation → e.session = r.session → e.cancel = none →
      ∀ reason, e.stopFor s.now message.session reason = e := by
    intro e he hgeneration hsession hcancel reason
    refine Emitter.stopFor_of_session fun hsame => ?_
    refine halone (hsame.symm.trans hsession) ?_
    exact (hcoherent.live _ _).2 ⟨e, he, hcancel, hsession, hgeneration⟩
  refine ⟨?_, ?_⟩
  · cases message <;> exact h.due
  · rcases h.whole with ⟨e, he, hgeneration, hsession, hcancel, hrest⟩ | ⟨hnone, hall⟩
    · refine Or.inl ⟨e, ?_, hgeneration, hsession, hcancel, ?_⟩
      · have hstay := hkept e he hgeneration hsession hcancel
        cases message with
        | request session requestId steps =>
          rw [State.handle, State.start, hcoherent.stopEmitters_eq]
          exact List.mem_append_left _ (List.mem_map.2 ⟨e, he, hstay _⟩)
        | disconnect session =>
          rw [State.handle, State.disconnect, hcoherent.stopEmitters_eq]
          exact List.mem_map.2 ⟨e, he, hstay _⟩
      · cases message <;> exact hrest
    · refine Or.inr ⟨?_, by cases message <;> exact hall⟩
      cases message with
      | request session requestId steps =>
        rw [State.handle, State.start, hcoherent.stopEmitters_eq, List.forall_mem_append, List.forall_mem_map]
        simp only [Emitter.generation_stopFor, List.forall_mem_singleton]
        exact ⟨hnone, hfresh⟩
      | disconnect session =>
        rw [State.handle, State.disconnect, hcoherent.stopEmitters_eq, List.forall_mem_map]
        simpa only [Emitter.generation_stopFor] using hnone

/-- A stretch of time sends what is due of the rest. -/
theorem advance (h : OnSchedule r start generation history s) (haccounted : Accounted settings rs history s)
    (hprompt : s.Prompt) (time : Nat) :
    OnSchedule r start generation (history ++ s.sent (· ≤ s.now + time)) (s.advance time).2 := by
  have hcoherent := haccounted.coherent
  have hnow : ∀ d ∈ deliveriesOf generation history, d.time ≤ s.now + time :=
    fun d hd => Nat.le_add_right_of_le (h.due d hd)
  rcases h.whole with ⟨e, he, rfl, hsession, hcancel, hrest⟩ | ⟨hnone, hall⟩
  · have hsent := hcoherent.deliveriesOf_sent (· ≤ s.now + time) he
    rw [Emitter.rest_eq_append (· ≤ s.now + time)] at hrest
    refine ⟨?_, ?_⟩
    · rw [deliveriesOf_append, hsent, List.forall_mem_append]
      exact ⟨hnow, haccounted.time_le hprompt time e he⟩
    · rw [deliveriesOf_append, hsent]
      cases hleft : (e.run s.settings (· ≤ s.now + time)).left with
      | none =>
        rw [hleft, Option.toList_none, List.flatMap_nil, List.append_nil] at hrest
        refine Or.inr ⟨fun f' hf' hsame => ?_, hrest⟩
        obtain ⟨f, hf, hleft'⟩ := State.mem_emitters_settle.1 hf'
        have hgeneration : f.generation = e.generation :=
          (Emitter.waitsAs_of_left_run hleft').1.generation.symm.trans hsame
        obtain rfl := hcoherent.eq_of_generation hf he hgeneration
        exact nomatch hleft.symm.trans hleft'
      | some e' =>
        obtain ⟨hwaits, -⟩ := Emitter.waitsAs_of_left_run hleft
        rw [hleft, Option.toList_some, List.flatMap_singleton, ← List.append_assoc] at hrest
        exact Or.inl ⟨e', State.mem_emitters_settle.2 ⟨e, he, hleft⟩, hwaits.generation,
          hwaits.session.trans hsession, hwaits.cancel.trans hcancel, hrest⟩
  · have hsent : deliveriesOf generation (s.sent (· ≤ s.now + time)) = [] := State.deliveriesOf_sent_eq_nil hnone
    refine ⟨?_, Or.inr ⟨fun e' he' => ?_, ?_⟩⟩
    · rw [deliveriesOf_append, hsent, List.append_nil]
      exact hnow
    · obtain ⟨e, he, hleft⟩ := State.mem_emitters_settle.1 he'
      rw [(Emitter.waitsAs_of_left_run hleft).1.generation]
      exact hnone e he
    · rw [deliveriesOf_append, hsent, List.append_nil]
      exact hall

/-- **Every event** keeps the request on schedule, unless it tells it to stop. -/
theorem react (h : OnSchedule r start generation history s) (haccounted : Accounted settings rs history s)
    (hprompt : s.Prompt) (hnumber : generation < rs.length)
    (halone : event.session? = some r.session → (r.session, generation) ∉ s.live) :
    OnSchedule r start generation (history ++ (s.react event).1) (s.react event).2 := by
  cases event with
  | take fresh message =>
    have hsent : (s.react (.take fresh message)).1 = [] := rfl
    rw [hsent, List.append_nil]
    exact h.handle haccounted.coherent (haccounted.count ▸ hnumber) fresh fun hsession => halone (congrArg some hsession)
  | pass time => exact h.advance haccounted hprompt time

theorem trace (h : OnSchedule r start generation history s) (haccounted : Accounted settings rs history s)
    (hprompt : s.Prompt) (hnumber : generation < rs.length) {events : List Event}
    (halone : Undisturbed r.session generation s events) :
    OnSchedule r start generation (history ++ (s.trace events).1) (s.trace events).2 := by
  induction events generalizing rs history s with
  | nil => simpa [State.trace] using h
  | cons event events ih =>
    have hlength : generation < (rs ++ event.request?.toList).length := by
      rw [List.length_append]
      omega
    rw [State.trace, ← List.append_assoc]
    exact ih (h.react haccounted hprompt hnumber halone.1) (haccounted.react event)
      (hprompt.react haccounted.coherent event) hlength halone.2

/-- **What was sent is what is due**, once the emitters have run. -/
theorem deliveriesOf_eq (h : OnSchedule r start generation history s) (hlate : ∀ e ∈ s.emitters, s.now < e.wake) :
    deliveriesOf generation history = (r.schedule s.settings start).filter (·.time ≤ s.now) := by
  have hsent : (deliveriesOf generation history).filter (·.time ≤ s.now) = deliveriesOf generation history := by
    rw [List.filter_eq_self]
    exact fun d hd => decide_eq_true (h.due d hd)
  rcases h.whole with ⟨e, he, -, -, -, hrest⟩ | ⟨-, hall⟩
  · have hnone : (e.rest s.settings).filter (·.time ≤ s.now) = [] := by
      rw [List.filter_eq_nil_iff]
      intro d hd
      have hwake := Emitter.pairwise_sent_run.1 d hd
      have hnow := hlate e he
      rw [decide_eq_true_eq]
      omega
    rw [← hrest, List.filter_append, hsent, hnone, List.append_nil]
  · rw [← hall, hsent]

end OnSchedule

/-- The emitters that are left when time has passed wait for a later time. -/
theorem State.now_lt_wake (s : State) (time : Nat) :
    ∀ e ∈ (s.advance time).2.emitters, (s.advance time).2.now < e.wake := by
  intro e' he'
  obtain ⟨e, -, hleft⟩ := State.mem_emitters_settle.1 he'
  have hwake := (Emitter.waitsAs_of_left_run hleft).1.wake
  rw [decide_eq_false_iff_not, Nat.not_le] at hwake
  exact hwake

/-- **Time in parts, and steps a pause apart.** In every state that a relay gets to, time may pass in two
parts: the messages and the state are those of the whole stretch. A request that is taken in there, and that
no later message finds live, has been sent what its schedule lists up to the present whenever the emitters have
run: the step with number `k`, from 1, stands there `k - 1` pauses behind the start, and that the request is
complete stands there with the last step. -/
theorem paced_of_play (settings : Settings) (events : List Event) :
    let s := ((State.initial settings).play events).2
    (∀ a b, s.advance (a + b) =
      ((s.advance a).1 ++ ((s.advance a).2.advance b).1, ((s.advance a).2.advance b).2)) ∧
    ∀ fresh session requestId steps later time,
      Undisturbed session s.nextGeneration (s.handle fresh (.request session requestId steps)) later →
      let run := (State.initial settings).trace
        (events ++ .take fresh (.request session requestId steps) :: (later ++ [.pass time]))
      deliveriesOf s.nextGeneration run.1 =
        (Request.schedule settings ⟨session, requestId.getD fresh, steps⟩ s.now).filter (·.time ≤ run.2.now) := by
  rw [State.play_eq_trace]
  intro s
  have haccounted := (accounted_initial settings).trace events
  have hprompt : s.Prompt := (State.prompt_initial settings).trace (State.coherent_initial settings) events
  rw [List.nil_append, List.nil_append] at haccounted
  refine ⟨haccounted.advance_add hprompt, fun fresh session requestId steps later time halone => ?_⟩
  intro run
  let request : Event := .take fresh (.request session requestId steps)
  let started := (s.react request).2
  let waiting := (started.trace later).2
  have hsent : (s.react request).1 = [] := rfl
  have haccounted' := haccounted.react request
  rw [hsent, List.append_nil] at haccounted'
  have hprompt' : started.Prompt := hprompt.react haccounted.coherent request
  have hnumber : s.nextGeneration < (requests events ++ request.request?.toList).length := by
    rw [List.length_append, haccounted.count]
    exact Nat.lt_succ_self _
  have hstart : OnSchedule ⟨session, requestId.getD fresh, steps⟩ s.now s.nextGeneration _ started :=
    OnSchedule.of_start haccounted session (requestId.getD fresh) steps
  have hlater : OnSchedule _ s.now s.nextGeneration _ waiting := hstart.trace haccounted' hprompt' hnumber halone
  have hwaiting := haccounted'.trace later
  have hsettings : (waiting.advance time).2.settings = settings := hwaiting.same
  have hall := (hlater.advance hwaiting (hprompt'.trace haccounted'.coherent later) time).deliveriesOf_eq
    (State.now_lt_wake _ time)
  have hrun : run = (((State.initial settings).trace events).1 ++ (started.trace later).1 ++
      waiting.sent (· ≤ waiting.now + time), (waiting.advance time).2) := by
    simp only [run, State.trace_append, State.trace, State.react, List.nil_append, List.append_nil,
      List.append_assoc]
    rfl
  rw [hsettings] at hall
  rw [hrun]
  exact hall

/-- Two steps of session `a` with half a second between its start and that of session `b`, which is stopped
in between; the second message for `a` comes when its request is complete. -/
theorem paced_of_play_two_sessions :
    let events : List Event := [.take "" (.request "b" (some "q") [⟨"one", ""⟩, ⟨"two", ""⟩]), .pass 500]
    let request : Inbound := .request "a" none [⟨"one", ""⟩, ⟨"two", ""⟩]
    let later : List Event := [.pass 400, .take "" (.disconnect "b"), .pass 600, .take "" (.disconnect "a")]
    let s := ((State.initial {}).play events).2
    Undisturbed "a" s.nextGeneration (s.handle "p" request) later ∧
    deliveriesOf 1 ((State.initial {}).trace (events ++ .take "p" request :: (later ++ [.pass 0]))).1 =
      [⟨500, .step "a" ⟨"one", none, none, 1, 2, "p"⟩⟩, ⟨1500, .step "a" ⟨"two", none, none, 2, 2, "p"⟩⟩,
        ⟨1500, .complete "a" "p" 2⟩] := by
  intro events request later s
  have halone : Undisturbed "a" s.nextGeneration (s.handle "p" request) later := by decide +kernel
  refine ⟨halone, ?_⟩
  have hpaced := (paced_of_play {} events).2 "p" "a" none [⟨"one", ""⟩, ⟨"two", ""⟩] later 0 halone
  refine hpaced.trans ?_
  decide +kernel

end MathMarkup.Relay
