import MathMarkup.Relay.Emitter

/-!
# What one emitter sends

An emitter shows the steps of its request one by one, and a run goes on where the one before has
stopped. `Sends` says what each turn of it does, with a name for each case; every fact about sending goes
through these cases. `Answers` lists what a request can have been answered with.

Main statement `answers_of_run`: what was shown before, and what a run adds when it ends the emitter, is
such an answer.
-/

namespace MathMarkup.Relay

variable {settings : Settings} {due : Nat → Bool} {e e' : Emitter} {emitted wake : Nat} {pending : List Step}
  {run : Run}

/-! ## Requests -/

/-- A request that was started. -/
structure Request where
  session : String
  requestId : String
  steps : List Step
deriving DecidableEq, Repr

variable {r : Request}

/-- The math of a step in its normal form, when it is in this dialect. Blanks are no math. -/
def normalIn? (config : Config) (dialect : Dialect) (step : Step) : Option (List Char) :=
  let s := step.math.toList
  if s.all Text.isBlank = false ∧ (route config s).dialect = dialect then some (route config s).normalized
  else none

/-- The message that shows a step behind `count` others. -/
def Request.display (settings : Settings) (r : Request) (count : Nat) (step : Step) : Outbound :=
  .step r.session {
    natural := step.natural
    math := normalIn? settings.engine .latex step
    mathml := normalIn? settings.engine .mathml step
    number := count + 1
    total := r.steps.length
    requestId := r.requestId }

/-- The messages that show the first steps of a request. -/
def Request.shown (settings : Settings) (r : Request) (count : Nat) : List Outbound :=
  (r.steps.take count).mapIdx (r.display settings)

/-- The messages for a request without steps. -/
def Request.failed (r : Request) : List Outbound := [
  .step r.session {
    natural := "Error processing math request"
    math := some "\\[\\text\x7bError processing math request\x7d\\]".toList
    mathml := none
    number := 1
    total := 1
    requestId := r.requestId },
  .complete r.session r.requestId 1]

/-- What a request can have been answered with: records of its steps, numbered from 1, and behind them at
most one message that tells how it has ended. -/
inductive Answers (settings : Settings) (r : Request) : List Outbound → Prop
  /-- There is nothing to show. -/
  | failed (h : r.steps = []) : Answers settings r r.failed
  /-- Some steps were shown, and it goes on later or was ended without a word. -/
  | shown (count : Nat) (h : count < r.steps.length) : Answers settings r (r.shown settings count)
  /-- All steps were shown. -/
  | complete (h : r.steps ≠ []) :
    Answers settings r
      (r.shown settings r.steps.length ++ [.complete r.session r.requestId r.steps.length])
  /-- A newer request came before the last step. -/
  | superseded (count : Nat) (h : count < r.steps.length) :
    Answers settings r (r.shown settings count ++ [.superseded r.session r.requestId count])

/-- Where the emitter stands in its request. -/
structure Emitter.Serves (e : Emitter) (r : Request) : Prop where
  session : e.session = r.session
  requestId : e.requestId = r.requestId
  total : e.total = r.steps.length
  pending : e.pending = r.steps.drop e.emitted
  more : r.steps ≠ [] → e.emitted < r.steps.length

/-- A record holds the math of its step in one of the dialects. -/
theorem Record.ofStep_eq (config : Config) (requestId : String) (step : Step) (number total : Nat) :
    Record.ofStep config requestId step number total =
      ⟨step.natural, normalIn? config .latex step, normalIn? config .mathml step, number, total, requestId⟩ := by
  unfold Record.ofStep normalIn?
  by_cases hblank : step.math.toList.all Text.isBlank = true
  · simp [hblank]
  · cases hdialect : (route config step.math.toList).dialect <;> simp [hblank, hdialect]

theorem Request.display_eq (settings : Settings) (r : Request) (count : Nat) (step : Step) :
    r.display settings count step =
      .step r.session (Record.ofStep settings.engine r.requestId step (count + 1) r.steps.length) := by
  rw [Record.ofStep_eq]
  rfl

theorem Request.failed_eq (r : Request) : r.failed =
    [.step r.session (Record.failure r.requestId), .complete r.session r.requestId 1] := rfl

theorem Request.shown_of_steps_eq_nil (h : r.steps = []) (count : Nat) : r.shown settings count = [] := by
  simp [shown, h]

theorem Request.length_shown (settings : Settings) (r : Request) (count : Nat) :
    (r.shown settings count).length = min count r.steps.length := by
  simp [shown]

theorem Request.shown_succ {step : Step} {count : Nat} (h : r.steps[count]? = some step) :
    r.shown settings (count + 1) = r.shown settings count ++ [r.display settings count step] := by
  have hless : count < r.steps.length := (List.getElem?_eq_some_iff.1 h).1
  have hlength : (r.steps.take count).length = count := List.length_take_of_le (Nat.le_of_lt hless)
  rw [shown, shown, List.take_add_one, h, List.mapIdx_append, hlength]
  simp

/-! ## Turns -/

/-- The first pending step is the one behind those that were emitted. -/
theorem getElem?_of_drop_eq_cons {steps rest : List Step} {step : Step} {n : Nat} (h : step :: rest = steps.drop n) :
    steps[n]? = some step ∧ rest = steps.drop (n + 1) ∧ n < steps.length := by
  have hstep : steps[n]? = some step := by
    rw [← List.head?_drop, ← h]
    rfl
  refine ⟨hstep, ?_, (List.getElem?_eq_some_iff.1 hstep).1⟩
  rw [← List.tail_drop, ← h]
  rfl

theorem length_of_drop_eq_singleton {steps : List Step} {step : Step} {n : Nat} (h : [step] = steps.drop n) :
    steps.length = n + 1 := by
  obtain ⟨-, hdrop, hless⟩ := getElem?_of_drop_eq_cons h
  rw [eq_comm, List.drop_eq_nil_iff] at hdrop
  omega

/-- What was sent, in order. -/
def Run.messages (run : Run) : List Outbound := run.sent.map Delivery.message

/-- The run with one more message in front. -/
def Run.behind (d : Delivery) (run : Run) : Run := { run with sent := d :: run.sent }

@[simp] theorem Run.messages_behind (d : Delivery) (run : Run) :
    (run.behind d).messages = d.message :: run.messages := rfl

@[simp] theorem Run.completed_behind (d : Delivery) (run : Run) : (run.behind d).completed = run.completed := rfl

namespace Emitter

/-- What becomes of an emitter that sends its steps: `emitted` of them were sent, and the next one is due at
`wake`. -/
inductive Sends (settings : Settings) (due : Nat → Bool) (e : Emitter) : Nat → Nat → List Step → Run → Prop
  /-- No step is left. -/
  | done (emitted wake : Nat) : Sends settings due e emitted wake [] ⟨[e.complete wake emitted], none, true⟩
  /-- It is not time yet. -/
  | waits (emitted : Nat) {wake : Nat} (step : Step) (rest : List Step) (hdue : due wake = false) :
    Sends settings due e emitted wake (step :: rest)
      ⟨[], some { e with pending := step :: rest, emitted := emitted, wake := wake }, false⟩
  /-- It was told that it is superseded, and says so. -/
  | superseded (emitted : Nat) {wake : Nat} (step : Step) (rest : List Step) (hdue : due wake = true)
      (hcancel : e.cancel = some .superseded) :
    Sends settings due e emitted wake (step :: rest)
      ⟨[⟨wake, .superseded e.session e.requestId emitted⟩], none, false⟩
  /-- It was told that its session has ended, and says nothing. -/
  | disconnected (emitted : Nat) {wake : Nat} (step : Step) (rest : List Step) (hdue : due wake = true)
      (hcancel : e.cancel = some .disconnected) :
    Sends settings due e emitted wake (step :: rest) ⟨[], none, false⟩
  /-- The last step is shown, and that it was the last one. -/
  | last (emitted : Nat) {wake : Nat} (step : Step) (hdue : due wake = true) (hcancel : e.cancel = none) :
    Sends settings due e emitted wake [step]
      ⟨[⟨wake, .step e.session (e.record settings.engine emitted step)⟩, e.complete wake (emitted + 1)], none, true⟩
  /-- A step is shown, and more are to come. -/
  | next {emitted wake : Nat} (step : Step) {rest : List Step} {run : Run} (hdue : due wake = true)
      (hcancel : e.cancel = none) (hrest : rest ≠ [])
      (hlater : Sends settings due e (emitted + 1) (wake + settings.stepDelay) rest run) :
    Sends settings due e emitted wake (step :: rest)
      (run.behind ⟨wake, .step e.session (e.record settings.engine emitted step)⟩)

/-- **What sending does**, turn by turn. -/
theorem sends_send (settings : Settings) (due : Nat → Bool) (e : Emitter) (emitted wake : Nat)
    (pending : List Step) : Sends settings due e emitted wake pending (e.send settings due emitted wake pending) := by
  fun_induction send settings due e emitted wake pending with
  | case1 emitted wake => exact .done emitted wake
  | case2 emitted wake step rest hdue => exact .waits emitted step rest (by simpa using hdue)
  | case3 emitted wake step rest hdue hcancel => exact .superseded emitted step rest (by simpa using hdue) hcancel
  | case4 emitted wake step rest hdue hcancel => exact .disconnected emitted step rest (by simpa using hdue) hcancel
  | case5 emitted wake step rest hdue hcancel sent hrest =>
    obtain rfl := List.isEmpty_iff.1 hrest
    exact .last emitted step (by simpa using hdue) hcancel
  | case6 emitted wake step rest hdue hcancel sent hrest run ih =>
    exact .next step (by simpa using hdue) hcancel (by simpa using hrest) ih

theorem sends_iff : Sends settings due e emitted wake pending run ↔
    e.send settings due emitted wake pending = run := by
  constructor
  · intro h
    induction h with
    | done => rfl
    | waits emitted step rest hdue => simp [send, hdue]
    | superseded emitted step rest hdue hcancel => simp [send, hdue, hcancel]
    | disconnected emitted step rest hdue hcancel => simp [send, hdue, hcancel]
    | last emitted step hdue hcancel => simp [send, hdue, hcancel]
    | next step hdue hcancel hrest _ ih => simp [send, hdue, hcancel, hrest, ih, Run.behind]
  · rintro rfl
    exact sends_send settings due e emitted wake pending

/-- `e'` is `e` further on, and it is not time for it. -/
structure WaitsAs (due : Nat → Bool) (e e' : Emitter) : Prop where
  session : e'.session = e.session
  generation : e'.generation = e.generation
  total : e'.total = e.total
  cancel : e'.cancel = e.cancel
  wake : due e'.wake = false

namespace Sends

theorem waitsAs (h : Sends settings due e emitted wake pending run) (hleft : run.left = some e') :
    WaitsAs due e e' := by
  induction h with
  | waits emitted step rest hdue =>
    obtain rfl := Option.some.inj hleft
    exact ⟨rfl, rfl, rfl, rfl, hdue⟩
  | next step hdue hcancel hrest _ ih => exact ih hleft
  | _ => cases hleft

/-- An emitter that was told to stop does so when it is time. -/
theorem left_eq_none (h : Sends settings due e emitted wake pending run) (hcancel : e.cancel ≠ none)
    (hdue : due wake = true) : run.left = none := by
  cases h with
  | waits _ _ _ hnot => exact absurd hdue (by simp [hnot])
  | next _ _ hnone => exact absurd hnone hcancel
  | _ => rfl

/-- It completes when it ends, unless it was told to stop. -/
theorem completed_eq (h : Sends settings due e emitted wake pending run) (hcancel : e.cancel = none) :
    run.completed = run.left.isNone := by
  induction h with
  | superseded _ _ _ _ hstopped => cases hcancel.symm.trans hstopped
  | disconnected _ _ _ _ hstopped => cases hcancel.symm.trans hstopped
  | next step hdue _ hrest _ ih => exact ih
  | _ => rfl

/-- Nothing is sent before it is time, and everything in the order of time. -/
theorem pairwise_sent (h : Sends settings due e emitted wake pending run) :
    (∀ d ∈ run.sent, wake ≤ d.time) ∧ run.sent.Pairwise fun a b => a.time ≤ b.time := by
  induction h with
  | next step hdue hcancel hrest _ ih =>
    obtain ⟨hlate, hsorted⟩ := ih
    have hbehind := fun d hd => Nat.le_trans (Nat.le_add_right _ _) (hlate d hd)
    refine ⟨?_, List.pairwise_cons.2 ⟨hbehind, hsorted⟩⟩
    exact List.forall_mem_cons.2 ⟨Nat.le_refl _, hbehind⟩
  | _ => simp [complete]

/-- An emitter that was told to stop sends at once what it has to say. -/
theorem time_of_mem (h : Sends settings due e emitted wake pending run) (hcancel : e.cancel ≠ none) :
    ∀ d ∈ run.sent, d.time = wake := by
  cases h with
  | next _ _ hnone => exact absurd hnone hcancel
  | last _ _ _ hnone => exact absurd hnone hcancel
  | _ => simp [complete]

theorem session_of_mem (h : Sends settings due e emitted wake pending run) :
    ∀ d ∈ run.sent, d.message.session? = some e.session := by
  induction h with
  | next step hdue hcancel hrest _ ih => exact List.forall_mem_cons.2 ⟨rfl, ih⟩
  | _ => simp [complete, Outbound.session?]

end Sends

/-! ### What was shown -/

/-- An emitter shows the steps of its request. -/
theorem message_record (hsession : e.session = r.session) (hid : e.requestId = r.requestId)
    (htotal : e.total = r.steps.length) (emitted : Nat) (step : Step) :
    .step e.session (e.record settings.engine emitted step) = r.display settings emitted step := by
  rw [Request.display_eq, record, hsession, hid, htotal]

/-- What was shown before and what is sent now, by what becomes of the emitter. -/
theorem Sends.answers (h : Sends settings due e emitted wake pending run) (hsession : e.session = r.session)
    (hid : e.requestId = r.requestId) (htotal : e.total = r.steps.length)
    (hpending : pending = r.steps.drop emitted) (hne : pending ≠ []) :
    (∀ e', run.left = some e' → e'.Serves r ∧ r.shown settings emitted ++ run.messages = r.shown settings e'.emitted) ∧
    (run.left = none → Answers settings r (r.shown settings emitted ++ run.messages)) := by
  induction h with
  | done => exact absurd rfl hne
  | waits emitted step rest hdue =>
    obtain ⟨-, -, hless⟩ := getElem?_of_drop_eq_cons hpending
    refine ⟨fun e' h => ?_, nofun⟩
    obtain rfl := Option.some.inj h
    exact ⟨⟨hsession, hid, htotal, hpending, fun _ => hless⟩, List.append_nil _⟩
  | superseded emitted step rest hdue hcancel =>
    obtain ⟨-, -, hless⟩ := getElem?_of_drop_eq_cons hpending
    refine ⟨nofun, fun _ => ?_⟩
    rw [hsession, hid]
    exact .superseded emitted hless
  | disconnected emitted step rest hdue hcancel =>
    obtain ⟨-, -, hless⟩ := getElem?_of_drop_eq_cons hpending
    refine ⟨nofun, fun _ => ?_⟩
    rw [Run.messages, List.map_nil, List.append_nil]
    exact .shown emitted hless
  | @last emitted wake step hdue hcancel =>
    obtain ⟨hstep, -, -⟩ := getElem?_of_drop_eq_cons hpending
    have hlength := length_of_drop_eq_singleton hpending
    have hsteps : r.steps ≠ [] := List.ne_nil_of_length_pos (by omega)
    have hall : r.shown settings emitted ++ [.step e.session (e.record settings.engine emitted step),
        (e.complete wake (emitted + 1)).message] =
        r.shown settings r.steps.length ++ [.complete r.session r.requestId r.steps.length] := by
      rw [hlength, Request.shown_succ hstep, message_record hsession hid htotal, complete, hsession, hid,
        List.append_assoc]
      rfl
    exact ⟨nofun, fun _ => hall ▸ .complete hsteps⟩
  | next step hdue hcancel hrest _ ih =>
    obtain ⟨hstep, hdrop, -⟩ := getElem?_of_drop_eq_cons hpending
    rw [Run.messages_behind, message_record hsession hid htotal, List.append_cons, ← Request.shown_succ hstep]
    exact ih hdrop hrest

/-! ### Whole runs -/

theorem run_of_total_eq_zero (h : e.total = 0) : e.run settings due =
    ⟨[⟨e.wake, .step e.session (Record.failure e.requestId)⟩, e.complete e.wake 1], none, true⟩ := by
  rw [run, if_pos h]

theorem run_of_total_ne_zero (h : e.total ≠ 0) :
    e.run settings due = e.send settings due e.emitted e.wake e.pending := by
  rw [run, if_neg h]

theorem sends_run (h : e.total ≠ 0) :
    Sends settings due e e.emitted e.wake e.pending (e.run settings due) :=
  sends_iff.2 (run_of_total_ne_zero h).symm

/-- Only an emitter with steps to send can be left. -/
theorem waitsAs_of_left_run (h : (e.run settings due).left = some e') : WaitsAs due e e' ∧ e.total ≠ 0 := by
  by_cases htotal : e.total = 0
  · rw [run_of_total_eq_zero htotal] at h
    cases h
  · exact ⟨(sends_run htotal).waitsAs h, htotal⟩

theorem left_run_eq_none (hcancel : e.cancel ≠ none) (hdue : due e.wake = true) :
    (e.run settings due).left = none := by
  by_cases htotal : e.total = 0
  · rw [run_of_total_eq_zero htotal]
  · exact (sends_run htotal).left_eq_none hcancel hdue

theorem completed_run (hcancel : e.cancel = none) :
    (e.run settings due).completed = (e.run settings due).left.isNone := by
  by_cases htotal : e.total = 0
  · rw [run_of_total_eq_zero htotal]
    rfl
  · exact (sends_run htotal).completed_eq hcancel

theorem pairwise_sent_run :
    (∀ d ∈ (e.run settings due).sent, e.wake ≤ d.time) ∧
    (e.run settings due).sent.Pairwise fun a b => a.time ≤ b.time := by
  by_cases htotal : e.total = 0
  · rw [run_of_total_eq_zero htotal]
    simp [complete]
  · exact (sends_run htotal).pairwise_sent

theorem time_of_mem_run (hcancel : e.cancel ≠ none) : ∀ d ∈ (e.run settings due).sent, d.time = e.wake := by
  by_cases htotal : e.total = 0
  · rw [run_of_total_eq_zero htotal]
    simp [complete]
  · exact (sends_run htotal).time_of_mem hcancel

theorem session_of_mem_run : ∀ d ∈ (e.run settings due).sent, d.message.session? = some e.session := by
  by_cases htotal : e.total = 0
  · rw [run_of_total_eq_zero htotal]
    simp [complete, Outbound.session?]
  · exact (sends_run htotal).session_of_mem

theorem Serves.total_eq_zero_iff (h : e.Serves r) : e.total = 0 ↔ r.steps = [] := by
  rw [h.total, List.length_eq_zero_iff]

theorem Serves.pending_ne_nil (h : e.Serves r) (htotal : e.total ≠ 0) : e.pending ≠ [] := by
  have hmore := h.more fun hnil => htotal (h.total_eq_zero_iff.2 hnil)
  intro hnil
  rw [h.pending, List.drop_eq_nil_iff] at hnil
  omega

/-- A request without steps is answered at once. -/
theorem Serves.messages_run_of_nil (h : e.Serves r) (settings : Settings) (due : Nat → Bool)
    (hsteps : r.steps = []) : (e.run settings due).messages = r.failed ∧ (e.run settings due).left = none := by
  rw [run_of_total_eq_zero (h.total_eq_zero_iff.2 hsteps), h.session, h.requestId, Request.failed_eq]
  simp [Run.messages, complete, h.session, h.requestId]

/-- **What a request is answered with** in a run, behind what was shown before: when the emitter waits,
the next steps, and else all of an answer. -/
theorem Serves.answers_of_run (h : e.Serves r) :
    (∀ e', (e.run settings due).left = some e' → e'.Serves r ∧
      r.shown settings e.emitted ++ (e.run settings due).messages = r.shown settings e'.emitted) ∧
    ((e.run settings due).left = none →
      Answers settings r (r.shown settings e.emitted ++ (e.run settings due).messages)) := by
  by_cases hsteps : r.steps = []
  · obtain ⟨hmessages, hleft⟩ := h.messages_run_of_nil settings due hsteps
    rw [hmessages, hleft, Request.shown_of_steps_eq_nil hsteps]
    exact ⟨nofun, fun _ => .failed hsteps⟩
  · have htotal : e.total ≠ 0 := mt h.total_eq_zero_iff.1 hsteps
    exact (sends_run htotal).answers h.session h.requestId h.total h.pending (h.pending_ne_nil htotal)

end Emitter

end MathMarkup.Relay
