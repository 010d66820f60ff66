import MathMarkup.Proofs.Relay.Isolation

/-!
# What serving lines amounts to

All lines are taken in before an emitter runs, so what becomes of a request is settled by the next message for
its session (`Request.outcome`). `answersFor` reads the answers of a session off the messages alone.

The reading phase tells each emitter to stop at most once (`Emitter.hears_eq`); then every emitter runs to its
end. Main theorem: `serve_outcome`.
-/

namespace MathMarkup.Relay

open Text

variable {settings : Settings} {s : State} {e : Emitter} {r : Request} {now : Nat} {session : String}
  {messages : List Inbound}

/-! ## Answers by the messages -/

/-- What a line holds without the blanks around it, unless it is blank: a message, or why it is none. -/
def content? (line : String) : Option (Except Json.Fault Inbound) :=
  let s := trim line.toList
  if s = [] then none else some (Json.decodeText Inbound.decoder s)

/-- The messages among the lines, each with the name that is drawn for its line. -/
def messagesIn (names : Names) (lines : List String) : List (String × Inbound) :=
  (lines.mapIdx fun k line => (names k, line)).filterMap fun (fresh, line) =>
    match content? line with
    | some (.ok message) => some (fresh, message)
    | _ => none

/-- The answers to lines that hold no message. -/
def refusals (lines : List String) : List Outbound :=
  lines.filterMap fun line =>
    match content? line with
    | some (.error fault) => some (.refused fault)
    | _ => none

/-- All that a request is answered with when its session is quiet behind it. -/
def Request.fullAnswer (settings : Settings) (r : Request) : List Outbound :=
  r.shown settings r.steps.length ++ [.complete r.session r.requestId r.steps.length]

/-- What a request is answered with, by the next message for its session. -/
def Request.outcome (settings : Settings) (r : Request) (next : Option Inbound) : List Outbound :=
  if r.steps = [] then r.failed
  else
    match next with
    | none => r.fullAnswer settings
    | some (.request _ _ _) => [.superseded r.session r.requestId 0]
    | some (.disconnect _) => []

/-- The answer that a session gets to a message, by the next message for it. -/
def Inbound.answer (settings : Settings) (session fresh : String) (next : Option Inbound) : Inbound → List Outbound
  | .request asker requestId steps =>
    if asker = session then Request.outcome settings ⟨asker, requestId.getD fresh, steps⟩ next else []
  | .disconnect _ => []

/-- The answers that a session gets to these messages, in their order. -/
def answersFor (settings : Settings) (session : String) : List (String × Inbound) → List Outbound
  | [] => []
  | (fresh, message) :: later =>
    let next := (later.map Prod.snd).find? fun m => m.session = session
    message.answer settings session fresh next ++ answersFor settings session later

/-! ## The emitters when all lines are read -/

namespace Emitter

/-- The emitter after these messages. -/
def hears (now : Nat) (messages : List Inbound) (e : Emitter) : Emitter :=
  messages.foldl (fun e message => e.stopFor now message.session message.reason) e

theorem hears_of_cancel (h : e.cancel ≠ none) : e.hears now messages = e := by
  induction messages with
  | nil => rfl
  | cons message messages ih =>
    rw [hears, List.foldl_cons, stopFor_of_cancel h]
    exact ih

/-- Only the first message for its session is heard. -/
theorem hears_eq (h : e.cancel = none) : e.hears now messages =
    ((messages.find? fun m => m.session = e.session).map fun m => e.stop now m.reason).getD e := by
  induction messages with
  | nil => rfl
  | cons message messages ih =>
    rw [hears, List.foldl_cons, ← hears]
    by_cases hsession : message.session = e.session
    · have hstopped : (e.stop now message.reason).cancel ≠ none := Option.some_ne_none _
      rw [stopFor_eq h hsession.symm, hears_of_cancel hstopped, List.find?_cons_of_pos (by simpa using hsession)]
      rfl
    · rw [stopFor_of_session (Ne.symm hsession), List.find?_cons_of_neg (by simpa using hsession)]
      exact ih

/-! ## The emitters at their end -/

/-- An emitter that nobody tells to stop shows all steps. -/
theorem Serves.messages_run (h : e.Serves r) (hsteps : r.steps ≠ []) (hstart : e.emitted = 0)
    (hcancel : e.cancel = none) : (e.run settings fun _ => true).messages = r.fullAnswer settings := by
  have hleft : (e.run settings fun _ => true).left = none := by
    rw [Option.eq_none_iff_forall_ne_some]
    intro e' hleft
    have hwake := (waitsAs_of_left_run hleft).1.wake
    cases hwake
  have hcompleted : (e.run settings fun _ => true).completed = true := by
    rw [completed_run hcancel, hleft]
    rfl
  obtain ⟨requestId, count, hmem⟩ := completed_iff_run.1 hcompleted
  have hnone : r.shown settings e.emitted = [] := by
    rw [hstart]
    rfl
  have hanswers := h.answers_of_run.2 hleft
  rw [hnone, List.nil_append] at hanswers
  -- of all answers only one has a completion behind steps
  have hshown : ∀ n, .complete e.session requestId count ∉ r.shown settings n := by
    intro n hmem
    obtain ⟨i, hi, heq⟩ := List.mem_mapIdx.1 hmem
    cases heq
  generalize (e.run settings fun _ => true).messages = answer at hanswers hmem
  cases hanswers with
  | failed hnil => exact absurd hnil hsteps
  | shown n hless => exact absurd hmem (hshown n)
  | complete => rfl
  | superseded n hless =>
    rcases List.mem_append.1 hmem with hmem | hmem
    · exact absurd hmem (hshown n)
    · cases List.mem_singleton.1 hmem

/-- What a new emitter sends when all messages behind it are read. -/
theorem Serves.messages_hears (h : e.Serves r) (hstart : e.emitted = 0) (hcancel : e.cancel = none)
    (messages : List Inbound) :
    ((e.hears now messages).run settings fun _ => true).messages =
      r.outcome settings (messages.find? fun m => m.session = r.session) := by
  rw [hears_eq hcancel, h.session]
  cases messages.find? (fun m => decide (m.session = r.session)) with
  | none =>
    rw [Option.map_none, Option.getD_none, Request.outcome]
    by_cases hsteps : r.steps = []
    · rw [if_pos hsteps, (h.messages_run_of_nil settings _ hsteps).1]
    · rw [if_neg hsteps, h.messages_run hsteps hstart hcancel]
  | some message =>
    have hsaid : ((e.stop now message.reason).run settings fun _ => true).messages =
        (e.stop now message.reason).lastWords :=
      messages_run_of_cancel (Option.some_ne_none _) rfl h.pending_ne_nil
    rw [Option.map_some, Option.getD_some, hsaid, h.lastWords_stop, hstart]
    cases message <;> rfl

end Emitter

namespace State

theorem now_handle (s : State) (fresh : String) (message : Inbound) : (s.handle fresh message).now = s.now := by
  cases message <;> rfl

theorem settings_handle (s : State) (fresh : String) (message : Inbound) :
    (s.handle fresh message).settings = s.settings := by
  cases message <;> rfl

/-- What the emitters of a session send once these messages are taken in. -/
def heard (s : State) (session : String) (messages : List Inbound) : List Outbound :=
  (s.emitters.filter fun e => e.session = session).flatMap fun e =>
    ((e.hears s.now messages).run s.settings fun _ => true).messages

/-- A message is heard by the emitters that are there, and its own emitter answers it. -/
theorem Coherent.heard_handle (h : s.Coherent) (fresh session : String) (message : Inbound)
    (later : List Inbound) : (s.handle fresh message).heard session later =
      s.heard session (message :: later) ++
        message.answer s.settings session fresh (later.find? fun m => m.session = session) := by
  have hnew : ((s.started fresh message).filter fun e => e.session = session).flatMap (fun e =>
        ((e.hears s.now later).run s.settings fun _ => true).messages) =
      message.answer s.settings session fresh (later.find? fun m => m.session = session) := by
    cases message with
    | disconnect other => rfl
    | request other requestId steps =>
      have hserves : (s.newEmitter other (requestId.getD fresh) steps).Serves ⟨other, requestId.getD fresh, steps⟩ :=
        ⟨rfl, rfl, rfl, rfl, List.length_pos_of_ne_nil⟩
      by_cases hsession : other = session
      · subst hsession
        have hanswer : ((Emitter.hears s.now later (s.newEmitter other (requestId.getD fresh) steps)).run s.settings
            fun _ => true).messages = Request.outcome s.settings ⟨other, requestId.getD fresh, steps⟩
              (later.find? fun m => m.session = other) := hserves.messages_hears rfl rfl later
        simpa [started, Inbound.answer, newEmitter] using hanswer
      · simp [started, Inbound.answer, newEmitter, hsession]
  rw [heard, h.filter_handle, List.flatMap_append, List.flatMap_map, now_handle, settings_handle, hnew]
  rfl

/-- **What is sent when all messages were taken in** first: what the emitters before had to send, and the
answers to the messages. -/
theorem Coherent.messagesFor_finish (h : s.Coherent) (session : String) (messages : List (String × Inbound)) :
    messagesFor session
        (s.trace (messages.map fun (fresh, message) => Event.take fresh message)).2.finish.1 =
      s.heard session (messages.map Prod.snd) ++ answersFor s.settings session messages := by
  induction messages generalizing s with
  | nil =>
    have hsession : (fun m : Outbound => decide (m.session? = some session)) ∘ Sent.message =
        fun m => decide (m.message.session? = some session) := rfl
    have hown : ∀ e : Emitter, (e.sent s.settings fun _ => true).map Sent.message =
        ((e.hears s.now []).run s.settings fun _ => true).messages := fun e => messages_sent
    rw [List.map_nil, State.trace, finish, ← map_message_sent, messagesFor, List.filter_map, hsession, h.filter_sent,
      List.map_flatMap, answersFor, List.append_nil, heard]
    simp only [hown]
    rfl
  | cons named messages ih =>
    obtain ⟨fresh, message⟩ := named
    have hlater := ih (h.handle fresh message)
    rw [h.heard_handle, settings_handle, List.append_assoc] at hlater
    exact hlater

end State

/-! ## Lines -/

theorem readLine?_eq (line : String) : readLine? line = content? line := by
  unfold readLine? content?
  cases trim line.toList <;> rfl

/-- Each line that holds no message is refused, when it is read. -/
theorem State.handleLines_fst (s : State) (lines : List (String × String)) :
    (s.handleLines lines).1 = refusals (lines.map Prod.snd) := by
  induction lines generalizing s with
  | nil => rfl
  | cons line lines ih =>
    obtain ⟨fresh, line⟩ := line
    rw [handleLines, handleLine, List.map_cons, refusals, List.filterMap_cons, readLine?_eq]
    rcases content? line with _ | fault | message
    · exact ih s
    · exact congrArg (.refused fault :: ·) (ih s)
    · exact ih (s.handle fresh message)

theorem map_snd_along (names : Names) (lines : List String) : (names.along lines).map Prod.snd = lines :=
  List.ext_getElem (by simp [Names.along]) (by simp [Names.along])

theorem lineEvents_eq (names : Names) (lines : List String) :
    lineEvents names lines = (messagesIn names lines).map fun (fresh, message) => .take fresh message := by
  rw [lineEvents, messagesIn, List.map_filterMap]
  refine List.filterMap_congr fun named _ => ?_
  obtain ⟨fresh, line⟩ := named
  simp only [Event.ofLine?, readLine?_eq]
  rcases content? line with _ | fault | message <;> rfl

/-- **What is sent when these lines are the whole input**: first a refusal for each line that is not blank and
holds no message, then only messages for sessions, and to each session the answers to its requests in their
order. What answers a request depends on the next message for its session alone (`Request.outcome`). -/
theorem serve_outcome (settings : Settings) (names : Names) (lines : List String) :
    ∃ answers, serve settings names lines = refusals lines ++ answers ∧
      (∀ m ∈ answers, m.session? ≠ none) ∧
      ∀ session, messagesFor session answers = answersFor settings session (messagesIn names lines) := by
  have hrefused := (State.initial settings).handleLines_fst (names.along lines)
  have hread := handleLines_snd (State.initial settings) (names.along lines)
  rw [map_snd_along] at hrefused
  refine ⟨((State.initial settings).handleLines (names.along lines)).2.finish.1, ?_, ?_, ?_⟩
  · rw [← hrefused]
    rfl
  · intro m hm
    rw [State.finish, ← State.map_message_sent] at hm
    obtain ⟨sent, hsent, rfl⟩ := List.mem_map.1 hm
    obtain ⟨e, -, hown⟩ := State.mem_sent.1 hsent
    rw [(of_mem_sent hown).2.1]
    exact Option.some_ne_none _
  · intro session
    rw [hread, ← lineEvents, lineEvents_eq, (State.coherent_initial settings).messagesFor_finish session]
    rfl

/-- Lines of three sessions behind a blank line and one that cannot be read: a request without an identifier
is superseded by another one, one without steps fails, and one is ended by a disconnect. -/
theorem serve_outcome_mixed :
    let names : Names := fun k => ["a", "b", "c", "d", "e", "f", "g"].getD k ""
    let lines := [
      "  ",
      "\x7b",
      " \x7b\"event\":\"request_math\",\"session\":\"s\",\"steps\":[\x7b\"natural\":\"u\"\x7d]\x7d",
      "\x7b\"event\":\"request_math\",\"session\":\"t\",\"requestId\":\"r\",\"steps\":[]\x7d",
      "\x7b\"event\":\"request_math\",\"session\":\"s\",\"steps\":[\x7b\"natural\":\"v\"\x7d,\x7b\"natural\":\"w\"\x7d]\x7d",
      "\x7b\"event\":\"request_math\",\"session\":\"q\",\"steps\":[\x7b\"natural\":\"x\"\x7d]\x7d",
      "\x7b\"event\":\"disconnect\",\"session\":\"q\"\x7d\t"]
    ∃ answers, serve {} names lines = .refused ⟨.endOfObject, some ⟨1, 1⟩⟩ :: answers ∧
      messagesFor "s" answers = [
        .superseded "s" "c" 0,
        .step "s" ⟨"v", none, none, 1, 2, "e"⟩,
        .step "s" ⟨"w", none, none, 2, 2, "e"⟩,
        .complete "s" "e" 2] ∧
      messagesFor "t" answers = [
        .step "t" ⟨"Error processing math request",
          some "\\[\\text\x7bError processing math request\x7d\\]".toList, none, 1, 1, "r"⟩,
        .complete "t" "r" 1] ∧
      messagesFor "q" answers = [] := by
  intro names lines
  have hrefusals : refusals lines = [.refused ⟨.endOfObject, some ⟨1, 1⟩⟩] := by decide +kernel
  have hmessages : messagesIn names lines = [
      ("c", .request "s" none [⟨"u", ""⟩]),
      ("d", .request "t" (some "r") []),
      ("e", .request "s" none [⟨"v", ""⟩, ⟨"w", ""⟩]),
      ("f", .request "q" none [⟨"x", ""⟩]),
      ("g", .disconnect "q")] := by decide +kernel
  obtain ⟨answers, hserve, -, hanswers⟩ := serve_outcome {} names lines
  rw [hrefusals] at hserve
  rw [hmessages] at hanswers
  exact ⟨answers, hserve, hanswers "s", hanswers "t", hanswers "q"⟩
end MathMarkup.Relay
