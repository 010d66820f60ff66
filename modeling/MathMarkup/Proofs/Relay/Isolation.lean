import Mathlib.Data.List.Forall2
import MathMarkup.Proofs.Relay.Finality
import MathMarkup.Proofs.Relay.Sessions

/-!
# Sessions do not hear of each other

A run and the same run without the messages for other sessions give their requests other numbers, and perhaps
other generated identifiers. Apart from these the emitters of the session are the same in both
(`State.Alike`), and they send the same; every event keeps it so.

Main theorem: `messages_of_session_alone`.
-/

namespace MathMarkup.Relay

variable {settings : Settings} {s s' : State} {due : Nat → Bool} {e e' : Emitter} {m m' : Sent} {session : String}
  {given given' : List (Option String)} {event event' : Event} {events : List Event}

/-! ## Runs of one session -/

/-- Time is for every session, and a message for its own. -/
def Event.concerns (session : String) (event : Event) : Bool := event.session?.all (· == session)

/-- A run without the messages for other sessions. -/
def alone (session : String) (events : List Event) : List Event := events.filter (Event.concerns session)

/-- What is sent for one session. -/
def messagesFor (session : String) (sent : List Outbound) : List Outbound :=
  sent.filter fun m => m.session? = some session

/-! ## Generated identifiers -/

/-- The identifier that comes with a request, if one does. -/
def Event.given? : Event → Option (Option String)
  | .take _ (.request _ requestId _) => some requestId
  | .take _ (.disconnect _) => none
  | .pass _ => none

/-- The identifiers that come with the requests of a run, in the order of their numbers. -/
def givenIds (events : List Event) : List (Option String) := events.filterMap Event.given?

/-- The event with another identifier for a request that comes without. -/
def Event.withFresh (fresh : String) : Event → Event
  | .take _ message => .take fresh message
  | .pass time => .pass time

/-- The events are the same up to an identifier that is only used when none comes with a request. -/
def Event.Renames (event event' : Event) : Prop := ∃ fresh, event' = event.withFresh fresh

theorem givenIds_cons (event : Event) (events : List Event) :
    givenIds (event :: events) = event.given?.toList ++ givenIds events := by
  cases hgiven : event.given? with
  | none => simp [givenIds, hgiven]
  | some id? => simp [givenIds, hgiven]

/-- The message with another identifier. -/
def Outbound.withId (requestId : String) : Outbound → Outbound
  | .step session record => .step session { record with requestId := requestId }
  | .complete session _ emitted => .complete session requestId emitted
  | .superseded session _ emitted => .superseded session requestId emitted
  | .refused fault => .refused fault

/-- The message, without the identifier when that was generated. -/
def Sent.masked (given : List (Option String)) (m : Sent) : Outbound :=
  if given[m.generation]? = some none then m.message.withId "<generated>" else m.message

theorem Outbound.withId_withId (a b : String) (m : Outbound) : (m.withId a).withId b = m.withId b := by
  cases m <;> rfl

theorem Record.withId_ofStep (config : Config) (a b : String) (step : Step) (number total : Nat) :
    { Record.ofStep config a step number total with requestId := b } = Record.ofStep config b step number total := by
  unfold Record.ofStep
  by_cases hblank : step.math.toList.all Text.isBlank = true
  · simp only [hblank, if_true]
  · simp only [hblank]
    cases (route config step.math.toList).dialect <;> rfl

/-! ## Emitters under another name -/

namespace Emitter

/-- The emitter with another number and another identifier. -/
def renamed (generation : Nat) (requestId : String) (e : Emitter) : Emitter :=
  { e with generation := generation, requestId := requestId }

end Emitter

def Delivery.withId (requestId : String) (d : Delivery) : Delivery := ⟨d.time, d.message.withId requestId⟩

/-- What became of the emitter, with another number and another identifier. -/
def Run.renamed (generation : Nat) (requestId : String) (run : Run) : Run :=
  ⟨run.sent.map (Delivery.withId requestId), run.left.map (Emitter.renamed generation requestId), run.completed⟩

def Sent.renamed (generation : Nat) (requestId : String) (m : Sent) : Sent :=
  ⟨generation, m.delivery.withId requestId⟩

namespace Emitter

theorem Sends.renamed {emitted wake : Nat} {pending : List Step} {run : Run}
    (h : Sends settings due e emitted wake pending run) (generation : Nat) (requestId : String) :
    Sends settings due (e.renamed generation requestId) emitted wake pending (run.renamed generation requestId) := by
  have hrecord : ∀ emitted step, { e.record settings.engine emitted step with requestId := requestId } =
      (e.renamed generation requestId).record settings.engine emitted step := fun emitted step =>
    Record.withId_ofStep settings.engine e.requestId requestId step (emitted + 1) e.total
  induction h with
  | done emitted wake => exact .done emitted wake
  | waits emitted step rest hdue => exact .waits emitted step rest hdue
  | superseded emitted step rest hdue hcancel => exact .superseded emitted step rest hdue hcancel
  | disconnected emitted step rest hdue hcancel => exact .disconnected emitted step rest hdue hcancel
  | @last emitted wake step hdue hcancel =>
    have hlast : Sends settings due (e.renamed generation requestId) emitted wake [step] _ :=
      .last emitted step hdue hcancel
    rw [← hrecord] at hlast
    exact hlast
  | @next emitted wake step rest run hdue hcancel hrest _ ih =>
    have hnext : Sends settings due (e.renamed generation requestId) emitted wake (step :: rest) _ :=
      .next step hdue hcancel hrest ih
    rw [← hrecord] at hnext
    exact hnext

theorem run_renamed (generation : Nat) (requestId : String) :
    (e.renamed generation requestId).run settings due = (e.run settings due).renamed generation requestId := by
  by_cases htotal : e.total = 0
  · have htotal' : (e.renamed generation requestId).total = 0 := htotal
    rw [run_of_total_eq_zero htotal, run_of_total_eq_zero htotal']
    rfl
  · have htotal' : (e.renamed generation requestId).total ≠ 0 := htotal
    rw [run_of_total_ne_zero htotal']
    exact sends_iff.1 ((sends_run htotal).renamed generation requestId)

theorem sent_renamed (generation : Nat) (requestId : String) :
    (e.renamed generation requestId).sent settings due =
      (e.sent settings due).map (Sent.renamed generation requestId) := by
  rw [Emitter.sent, run_renamed, Emitter.sent, List.map_map]
  exact List.map_map

/-- An emitter keeps its identifier. -/
theorem requestId_of_left_run (h : (e.run settings due).left = some e') : e'.requestId = e.requestId := by
  have hself : (e.run settings due).left = (e.run settings due).left.map (renamed e.generation e.requestId) :=
    congrArg Run.left (run_renamed (e := e) e.generation e.requestId)
  rw [h, Option.map_some, Option.some.injEq] at hself
  have hid : e'.requestId = (renamed e.generation e.requestId e').requestId := congrArg Emitter.requestId hself
  exact hid

/-- What an emitter sends has its identifier. -/
theorem withId_of_mem_sent (hm : m ∈ e.sent settings due) : m.message.withId e.requestId = m.message := by
  have hself : (e.sent settings due).map (Sent.renamed e.generation e.requestId) = (e.sent settings due).map id := by
    rw [List.map_id]
    exact (sent_renamed e.generation e.requestId).symm
  exact congrArg Sent.message (List.map_inj_left.1 hself m hm)

end Emitter

/-! ## Requests that are the same but for their names -/

/-- The emitters differ at most in their numbers, and in identifiers that were generated. -/
structure Emitter.Twin (given given' : List (Option String)) (e e' : Emitter) : Prop where
  eq : e' = e.renamed e'.generation e'.requestId
  given : ∃ id?, given[e.generation]? = some id? ∧ given'[e'.generation]? = some id? ∧
    ∀ id, id? = some id → e'.requestId = e.requestId

/-- The messages differ at most in identifiers that were generated. -/
structure Sent.Twin (given given' : List (Option String)) (m m' : Sent) : Prop where
  started : m.generation < given.length
  started' : m'.generation < given'.length
  masked : m.masked given = m'.masked given'

theorem getElem?_append_of_eq_some {α : Type} {l : List α} {i : Nat} {a : α} (h : l[i]? = some a) (l' : List α) :
    (l ++ l')[i]? = some a := by
  rw [List.getElem?_append_left (List.getElem?_eq_some_iff.1 h).1, h]

theorem Emitter.Twin.mono (h : e.Twin given given' e') (later later' : List (Option String)) :
    e.Twin (given ++ later) (given' ++ later') e' := by
  obtain ⟨id?, hid, hid', hsame⟩ := h.given
  exact ⟨h.eq, id?, getElem?_append_of_eq_some hid later, getElem?_append_of_eq_some hid' later', hsame⟩

theorem Sent.Twin.mono (h : m.Twin given given' m') (later later' : List (Option String)) :
    m.Twin (given ++ later) (given' ++ later') m' := by
  refine ⟨?_, ?_, ?_⟩
  · rw [List.length_append]
    exact Nat.lt_add_right _ h.started
  · rw [List.length_append]
    exact Nat.lt_add_right _ h.started'
  · rw [Sent.masked, Sent.masked, List.getElem?_append_left h.started, List.getElem?_append_left h.started']
    exact h.masked

namespace Emitter.Twin

theorem session_eq (h : e.Twin given given' e') : e'.session = e.session := by
  rw [h.eq]
  rfl

theorem map_session {es es' : List Emitter} (h : List.Forall₂ (Emitter.Twin given given') es es') :
    es'.map Emitter.session = es.map Emitter.session := by
  induction h with
  | nil => rfl
  | cons htwin _ ih => rw [List.map_cons, List.map_cons, htwin.session_eq, ih]

theorem cancel_eq (h : e.Twin given given' e') : e'.cancel = e.cancel := by
  rw [h.eq]
  rfl

theorem stopFor (h : e.Twin given given' e') (now : Nat) (session : String) (reason : Cancel) :
    (e.stopFor now session reason).Twin given given' (e'.stopFor now session reason) := by
  by_cases hstop : e.cancel = none ∧ e.session = session
  · rw [Emitter.stopFor_eq hstop.1 hstop.2,
      Emitter.stopFor_eq (h.cancel_eq.trans hstop.1) (h.session_eq.trans hstop.2)]
    refine ⟨?_, h.given⟩
    rw [h.eq]
    rfl
  · have hstop' : ¬(e'.cancel = none ∧ e'.session = session) := by
      rw [h.cancel_eq, h.session_eq]
      exact hstop
    rw [Emitter.stopFor, if_neg hstop, Emitter.stopFor, if_neg hstop']
    exact h

theorem left (h : e.Twin given given' e') :
    Option.Rel (Emitter.Twin given given') (e.run settings due).left (e'.run settings due).left := by
  rw [h.eq, run_renamed]
  cases hleft : (e.run settings due).left with
  | none =>
    simp only [Run.renamed, hleft, Option.map_none]
    exact .none
  | some f =>
    simp only [Run.renamed, hleft, Option.map_some]
    refine .some ⟨rfl, ?_⟩
    have hwaits := (waitsAs_of_left_run hleft).1
    obtain ⟨id?, hid, hid', hsame⟩ := h.given
    refine ⟨id?, ?_, hid', fun id hsome => ?_⟩
    · rw [hwaits.generation]
      exact hid
    · rw [requestId_of_left_run hleft]
      exact hsame id hsome

/-- Twins send the same. -/
theorem sent (h : e.Twin given given' e') :
    List.Forall₂ (Sent.Twin given given') (e.sent settings due) (e'.sent settings due) := by
  obtain ⟨id?, hid, hid', hsame⟩ := h.given
  rw [h.eq, sent_renamed, List.forall₂_map_right_iff, List.forall₂_same]
  intro m hm
  have hgeneration : m.generation = e.generation := (of_mem_sent hm).1
  refine ⟨?_, (List.getElem?_eq_some_iff.1 hid').1, ?_⟩
  · rw [hgeneration]
    exact (List.getElem?_eq_some_iff.1 hid).1
  · have hid'' : given'[(m.renamed e'.generation e'.requestId).generation]? = some id? := hid'
    have hmessage : (m.renamed e'.generation e'.requestId).message = m.message.withId e'.requestId := rfl
    rw [Sent.masked, Sent.masked, hgeneration, hid, hid'', hmessage]
    cases id? with
    | none => rw [if_pos rfl, if_pos rfl, Outbound.withId_withId]
    | some id => rw [if_neg (by simp), if_neg (by simp), hsame id rfl, withId_of_mem_sent hm]

end Emitter.Twin

/-! ## Runs that are the same for one session -/

namespace State

/-- What a session sends, emitter by emitter. -/
theorem Coherent.filter_sent (h : s.Coherent) (due : Nat → Bool) (session : String) :
    (s.sent due).filter (fun m => m.message.session? = some session) =
      (s.emitters.filter fun e => e.session = session).flatMap (Emitter.sent s.settings due) := by
  have hsorted := (h.pairwise_unsorted due session).imp And.left
  rw [State.sent, Sent.filter_mergeSort hsorted, unsorted, List.filter_flatMap]
  induction s.emitters with
  | nil => rfl
  | cons e es ih =>
    have hall : ∀ m ∈ e.sent s.settings due, m.message.session? = some e.session :=
      fun m hm => (of_mem_sent hm).2.1
    rw [List.flatMap_cons, List.filter_cons, ih]
    by_cases hsession : e.session = session
    · have hown : (e.sent s.settings due).filter (fun m => m.message.session? = some session) =
          e.sent s.settings due := by
        rw [List.filter_eq_self]
        exact fun m hm => by simp [hall m hm, hsession]
      rw [hown, if_pos (by simpa using hsession), List.flatMap_cons]
    · have hother : (e.sent s.settings due).filter (fun m => m.message.session? = some session) = [] := by
        rw [List.filter_eq_nil_iff]
        exact fun m hm => by simp [hall m hm, hsession]
      rw [hother, if_neg (by simpa using hsession), List.nil_append]

/-- The emitters of one session behind a message. -/
theorem Coherent.filter_handle (h : s.Coherent) (fresh session : String) (message : Inbound) :
    ((s.handle fresh message).emitters.filter fun e => e.session = session) =
      (s.emitters.filter fun e => e.session = session).map
          (Emitter.stopFor s.now message.session message.reason) ++
        (s.started fresh message).filter fun e => e.session = session := by
  have hsession : ((fun e : Emitter => decide (e.session = session)) ∘
      Emitter.stopFor s.now message.session message.reason) = fun e => decide (e.session = session) := by
    funext e
    simp only [Function.comp_apply, Emitter.session_stopFor]
  rw [h.emitters_handle, List.filter_append, List.filter_map, hsession]

theorem filter_settle (s : State) (due : Nat → Bool) (session : String) :
    ((s.settle due).2.emitters.filter fun e => e.session = session) =
      (s.emitters.filter fun e => e.session = session).filterMap fun e => (e.run s.settings due).left := by
  rw [emitters_settle, List.filter_filterMap, List.filterMap_filter]
  refine List.filterMap_congr fun e _ => ?_
  cases hleft : (e.run s.settings due).left with
  | none => simp
  | some e' =>
    rw [Option.filter_some, (Emitter.waitsAs_of_left_run hleft).1.session]

/-- The emitters of one session in the run `s` are all emitters of the run `s'`. -/
structure Alike (session : String) (given given' : List (Option String)) (s s' : State) : Prop where
  coherent : s.Coherent
  coherent' : s'.Coherent
  settings : s'.settings = s.settings
  now : s'.now = s.now
  count : s.nextGeneration = given.length
  count' : s'.nextGeneration = given'.length
  twins : List.Forall₂ (Emitter.Twin given given') (s.emitters.filter fun e => e.session = session) s'.emitters

theorem alike_initial (settings : Settings) (session : String) :
    Alike session [] [] (initial settings) (initial settings) :=
  ⟨coherent_initial settings, coherent_initial settings, rfl, rfl, rfl, rfl, .nil⟩

namespace Alike

theorem count_handle (s : State) (fresh : String) (message : Inbound) :
    (s.handle fresh message).nextGeneration =
      s.nextGeneration + (Event.take fresh message).given?.toList.length := by
  cases message <;> rfl

/-- A message for another session is not heard of. -/
theorem take_other (h : Alike session given given' s s') (fresh : String) {message : Inbound}
    (hother : message.session ≠ session) :
    Alike session (given ++ (Event.take fresh message).given?.toList) given' (s.handle fresh message) s' := by
  have hstays : ∀ e ∈ s.emitters.filter fun e => e.session = session,
      e.stopFor s.now message.session message.reason = e := by
    intro e he
    have hsession : e.session = session := by simpa using (List.mem_filter.1 he).2
    exact Emitter.stopFor_of_session (hsession.trans_ne hother.symm)
  have hnone : ((s.started fresh message).filter fun e => e.session = session) = [] := by
    cases message with
    | request other requestId steps =>
      have hne : other ≠ session := hother
      simpa [started, newEmitter] using hne
    | disconnect other => rfl
  refine ⟨h.coherent.handle fresh message, h.coherent', ?_, ?_, ?_, h.count', ?_⟩
  · rw [h.settings]
    cases message <;> rfl
  · rw [h.now]
    cases message <;> rfl
  · rw [count_handle, h.count, List.length_append]
  · rw [h.coherent.filter_handle, hnone, List.append_nil, List.map_congr_left hstays, List.map_id']
    refine h.twins.imp fun e e' htwin => ?_
    have hmono := htwin.mono (Event.take fresh message).given?.toList []
    rwa [List.append_nil] at hmono

/-- A message for the session itself is heard in both runs. -/
theorem take_own (h : Alike session given given' s s') (fresh fresh' : String) {message : Inbound}
    (hown : message.session = session) :
    Alike session (given ++ (Event.take fresh message).given?.toList)
      (given' ++ (Event.take fresh message).given?.toList) (s.handle fresh message) (s'.handle fresh' message) := by
  have hgiven : (Event.take fresh' message).given? = (Event.take fresh message).given? := by
    cases message <;> rfl
  refine ⟨h.coherent.handle fresh message, h.coherent'.handle fresh' message, ?_, ?_, ?_, ?_, ?_⟩
  · cases message <;> exact h.settings
  · cases message <;> exact h.now
  · rw [count_handle, h.count, List.length_append]
  · rw [count_handle, h.count', List.length_append, hgiven]
  · rw [h.coherent.filter_handle, h.coherent'.emitters_handle, h.now]
    refine List.rel_append (List.forall₂_map_left_iff.2 (List.forall₂_map_right_iff.2 ?_)) ?_
    · exact h.twins.imp fun e e' htwin => (htwin.mono _ _).stopFor s.now message.session message.reason
    · cases message with
      | disconnect other => exact .nil
      | request other requestId steps =>
        have hkept : ((s.started fresh (.request other requestId steps)).filter fun e => e.session = session) =
            [s.newEmitter other (requestId.getD fresh) steps] := by
          have heq : other = session := hown
          simpa [started, newEmitter] using heq
        rw [hkept]
        refine .cons ⟨?_, requestId, ?_, ?_, ?_⟩ .nil
        · rw [newEmitter, newEmitter, h.now]
          rfl
        · simp [newEmitter, h.count, Event.given?]
        · simp [newEmitter, h.count', Event.given?]
        · rintro id rfl
          rfl

/-- Time passes alike. -/
theorem pass (h : Alike session given given' s s') (time : Nat) :
    Alike session given given' (s.advance time).2 (s'.advance time).2 := by
  refine ⟨h.coherent.advance time, h.coherent'.advance time, h.settings, ?_, h.count, h.count', ?_⟩
  · exact congrArg (· + time) h.now
  · rw [advance, advance, filter_settle, emitters_settle, h.now, h.settings]
    exact List.rel_filterMap (fun e e' htwin => htwin.left) h.twins

/-- In both runs the session is sent the same, and without the other sessions nothing else is sent. -/
theorem react_pass (h : Alike session given given' s s') (time : Nat) :
    List.Forall₂ (Sent.Twin given given')
      ((s.react (.pass time)).1.filter fun m => m.message.session? = some session) (s'.react (.pass time)).1 := by
  have hall : ∀ e ∈ s'.emitters, e.session = session := by
    intro e' he'
    have hmem := List.mem_map_of_mem (f := Emitter.session) he'
    rw [Emitter.Twin.map_session h.twins, List.mem_map] at hmem
    obtain ⟨e, he, hsession⟩ := hmem
    rw [← hsession]
    simpa using (List.mem_filter.1 he).2
  have hmessages : (s'.react (.pass time)).1.filter (fun m => m.message.session? = some session) =
      (s'.react (.pass time)).1 := by
    rw [List.filter_eq_self]
    intro m hm
    obtain ⟨e, he, hme⟩ := mem_sent.1 hm
    have hsession : m.message.session? = some e.session := (of_mem_sent hme).2.1
    simp [hsession, hall e he]
  have hemitters : (s'.emitters.filter fun e => e.session = session) = s'.emitters := by
    rw [List.filter_eq_self]
    exact fun e he => by simpa using hall e he
  rw [← hmessages, react, react, (h.coherent.later time).filter_sent, (h.coherent'.later time).filter_sent]
  simp only [hemitters, h.now, h.settings]
  exact List.rel_flatMap h.twins fun e e' htwin => htwin.sent

/-- **Runs that are the same for one session** send it the same. -/
theorem trace (h : Alike session given given' s s') {kept : List Event}
    (hkept : List.Forall₂ Event.Renames (alone session events) kept) :
    List.Forall₂ (Sent.Twin (given ++ givenIds events) (given' ++ givenIds kept))
      ((s.trace events).1.filter fun m => m.message.session? = some session) (s'.trace kept).1 := by
  induction events generalizing given given' s s' kept with
  | nil =>
    cases hkept
    exact .nil
  | cons event events ih =>
    rw [givenIds_cons, ← List.append_assoc]
    cases event with
    | pass time =>
      cases hkept with
      | @cons _ _ _ kept hevent hkept =>
        obtain ⟨fresh, rfl⟩ := hevent
        have hnone : (Event.pass time).given?.toList = [] := rfl
        have hnow : List.Forall₂ (Sent.Twin (given ++ givenIds events) (given' ++ givenIds kept)) _ _ :=
          (h.react_pass time).imp fun m m' htwin => htwin.mono (givenIds events) (givenIds kept)
        rw [State.trace, List.filter_append, hnone, List.append_nil]
        exact List.rel_append hnow (ih (h.pass time) hkept)
    | take fresh message =>
      by_cases hsession : message.session = session
      · rw [alone, List.filter_cons, if_pos (by simp [Event.concerns, Event.session?, hsession])] at hkept
        cases hkept with
        | @cons _ _ _ kept hevent hkept =>
          obtain ⟨fresh', rfl⟩ := hevent
          have hgiven : ((Event.take fresh message).withFresh fresh').given? = (Event.take fresh message).given? := by
            cases message <;> rfl
          rw [givenIds_cons, hgiven, ← List.append_assoc]
          exact ih (h.take_own fresh fresh' hsession) hkept
      · rw [alone, List.filter_cons, if_neg (by simp [Event.concerns, Event.session?, hsession])] at hkept
        exact ih (h.take_other fresh hsession) hkept

end Alike

end State

/-! ## Messages without generated identifiers -/

/-- What a run sends, without the identifiers that were generated. -/
def maskedRun (settings : Settings) (events : List Event) : List Outbound :=
  ((State.initial settings).trace events).1.map (Sent.masked (givenIds events))

theorem Sent.session?_masked (given : List (Option String)) (m : Sent) :
    (m.masked given).session? = m.message.session? := by
  unfold masked
  split
  · cases m.message <;> rfl
  · rfl

theorem map_masked_of_twins {l l' : List Sent} (h : List.Forall₂ (Sent.Twin given given') l l') :
    l.map (Sent.masked given) = l'.map (Sent.masked given') := by
  induction h with
  | nil => rfl
  | cons htwin _ ih => rw [List.map_cons, List.map_cons, htwin.masked, ih]

/-- A session is sent the same, without generated identifiers, in a run of its own. -/
theorem messagesFor_maskedRun (settings : Settings) {kept : List Event}
    (hkept : List.Forall₂ Event.Renames (alone session events) kept) :
    messagesFor session (maskedRun settings events) = maskedRun settings kept := by
  have htwins := map_masked_of_twins ((State.alike_initial settings session).trace hkept)
  rw [List.nil_append, List.nil_append] at htwins
  have hsession : (fun m : Outbound => decide (m.session? = some session)) ∘ Sent.masked (givenIds events) =
      fun m => decide (m.message.session? = some session) := by
    funext m
    simp only [Function.comp_apply, Sent.session?_masked]
  rw [messagesFor, maskedRun, List.filter_map, hsession]
  exact htwins

/-! ## Identifiers that are written out -/

/-- The event with the identifier that its request is given. -/
def Event.named : Event → Event
  | .take fresh (.request session requestId steps) =>
    .take fresh (.request session (some (requestId.getD fresh)) steps)
  | event => event

theorem State.react_named (s : State) (event : Event) : s.react event.named = s.react event := by
  cases event with
  | take fresh message => cases message <;> rfl
  | pass time => rfl

theorem State.trace_map_named (s : State) (events : List Event) :
    s.trace (events.map Event.named) = s.trace events := by
  induction events generalizing s with
  | nil => rfl
  | cons event events ih => rw [List.map_cons, State.trace, State.trace, s.react_named, ih]

theorem alone_map_named (session : String) (events : List Event) :
    alone session (events.map Event.named) = (alone session events).map Event.named := by
  have hconcerns : Event.concerns session ∘ Event.named = Event.concerns session := by
    funext event
    cases event with
    | take fresh message => cases message <;> rfl
    | pass time => rfl
  rw [alone, List.filter_map, hconcerns, alone]

/-- Where all identifiers are written out, none is generated. -/
theorem maskedRun_map_named (settings : Settings) (events : List Event) :
    maskedRun settings (events.map Event.named) = ((State.initial settings).play events).1 := by
  have hgiven : none ∉ givenIds (events.map Event.named) := by
    rw [givenIds, List.mem_filterMap]
    rintro ⟨event, hevent, hnone⟩
    obtain ⟨event, -, rfl⟩ := List.mem_map.1 hevent
    cases event with
    | take fresh message => cases message <;> cases hnone
    | pass time => cases hnone
  rw [maskedRun, State.trace_map_named, State.play_eq_trace]
  refine List.map_congr_left fun m _ => if_neg fun hnone => hgiven ?_
  exact List.mem_of_getElem? hnone

/-- Other identifiers are generated. -/
theorem renames_mapIdx (names : Nat → String) (events : List Event) :
    List.Forall₂ Event.Renames events (events.mapIdx fun i event => event.withFresh (names i)) := by
  induction events generalizing names with
  | nil => exact .nil
  | cons event events ih =>
    rw [List.mapIdx_cons]
    exact .cons ⟨names 0, rfl⟩ (ih fun i => names (i + 1))

theorem renames_self (events : List Event) : List.Forall₂ Event.Renames events events := by
  rw [List.forall₂_same]
  intro event _
  cases event with
  | take fresh message => exact ⟨fresh, rfl⟩
  | pass time => exact ⟨"", rfl⟩

/-- **Sessions are isolated**: without the messages for other sessions, a session is sent the same messages
in the same order, and nothing else is sent. Where requests come without an identifier, other identifiers
may be generated; they are all that differs then. -/
theorem messages_of_session_alone (settings : Settings) (session : String) (events : List Event) :
    messagesFor session ((State.initial settings).play events).1 =
      ((State.initial settings).play (alone session events)).1 ∧
    ∀ names : Nat → String, messagesFor session (maskedRun settings events) =
      maskedRun settings ((alone session events).mapIdx fun i event => event.withFresh (names i)) := by
  refine ⟨?_, fun names => messagesFor_maskedRun settings (renames_mapIdx names _)⟩
  have hnamed : List.Forall₂ Event.Renames (alone session (events.map Event.named))
      ((alone session events).map Event.named) := by
    rw [alone_map_named]
    exact renames_self _
  rw [← maskedRun_map_named, ← maskedRun_map_named]
  exact messagesFor_maskedRun settings hnamed

end MathMarkup.Relay
