import Mathlib.Data.List.Nodup
import Mathlib.Data.List.Pairwise
import MathMarkup.Proofs.Relay.Emission
import MathMarkup.Proofs.Relay.Runs

/-!
# Which emitters are told to stop

The state of a relay is coherent when its list of live requests names exactly the emitters that were not
told to stop, at most one for each session, and when of two emitters of a session the earlier one was
told to stop (`State.Coherent`). Then a message stops the emitter of its session and no other one
(`stopEmitters_eq`), and every event keeps the state coherent (`State.Coherent.react`).
-/

namespace MathMarkup.Relay

variable {s : State} {due : Nat → Bool} {e e' : Emitter} {now : Nat} {session : String} {reason : Cancel}

/-- `a` was started before `b`; in one session it was told to stop before `b` had anything to send. -/
structure Emitter.Precedes (a b : Emitter) : Prop where
  generation : a.generation < b.generation
  stopped : a.session = b.session → a.cancel ≠ none ∧ a.wake ≤ b.wake

/-- The list of live requests and the emitters fit together. -/
structure State.Coherent (s : State) : Prop where
  /-- The emitters stand in the order in which they were started. -/
  order : s.emitters.Pairwise Emitter.Precedes
  fresh : ∀ e ∈ s.emitters, e.generation < s.nextGeneration
  /-- An emitter that was told to stop does not wait any more. -/
  woken : ∀ e ∈ s.emitters, e.cancel ≠ none → e.wake ≤ s.now
  /-- A request is live as long as its emitter goes on. -/
  live : ∀ session generation, (session, generation) ∈ s.live ↔
    ∃ e ∈ s.emitters, e.cancel = none ∧ e.session = session ∧ e.generation = generation
  /-- A session has at most one live request. -/
  unique : (s.live.map Prod.fst).Nodup

namespace State

theorem coherent_initial (settings : Settings) : (initial settings).Coherent :=
  ⟨.nil, nofun, nofun, by simp [initial], List.nodup_nil⟩

theorem Coherent.eq_of_generation (h : s.Coherent) (he : e ∈ s.emitters) (he' : e' ∈ s.emitters)
    (heq : e.generation = e'.generation) : e = e' := by
  have hone : s.emitters.Pairwise fun a b => a.generation = b.generation → a = b :=
    h.order.imp fun hab hsame => absurd hsame (Nat.ne_of_lt hab.generation)
  have hsymm : Std.Symm fun a b : Emitter => a.generation = b.generation → a = b :=
    ⟨fun a b hab hsame => (hab hsame.symm).symm⟩
  exact hone.forall_of_forall (fun _ _ _ => rfl) he he' heq

/-- At most one emitter of a session was not told to stop. -/
theorem Coherent.eq_of_session (h : s.Coherent) (he : e ∈ s.emitters) (he' : e' ∈ s.emitters)
    (heq : e.session = e'.session) (hcancel : e.cancel = none) (hcancel' : e'.cancel = none) : e = e' := by
  have hone : s.emitters.Pairwise fun a b =>
      a.session = b.session → a.cancel = none → b.cancel = none → a = b :=
    h.order.imp fun hab hsame hgoing _ => absurd hgoing (hab.stopped hsame).1
  have hsymm : Std.Symm fun a b : Emitter =>
      a.session = b.session → a.cancel = none → b.cancel = none → a = b :=
    ⟨fun a b hab hsame hb ha => (hab hsame.symm ha hb).symm⟩
  exact hone.forall_of_forall (fun _ _ _ _ _ => rfl) he he' heq hcancel hcancel'

/-- Of two emitters of a session the earlier one was told to stop. -/
theorem Coherent.stopped_of_lt (h : s.Coherent) (he : e ∈ s.emitters) (he' : e' ∈ s.emitters)
    (hsession : e.session = e'.session) (hlt : e.generation < e'.generation) :
    e.cancel ≠ none ∧ e.wake ≤ e'.wake := by
  have hone : s.emitters.Pairwise fun a b =>
      (a.generation < b.generation → a.Precedes b) ∧ (b.generation < a.generation → b.Precedes a) :=
    h.order.imp fun hab => ⟨fun _ => hab, fun hless => absurd hless (Nat.lt_asymm hab.generation)⟩
  have hsymm : Std.Symm fun a b : Emitter =>
      (a.generation < b.generation → a.Precedes b) ∧ (b.generation < a.generation → b.Precedes a) :=
    ⟨fun a b hab => hab.symm⟩
  have hrefl : ∀ a ∈ s.emitters,
      (a.generation < a.generation → a.Precedes a) ∧ (a.generation < a.generation → a.Precedes a) :=
    fun a _ => ⟨fun hless => absurd hless (Nat.lt_irrefl _), fun hless => absurd hless (Nat.lt_irrefl _)⟩
  exact ((hone.forall_of_forall hrefl he he').1 hlt).stopped hsession

end State

/-! ## Telling a session to stop -/

/-- The emitter after its session was told to stop; it is told at most once. -/
def Emitter.stopFor (now : Nat) (session : String) (reason : Cancel) (e : Emitter) : Emitter :=
  if e.cancel = none ∧ e.session = session then e.stop now reason else e

namespace Emitter

theorem session_stopFor : (e.stopFor now session reason).session = e.session := by
  rw [stopFor]
  split <;> rfl

theorem generation_stopFor : (e.stopFor now session reason).generation = e.generation := by
  rw [stopFor]
  split <;> rfl

theorem stopFor_of_cancel (h : e.cancel ≠ none) : e.stopFor now session reason = e := by
  rw [stopFor, if_neg fun hboth => h hboth.1]

theorem stopFor_of_session (h : e.session ≠ session) : e.stopFor now session reason = e := by
  rw [stopFor, if_neg fun hboth => h hboth.2]

theorem stopFor_eq (hcancel : e.cancel = none) (hsession : e.session = session) :
    e.stopFor now session reason = e.stop now reason := by
  rw [stopFor, if_pos ⟨hcancel, hsession⟩]

theorem cancel_stopFor :
    (e.stopFor now session reason).cancel = none ↔ e.cancel = none ∧ e.session ≠ session := by
  rw [stopFor]
  split
  · rename_i hboth
    simp [stop, hboth]
  · rename_i hnot
    exact ⟨fun h => ⟨h, fun hsession => hnot ⟨h, hsession⟩⟩, fun h => h.1⟩

theorem wake_stopFor : (e.stopFor now session reason).wake = e.wake ∨
    (e.stopFor now session reason).wake = now := by
  rw [stopFor]
  split
  · exact Or.inr rfl
  · exact Or.inl rfl

end Emitter

namespace State

theorem mem_of_lookup_eq_some {live : List (String × Nat)} {generation : Nat}
    (h : live.lookup session = some generation) : (session, generation) ∈ live := by
  obtain ⟨a, b, rfl, -⟩ := List.lookup_eq_some_iff.1 h
  exact List.mem_append_right a List.mem_cons_self

/-- A message stops the emitter of its session that goes on, and no other one. -/
theorem Coherent.stopEmitters_eq (h : s.Coherent) (session : String) (reason : Cancel) :
    s.stopEmitters session reason = s.emitters.map (Emitter.stopFor s.now session reason) := by
  rw [stopEmitters]
  cases hlookup : s.live.lookup session with
  | none =>
    have hnone : ∀ e ∈ s.emitters, Emitter.stopFor s.now session reason e = e := by
      intro e he
      rw [Emitter.stopFor, if_neg]
      rintro ⟨hcancel, hsession⟩
      have hentry := (h.live session e.generation).2 ⟨e, he, hcancel, hsession, rfl⟩
      simpa using List.lookup_eq_none_iff.1 hlookup _ hentry
    exact ((List.map_congr_left hnone).trans (List.map_id' _)).symm
  | some generation =>
    obtain ⟨live, hlive, hcancel, hsession, hgeneration⟩ :=
      (h.live session generation).1 (mem_of_lookup_eq_some hlookup)
    refine List.map_congr_left fun e he => ?_
    have hiff : e.generation = generation ↔ e.cancel = none ∧ e.session = session := by
      constructor
      · intro heq
        obtain rfl := h.eq_of_generation he hlive (heq.trans hgeneration.symm)
        exact ⟨hcancel, hsession⟩
      · rintro ⟨hgoing, hsame⟩
        obtain rfl := h.eq_of_session he hlive (hsame.trans hsession.symm) hgoing hcancel
        exact hgeneration
    simp only [Emitter.stopFor, hiff]

theorem mem_withoutSession {live : List (String × Nat)} {entry : String × Nat} :
    entry ∈ withoutSession session live ↔ entry ∈ live ∧ entry.1 ≠ session := by
  simp [withoutSession]

theorem Coherent.order_stopped (h : s.Coherent) (session : String) (reason : Cancel) :
    (s.emitters.map (Emitter.stopFor s.now session reason)).Pairwise Emitter.Precedes := by
  rw [List.pairwise_map]
  refine h.order.imp_of_mem fun {a b} ha _ hab => ⟨?_, fun hsession => ?_⟩
  · rw [Emitter.generation_stopFor, Emitter.generation_stopFor]
    exact hab.generation
  · rw [Emitter.session_stopFor, Emitter.session_stopFor] at hsession
    obtain ⟨hcancel, hwake⟩ := hab.stopped hsession
    rw [Emitter.stopFor_of_cancel hcancel]
    refine ⟨hcancel, ?_⟩
    have hstop : (b.stopFor s.now session reason).wake = b.wake ∨ (b.stopFor s.now session reason).wake = s.now :=
      Emitter.wake_stopFor
    rcases hstop with hb | hb
    · rw [hb]
      exact hwake
    · rw [hb]
      exact h.woken a ha hcancel

theorem Coherent.woken_stopped (h : s.Coherent) (session : String) (reason : Cancel) :
    ∀ e ∈ s.emitters.map (Emitter.stopFor s.now session reason), e.cancel ≠ none → e.wake ≤ s.now := by
  rw [List.forall_mem_map]
  intro e he hcancel
  by_cases hstopped : e.cancel = none
  · by_cases hsession : e.session = session
    · rw [Emitter.stopFor_eq hstopped hsession]
      exact Nat.le_refl _
    · rw [Emitter.stopFor_of_session hsession] at hcancel
      exact absurd hstopped hcancel
  · rw [Emitter.stopFor_of_cancel hstopped]
    exact h.woken e he hstopped

/-- The emitters that go on are those of other sessions. -/
theorem Coherent.live_stopped (h : s.Coherent) (session : String) (reason : Cancel) (other : String)
    (generation : Nat) : (other, generation) ∈ withoutSession session s.live ↔
      ∃ e ∈ s.emitters.map (Emitter.stopFor s.now session reason),
        e.cancel = none ∧ e.session = other ∧ e.generation = generation := by
  simp only [mem_withoutSession, h.live, List.mem_map, exists_exists_and_eq_and, Emitter.cancel_stopFor,
    Emitter.session_stopFor, Emitter.generation_stopFor]
  constructor
  · rintro ⟨⟨e, he, hcancel, rfl, rfl⟩, hother⟩
    exact ⟨e, he, ⟨hcancel, hother⟩, rfl, rfl⟩
  · rintro ⟨e, he, ⟨hcancel, hother⟩, rfl, rfl⟩
    exact ⟨⟨e, he, hcancel, rfl, rfl⟩, hother⟩

theorem Coherent.unique_without (h : s.Coherent) (session : String) :
    ((withoutSession session s.live).map Prod.fst).Nodup :=
  (h.unique).sublist (List.filter_sublist.map Prod.fst)

/-! ## Messages -/

theorem Coherent.disconnect (h : s.Coherent) (session : String) : (s.disconnect session).Coherent := by
  have hemitters : (s.disconnect session).emitters =
      s.emitters.map (Emitter.stopFor s.now session .disconnected) := h.stopEmitters_eq session .disconnected
  refine ⟨?_, ?_, ?_, ?_, h.unique_without session⟩
  · rw [hemitters]
    exact h.order_stopped session .disconnected
  · rw [hemitters, List.forall_mem_map]
    intro e he
    rw [Emitter.generation_stopFor]
    exact h.fresh e he
  · rw [hemitters]
    exact h.woken_stopped session .disconnected
  · rw [hemitters]
    exact h.live_stopped session .disconnected

theorem Coherent.start (h : s.Coherent) (session requestId : String) (steps : List Step) :
    (s.start session requestId steps).Coherent := by
  have hemitters : (s.start session requestId steps).emitters =
      s.emitters.map (Emitter.stopFor s.now session .superseded) ++ [s.newEmitter session requestId steps] := by
    rw [State.start, h.stopEmitters_eq]
  refine ⟨?_, ?_, ?_, ?_, ?_⟩
  · rw [hemitters, List.pairwise_append]
    refine ⟨h.order_stopped session .superseded, List.pairwise_singleton _ _, ?_⟩
    rw [List.forall_mem_map]
    intro e he new hnew
    obtain rfl := List.mem_singleton.1 hnew
    refine ⟨?_, fun hsession => ?_⟩
    · rw [Emitter.generation_stopFor]
      exact h.fresh e he
    · rw [Emitter.session_stopFor] at hsession
      have hcancel : (e.stopFor s.now session .superseded).cancel ≠ none :=
        fun hnone => (Emitter.cancel_stopFor.1 hnone).2 hsession
      exact ⟨hcancel, h.woken_stopped session .superseded _ (List.mem_map_of_mem he) hcancel⟩
  · rw [hemitters, List.forall_mem_append, List.forall_mem_map]
    refine ⟨fun e he => ?_, fun new hnew => ?_⟩
    · rw [Emitter.generation_stopFor]
      exact Nat.lt_succ_of_lt (h.fresh e he)
    · obtain rfl := List.mem_singleton.1 hnew
      exact Nat.lt_succ_self _
  · rw [hemitters, List.forall_mem_append]
    refine ⟨h.woken_stopped session .superseded, fun new hnew hcancel => ?_⟩
    obtain rfl := List.mem_singleton.1 hnew
    exact absurd rfl hcancel
  · intro other generation
    rw [hemitters]
    simp only [State.start, List.mem_append, List.mem_singleton, or_and_right, exists_or, exists_eq_left,
      h.live_stopped session .superseded other generation, Prod.mk.injEq, State.newEmitter, true_and]
    refine or_congr Iff.rfl ?_
    rw [eq_comm, eq_comm (a := generation)]
  · simp only [State.start, List.map_append, List.map_cons, List.map_nil]
    refine List.nodup_append.2 ⟨h.unique_without session, List.nodup_singleton _, ?_⟩
    intro other hother new hnew
    obtain rfl := List.mem_singleton.1 hnew
    obtain ⟨entry, hentry, rfl⟩ := List.mem_map.1 hother
    exact (mem_withoutSession.1 hentry).2

theorem Coherent.handle (h : s.Coherent) (fresh : String) (message : Inbound) :
    (s.handle fresh message).Coherent := by
  cases message with
  | request session requestId steps => exact h.start session _ steps
  | disconnect session => exact h.disconnect session

/-! ## Time -/

theorem Coherent.later (h : s.Coherent) (time : Nat) : { s with now := s.now + time }.Coherent :=
  ⟨h.order, h.fresh, fun e he hcancel => Nat.le_add_right_of_le (h.woken e he hcancel), h.live, h.unique⟩

/-- Once it is time for the emitters that were told to stop, those that are left have steps to send. -/
theorem of_mem_settle (hdue : ∀ e ∈ s.emitters, e.cancel ≠ none → due e.wake = true) :
    ∀ e ∈ (s.settle due).2.emitters, e.cancel = none ∧ e.total ≠ 0 ∧ due e.wake = false := by
  intro e' he'
  obtain ⟨e, he, hleft⟩ := mem_emitters_settle.1 he'
  obtain ⟨hwaits, htotal⟩ := Emitter.waitsAs_of_left_run hleft
  refine ⟨?_, by rw [hwaits.total]; exact htotal, hwaits.wake⟩
  by_contra hstopped
  rw [hwaits.cancel] at hstopped
  rw [Emitter.left_run_eq_none hstopped (hdue e he hstopped)] at hleft
  cases hleft

theorem Coherent.settle (h : s.Coherent) (hdue : ∀ e ∈ s.emitters, e.cancel ≠ none → due e.wake = true) :
    (s.settle due).2.Coherent := by
  refine ⟨?_, ?_, ?_, ?_, ?_⟩
  · rw [emitters_settle, List.pairwise_filterMap]
    refine h.order.imp_of_mem fun {a b} ha _ hab a' hleft b' hleft' => ?_
    obtain ⟨ha', -⟩ := Emitter.waitsAs_of_left_run hleft
    obtain ⟨hb', -⟩ := Emitter.waitsAs_of_left_run hleft'
    refine ⟨by rw [ha'.generation, hb'.generation]; exact hab.generation, fun hsame => ?_⟩
    rw [ha'.session, hb'.session] at hsame
    -- the earlier one was told to stop, so it is not left
    have hcancel := (hab.stopped hsame).1
    rw [Emitter.left_run_eq_none hcancel (hdue a ha hcancel)] at hleft
    cases hleft
  · intro e' he'
    obtain ⟨e, he, hleft⟩ := mem_emitters_settle.1 he'
    rw [(Emitter.waitsAs_of_left_run hleft).1.generation]
    exact h.fresh e he
  · intro e' he' hcancel
    exact absurd (of_mem_settle hdue e' he').1 hcancel
  · intro session generation
    rw [mem_live_settle]
    constructor
    · rintro ⟨hlive, hover⟩
      obtain ⟨e, he, hcancel, hsession, hgeneration⟩ := (h.live session generation).1 hlive
      cases hleft : (e.run s.settings due).left with
      | none =>
        have hcompleted : (e.run s.settings due).completed = true := by
          rw [Emitter.completed_run hcancel, hleft]
          rfl
        exact absurd hgeneration (hover e he hcompleted hsession)
      | some e' =>
        obtain ⟨hwaits, -⟩ := Emitter.waitsAs_of_left_run hleft
        exact ⟨e', mem_emitters_settle.2 ⟨e, he, hleft⟩, hwaits.cancel.trans hcancel,
          hwaits.session.trans hsession, hwaits.generation.trans hgeneration⟩
    · rintro ⟨e', he', hcancel, hsession, hgeneration⟩
      obtain ⟨e, he, hleft⟩ := mem_emitters_settle.1 he'
      obtain ⟨hwaits, -⟩ := Emitter.waitsAs_of_left_run hleft
      rw [hwaits.cancel] at hcancel
      rw [hwaits.session] at hsession
      rw [hwaits.generation] at hgeneration
      refine ⟨(h.live session generation).2 ⟨e, he, hcancel, hsession, hgeneration⟩, ?_⟩
      intro f hf hcompleted _ hsame
      obtain rfl := h.eq_of_generation hf he (hsame.trans hgeneration.symm)
      rw [Emitter.completed_run hcancel, hleft] at hcompleted
      cases hcompleted
  · exact h.unique.sublist (List.filter_sublist.map Prod.fst)

/-- Emitters that were told to stop are due at once. -/
theorem Coherent.due_of_cancel (h : s.Coherent) (time : Nat) :
    ∀ e ∈ s.emitters, e.cancel ≠ none → decide (e.wake ≤ s.now + time) = true := by
  intro e he hcancel
  have := h.woken e he hcancel
  exact decide_eq_true (by omega)

theorem Coherent.advance (h : s.Coherent) (time : Nat) : (s.advance time).2.Coherent :=
  (h.later time).settle (h.due_of_cancel time)

/-! ## Runs -/

theorem Coherent.react (h : s.Coherent) (event : Event) : (s.react event).2.Coherent := by
  cases event with
  | take fresh message => exact h.handle fresh message
  | pass time => exact h.advance time

theorem Coherent.trace (h : s.Coherent) (events : List Event) : (s.trace events).2.Coherent := by
  induction events generalizing s with
  | nil => exact h
  | cons event events ih => exact ih (h.react event)

end State

end MathMarkup.Relay
