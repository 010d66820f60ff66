import MathMarkup.Proofs.Relay.Answers

/-!
# Time that passes in two parts

An emitter that waits at the end of a stretch of time goes on in the next one where it was left
(`Emitter.run_eq_resume`), so the emitters and the live requests are the same after one long stretch as
after its two parts. What is sent in the first part is due by its end, and what is sent in the second one
is due later; as sorting by time keeps the order of what is due together, the messages of the whole
stretch are those of the first part and behind them those of the second.

Main theorem: `Accounted.advance_add`.
-/

namespace MathMarkup.Relay

variable {settings : Settings} {s : State} {due later : Nat → Bool} {e e' : Emitter} {emitted wake : Nat}
  {pending : List Step} {run : Run}

/-! ## One emitter -/

/-- The run, and when it leaves an emitter what becomes of that one. -/
def Run.resume (run : Run) (next : Emitter → Run) : Run :=
  match run.left with
  | none => run
  | some e => { next e with sent := run.sent ++ (next e).sent }

theorem Run.resume_behind (d : Delivery) (run : Run) (next : Emitter → Run) :
    (run.behind d).resume next = (run.resume next).behind d := by
  unfold resume
  cases run with
  | mk sent left completed => cases left <;> rfl

theorem Run.resume_of_none {run : Run} {next : Emitter → Run} (h : run.left = none) : run.resume next = run := by
  rw [resume, h]

theorem Run.resume_of_some {run : Run} {next : Emitter → Run} (h : run.left = some e) :
    run.resume next = { next e with sent := run.sent ++ (next e).sent } := by
  rw [resume, h]

namespace Emitter

/-- What is sent does not depend on where the emitter says that it stands. -/
theorem Sends.moved (h : Sends settings due e emitted wake pending run) (steps : List Step) (count time : Nat) :
    Sends settings due { e with pending := steps, emitted := count, wake := time } emitted wake pending run := by
  induction h with
  | done emitted wake => exact .done emitted wake
  | waits emitted step rest hdue => exact .waits emitted step rest hdue
  | superseded emitted step rest hdue hcancel => exact .superseded emitted step rest hdue hcancel
  | disconnected emitted step rest hdue hcancel => exact .disconnected emitted step rest hdue hcancel
  | last emitted step hdue hcancel => exact .last emitted step hdue hcancel
  | next step hdue hcancel hrest _ ih => exact .next step hdue hcancel hrest ih

theorem run_moved (htotal : e.total ≠ 0) (steps : List Step) (count time : Nat) :
    Emitter.run settings due { e with pending := steps, emitted := count, wake := time } =
      e.send settings due count time steps := by
  have hmoved : { e with pending := steps, emitted := count, wake := time }.total ≠ 0 := htotal
  rw [run_of_total_ne_zero hmoved]
  exact sends_iff.1 ((sends_send settings due e count time steps).moved steps count time)

theorem Sends.resume (h : Sends settings due e emitted wake pending run)
    (hlater : ∀ time, due time = true → later time = true) (htotal : e.total ≠ 0) :
    Sends settings later e emitted wake pending (run.resume (·.run settings later)) := by
  induction h with
  | done emitted wake => exact .done emitted wake
  | waits emitted step rest hdue =>
    rw [Run.resume_of_some rfl]
    simp only [run_moved htotal, List.nil_append]
    exact sends_send settings later e emitted _ (step :: rest)
  | superseded emitted step rest hdue hcancel => exact .superseded emitted step rest (hlater _ hdue) hcancel
  | disconnected emitted step rest hdue hcancel => exact .disconnected emitted step rest (hlater _ hdue) hcancel
  | last emitted step hdue hcancel => exact .last emitted step (hlater _ hdue) hcancel
  | next step hdue hcancel hrest _ ih =>
    rw [Run.resume_behind]
    exact .next step (hlater _ hdue) hcancel hrest ih

/-- **An emitter goes on** where it was left. -/
theorem run_eq_resume (hlater : ∀ time, due time = true → later time = true) :
    e.run settings later = (e.run settings due).resume (·.run settings later) := by
  by_cases htotal : e.total = 0
  · rw [run_of_total_eq_zero htotal, run_of_total_eq_zero htotal]
    rfl
  · rw [run_of_total_ne_zero htotal]
    exact sends_iff.1 ((sends_run htotal).resume hlater htotal)

theorem left_run_eq_bind (hlater : ∀ time, due time = true → later time = true) :
    (e.run settings later).left = (e.run settings due).left.bind fun e' => (e'.run settings later).left := by
  rw [run_eq_resume hlater]
  cases hleft : (e.run settings due).left with
  | none => rw [Run.resume_of_none hleft, hleft]; rfl
  | some e' => rw [Run.resume_of_some hleft]; rfl

theorem sent_eq_append (hlater : ∀ time, due time = true → later time = true) :
    e.sent settings later = e.sent settings due ++
      (e.run settings due).left.toList.flatMap (Emitter.sent settings later) := by
  rw [Emitter.sent, run_eq_resume hlater]
  cases hleft : (e.run settings due).left with
  | none =>
    rw [Run.resume_of_none hleft, Option.toList_none, List.flatMap_nil, List.append_nil]
    rfl
  | some e' =>
    have hgeneration : e'.generation = e.generation := (waitsAs_of_left_run hleft).1.generation
    rw [Run.resume_of_some hleft, Option.toList_some, List.flatMap_singleton, List.map_append, Emitter.sent,
      Emitter.sent, hgeneration]

/-- An emitter that was left has not completed yet. -/
theorem Sends.completed_of_left (h : Sends settings due e emitted wake pending run) (hleft : run.left = some e') :
    run.completed = false := by
  induction h with
  | waits => rfl
  | next step hdue hcancel hrest _ ih => exact ih hleft
  | _ => cases hleft

theorem completed_of_left_run (h : (e.run settings due).left = some e') : (e.run settings due).completed = false :=
  (sends_run (waitsAs_of_left_run h).2).completed_of_left h

/-- It completes in one of the two parts. -/
theorem completed_iff_or (hlater : ∀ time, due time = true → later time = true) :
    (e.run settings later).completed = true ↔ (e.run settings due).completed = true ∨
      ∃ e', (e.run settings due).left = some e' ∧ (e'.run settings later).completed = true := by
  rw [run_eq_resume hlater]
  cases hleft : (e.run settings due).left with
  | none => simp [Run.resume_of_none hleft]
  | some e' => simp [Run.resume_of_some hleft, completed_of_left_run hleft]

/-- What is sent is due, unless there was nothing to wait for. -/
theorem Sends.due_of_mem (h : Sends settings due e emitted wake pending run) (hpending : pending ≠ []) :
    ∀ d ∈ run.sent, due d.time = true := by
  induction h with
  | done => exact absurd rfl hpending
  | waits => nofun
  | superseded emitted step rest hdue hcancel => simpa using hdue
  | disconnected => nofun
  | last emitted step hdue hcancel => simpa [complete] using hdue
  | next step hdue hcancel hrest _ ih => exact List.forall_mem_cons.2 ⟨hdue, ih hrest⟩

end Emitter

/-! ## The order of messages -/

theorem mem_iff_of_filter_key {α : Type} {key : α → Nat} {a b : List α}
    (h : ∀ k, (a.filter fun x => key x = k) = b.filter fun x => key x = k) (x : α) : x ∈ a ↔ x ∈ b := by
  have hkey : x ∈ (a.filter fun y => key y = key x) ↔ x ∈ b.filter fun y => key y = key x := by rw [h]
  simpa using hkey

/-- Lists in the order of a key are equal when they list the same entries for every key. -/
theorem eq_of_filter_key {α : Type} {key : α → Nat} {a b : List α} (ha : a.Pairwise fun x y => key x ≤ key y)
    (hb : b.Pairwise fun x y => key x ≤ key y)
    (h : ∀ k, (a.filter fun x => key x = k) = b.filter fun x => key x = k) : a = b := by
  induction a generalizing b with
  | nil => exact (List.eq_nil_iff_forall_not_mem.2 fun x hx => nomatch (mem_iff_of_filter_key h x).2 hx).symm
  | cons x a ih =>
    cases b with
    | nil => exact nomatch (mem_iff_of_filter_key h x).1 List.mem_cons_self
    | cons y b =>
      rw [List.pairwise_cons] at ha hb
      have hxy : key x ≤ key y := by
        rcases List.mem_cons.1 ((mem_iff_of_filter_key h y).2 List.mem_cons_self) with rfl | hy
        · exact Nat.le_refl _
        · exact ha.1 y hy
      have hyx : key y ≤ key x := by
        rcases List.mem_cons.1 ((mem_iff_of_filter_key h x).1 List.mem_cons_self) with rfl | hx
        · exact Nat.le_refl _
        · exact hb.1 x hx
      have hsame : key y = key x := Nat.le_antisymm hyx hxy
      have hfirst := h (key x)
      rw [List.filter_cons_of_pos (by simp), List.filter_cons_of_pos (by simp [hsame]), List.cons.injEq] at hfirst
      obtain ⟨rfl, htail⟩ := hfirst
      have hrest : ∀ k, (a.filter fun z => key z = k) = b.filter fun z => key z = k := by
        intro k
        by_cases hk : key x = k
        · rw [← hk]
          exact htail
        · have hother := h k
          rwa [List.filter_cons_of_neg (by simpa using hk), List.filter_cons_of_neg (by simpa using hk)] at hother
      rw [ih ha.2 hb.2 hrest]

namespace State

theorem pairwise_sent (s : State) (due : Nat → Bool) :
    (s.sent due).Pairwise fun a b => a.delivery.time ≤ b.delivery.time := by
  have hpairs : (s.sent due).Pairwise fun a b => Sent.notAfter a b := List.pairwise_mergeSort ?_ ?_ _
  · simpa [Sent.notAfter] using hpairs
  · simp only [Sent.notAfter, decide_eq_true_eq]
    exact fun a b c => Nat.le_trans
  · simp only [Sent.notAfter, Bool.or_eq_true, decide_eq_true_eq]
    exact fun a b => Nat.le_total _ _

/-- What is sent at one time is sent in the order of the emitters. -/
theorem filter_time_sent (s : State) (due : Nat → Bool) (time : Nat) :
    ((s.sent due).filter fun m => m.delivery.time = time) =
      (s.unsorted due).filter fun m => m.delivery.time = time := by
  rw [sent, Sent.filter_mergeSort]
  rw [List.pairwise_filter]
  refine List.pairwise_of_forall fun a b ha hb => ?_
  rw [decide_eq_true_eq] at ha hb
  omega

theorem unsorted_settle (s : State) (due later : Nat → Bool) : (s.settle due).2.unsorted later =
    s.emitters.flatMap fun e => (e.run s.settings due).left.toList.flatMap (Emitter.sent s.settings later) := by
  rw [unsorted, emitters_settle, List.filterMap_eq_flatMap_toList, List.flatMap_assoc]
  rfl

theorem unsorted_eq_flatMap (s : State) (hlater : ∀ time, due time = true → later time = true) :
    s.unsorted later = s.emitters.flatMap fun e => e.sent s.settings due ++
      (e.run s.settings due).left.toList.flatMap (Emitter.sent s.settings later) :=
  List.flatMap_congr fun _ _ => Emitter.sent_eq_append hlater

/-- What is sent at one time is sent in one of the two parts. -/
theorem filter_time_unsorted (hlater : ∀ time, due time = true → later time = true) {time : Nat}
    (hnow : ∀ m ∈ s.unsorted due, m.delivery.time ≤ time)
    (hthen : ∀ m ∈ (s.settle due).2.unsorted later, time < m.delivery.time) (k : Nat) :
    ((s.unsorted later).filter fun m => m.delivery.time = k) =
      ((s.unsorted due).filter fun m => m.delivery.time = k) ++
        ((s.settle due).2.unsorted later).filter fun m => m.delivery.time = k := by
  rcases Nat.lt_or_ge time k with hk | hk
  · have hnone : ∀ m ∈ s.unsorted due, ¬ decide (m.delivery.time = k) = true := by
      intro m hm
      have hearly := hnow m hm
      rw [decide_eq_true_eq]
      omega
    rw [List.filter_eq_nil_iff.2 hnone, List.nil_append, unsorted_settle, s.unsorted_eq_flatMap hlater,
      List.filter_flatMap, List.filter_flatMap]
    refine List.flatMap_congr fun e he => ?_
    rw [List.filter_append, List.filter_eq_nil_iff.2 fun m hm => hnone m (List.mem_flatMap_of_mem he hm),
      List.nil_append]
  · have hnone : ∀ m ∈ (s.settle due).2.unsorted later, ¬ decide (m.delivery.time = k) = true := by
      intro m hm
      have hlate := hthen m hm
      rw [decide_eq_true_eq]
      omega
    rw [List.filter_eq_nil_iff.2 hnone, List.append_nil, s.unsorted_eq_flatMap hlater, unsorted, List.filter_flatMap,
      List.filter_flatMap]
    rw [unsorted_settle] at hnone
    refine List.flatMap_congr fun e he => ?_
    rw [List.filter_append, List.filter_eq_nil_iff.2 fun m hm => hnone m (List.mem_flatMap_of_mem he hm),
      List.append_nil]

/-- **What is sent now and what is sent later**, when all of the one is due before all of the other. -/
theorem sent_eq_append (hlater : ∀ time, due time = true → later time = true) {time : Nat}
    (hnow : ∀ m ∈ s.unsorted due, m.delivery.time ≤ time)
    (hthen : ∀ m ∈ (s.settle due).2.unsorted later, time < m.delivery.time) :
    s.sent later = s.sent due ++ (s.settle due).2.sent later := by
  refine eq_of_filter_key (s.pairwise_sent later) ?_ fun k => ?_
  · rw [List.pairwise_append]
    refine ⟨s.pairwise_sent due, pairwise_sent _ later, fun a ha b hb => ?_⟩
    have hearly := hnow a (List.mem_mergeSort.1 ha)
    have hlate := hthen b (List.mem_mergeSort.1 hb)
    exact Nat.le_of_lt (Nat.lt_of_le_of_lt hearly hlate)
  · rw [List.filter_append, filter_time_sent, filter_time_sent, filter_time_sent]
    exact filter_time_unsorted hlater hnow hthen k

/-! ## Where the parts lead -/

theorem emitters_settle_settle (s : State) (hlater : ∀ time, due time = true → later time = true) :
    ((s.settle due).2.settle later).2.emitters = (s.settle later).2.emitters := by
  rw [emitters_settle, emitters_settle, emitters_settle, List.filterMap_filterMap]
  exact List.filterMap_congr fun e _ => (Emitter.left_run_eq_bind hlater).symm

/-- Has the emitter of this entry completed when it was time? -/
def isOver (s : State) (due : Nat → Bool) (entry : String × Nat) : Bool :=
  s.emitters.any fun e => (e.run s.settings due).completed && e.session == entry.1 && e.generation == entry.2

theorem live_settle (s : State) (due : Nat → Bool) :
    (s.settle due).2.live = s.live.filter fun entry => !s.isOver due entry := by
  simp only [settle, List.any_map, isOver]
  rfl

theorem isOver_eq_true_iff {entry : String × Nat} : s.isOver due entry = true ↔ ∃ e ∈ s.emitters,
    (e.run s.settings due).completed = true ∧ e.session = entry.1 ∧ e.generation = entry.2 := by
  simp only [isOver, List.any_eq_true, Bool.and_eq_true, beq_iff_eq, and_assoc]

theorem isOver_settle (s : State) (hlater : ∀ time, due time = true → later time = true) (entry : String × Nat) :
    s.isOver later entry = (s.isOver due entry || (s.settle due).2.isOver later entry) := by
  rw [Bool.eq_iff_iff, Bool.or_eq_true, isOver_eq_true_iff, isOver_eq_true_iff, isOver_eq_true_iff]
  constructor
  · rintro ⟨e, he, hcompleted, hsession, hgeneration⟩
    rcases (Emitter.completed_iff_or hlater).1 hcompleted with hcompleted | ⟨e', hleft, hcompleted⟩
    · exact Or.inl ⟨e, he, hcompleted, hsession, hgeneration⟩
    · obtain ⟨hwaits, -⟩ := Emitter.waitsAs_of_left_run hleft
      exact Or.inr ⟨e', mem_emitters_settle.2 ⟨e, he, hleft⟩, hcompleted, hwaits.session.trans hsession,
        hwaits.generation.trans hgeneration⟩
  · rintro (⟨e, he, hcompleted, hentry⟩ | ⟨e', he', hcompleted, hsession, hgeneration⟩)
    · exact ⟨e, he, (Emitter.completed_iff_or hlater).2 (Or.inl hcompleted), hentry⟩
    · obtain ⟨e, he, hleft⟩ := mem_emitters_settle.1 he'
      obtain ⟨hwaits, -⟩ := Emitter.waitsAs_of_left_run hleft
      exact ⟨e, he, (Emitter.completed_iff_or hlater).2 (Or.inr ⟨e', hleft, hcompleted⟩),
        hwaits.session.symm.trans hsession, hwaits.generation.symm.trans hgeneration⟩

theorem live_settle_settle (s : State) (hlater : ∀ time, due time = true → later time = true) :
    ((s.settle due).2.settle later).2.live = (s.settle later).2.live := by
  rw [live_settle, live_settle, live_settle, List.filter_filter]
  refine List.filter_congr fun entry _ => ?_
  rw [s.isOver_settle hlater, Bool.not_or, Bool.and_comm]

/-- **Running twice**, first as long as it is time now and then as long as it is later, leads where running
once leads. -/
theorem settle_settle (s : State) (hlater : ∀ time, due time = true → later time = true) :
    ((s.settle due).2.settle later).2 = (s.settle later).2 := by
  have hemitters := s.emitters_settle_settle hlater
  have hlive := s.live_settle_settle hlater
  simp only [settle] at hemitters hlive ⊢
  rw [hemitters, hlive]

/-! ## Nothing is sent too early -/

/-- A request without steps does not wait. -/
def Prompt (s : State) : Prop := ∀ e ∈ s.emitters, e.total = 0 → e.wake ≤ s.now

theorem prompt_initial (settings : Settings) : (initial settings).Prompt := nofun

theorem Prompt.wake_stopFor (h : s.Prompt) (session : String) (reason : Cancel) :
    ∀ e ∈ s.emitters.map (Emitter.stopFor s.now session reason), e.total = 0 → e.wake ≤ s.now := by
  rw [List.forall_mem_map]
  intro e he htotal
  have htotal' : e.total = 0 := by
    rw [Emitter.stopFor] at htotal
    split at htotal <;> exact htotal
  have hwakes : (e.stopFor s.now session reason).wake = e.wake ∨ (e.stopFor s.now session reason).wake = s.now :=
    Emitter.wake_stopFor
  rcases hwakes with hwake | hwake
  · rw [hwake]
    exact h e he htotal'
  · exact Nat.le_of_eq hwake

theorem Prompt.handle (h : s.Prompt) (hcoherent : s.Coherent) (fresh : String) (message : Inbound) :
    (s.handle fresh message).Prompt := by
  cases message with
  | request session requestId steps =>
    intro e he
    rw [State.handle, start, hcoherent.stopEmitters_eq] at he
    rcases List.mem_append.1 he with he | he
    · exact h.wake_stopFor session .superseded e he
    · obtain rfl := List.mem_singleton.1 he
      exact fun _ => Nat.le_refl _
  | disconnect session =>
    intro e he
    rw [State.handle, State.disconnect, hcoherent.stopEmitters_eq] at he
    exact h.wake_stopFor session .disconnected e he

theorem prompt_settle (s : State) (due : Nat → Bool) : (s.settle due).2.Prompt := by
  intro e' he' htotal
  obtain ⟨e, -, hleft⟩ := mem_emitters_settle.1 he'
  obtain ⟨hwaits, hsteps⟩ := Emitter.waitsAs_of_left_run hleft
  exact absurd (hwaits.total.symm.trans htotal) hsteps

theorem Prompt.react (h : s.Prompt) (hcoherent : s.Coherent) (event : Event) : (s.react event).2.Prompt := by
  cases event with
  | take fresh message => exact h.handle hcoherent fresh message
  | pass time => exact prompt_settle _ _

theorem Prompt.trace (h : s.Prompt) (hcoherent : s.Coherent) (events : List Event) : (s.trace events).2.Prompt := by
  induction events generalizing s with
  | nil => exact h
  | cons event events ih => exact ih (h.react hcoherent event) (hcoherent.react event)

end State

variable {rs : List Request} {history : List Sent}

/-- What is sent in a stretch of time is due by its end. -/
theorem Accounted.time_le (h : Accounted settings rs history s) (hprompt : s.Prompt) (time : Nat) :
    ∀ e ∈ s.emitters, ∀ d ∈ (e.run s.settings (· ≤ s.now + time)).sent, d.time ≤ s.now + time := by
  intro e he d hd
  by_cases htotal : e.total = 0
  · rw [Emitter.run_of_total_eq_zero htotal] at hd
    have hat : d.time = e.wake := by
      rcases List.mem_pair.1 hd with rfl | rfl <;> rfl
    rw [hat]
    exact Nat.le_add_right_of_le (hprompt e he htotal)
  · obtain ⟨r, -, hserves, -⟩ := h.serving e he
    exact of_decide_eq_true ((Emitter.sends_run htotal).due_of_mem (hserves.pending_ne_nil htotal) d hd)

/-- What is sent behind a stretch of time was not due in it. -/
theorem State.lt_time_of_settle (s : State) (later : Nat → Bool) (time : Nat) :
    ∀ e ∈ (s.settle (· ≤ time)).2.emitters, ∀ d ∈ (e.run s.settings later).sent, time < d.time := by
  intro e' he' d hd
  obtain ⟨e, -, hleft⟩ := State.mem_emitters_settle.1 he'
  have hwake := (Emitter.waitsAs_of_left_run hleft).1.wake
  have hlate := Emitter.pairwise_sent_run.1 d hd
  rw [decide_eq_false_iff_not] at hwake
  omega

theorem State.advance_eq (s : State) (time : Nat) : s.advance time =
    ((s.settle (· ≤ s.now + time)).1, { (s.settle (· ≤ s.now + time)).2 with now := s.now + time }) := rfl

theorem State.settle_at (s : State) (time : Nat) (due : Nat → Bool) :
    { s with now := time }.settle due = ((s.settle due).1, { (s.settle due).2 with now := time }) := rfl

/-- **Time may pass in two parts**: the relay sends the same messages and gets to the same state. -/
theorem Accounted.advance_add (h : Accounted settings rs history s) (hprompt : s.Prompt) (a b : Nat) :
    s.advance (a + b) = ((s.advance a).1 ++ ((s.advance a).2.advance b).1, ((s.advance a).2.advance b).2) := by
  have hlater : ∀ time, decide (time ≤ s.now + a) = true → decide (time ≤ s.now + (a + b)) = true := by
    intro time htime
    rw [decide_eq_true_eq] at htime ⊢
    omega
  have hnow : ∀ m ∈ s.unsorted (· ≤ s.now + a), m.delivery.time ≤ s.now + a := by
    intro m hm
    obtain ⟨e, he, hme⟩ := List.mem_flatMap.1 hm
    obtain ⟨d, hd, rfl⟩ := List.mem_map.1 hme
    exact h.time_le hprompt a e he d hd
  have hthen : ∀ m ∈ (s.settle (· ≤ s.now + a)).2.unsorted (· ≤ s.now + (a + b)), s.now + a < m.delivery.time := by
    intro m hm
    obtain ⟨e, he, hme⟩ := List.mem_flatMap.1 hm
    obtain ⟨d, hd, rfl⟩ := List.mem_map.1 hme
    exact s.lt_time_of_settle _ _ e he d hd
  have hsent : (s.settle (· ≤ s.now + (a + b))).1 = (s.settle (· ≤ s.now + a)).1 ++
      ((s.settle (· ≤ s.now + a)).2.settle (· ≤ s.now + (a + b))).1 := by
    rw [← State.map_message_sent, ← State.map_message_sent, ← State.map_message_sent,
      State.sent_eq_append hlater hnow hthen, List.map_append]
  simp only [State.advance_eq, State.settle_at, Nat.add_assoc, hsent, ← s.settle_settle hlater]

end MathMarkup.Relay
