import MathMarkup.Xml.Reader

/-!
# Lines of what was read

Reading never goes back (`Cursor.Reaches`), so every cursor stands in a row from 1 on, and so does every start
tag. `Yields` carries such facts through the readers, which stop at the first fault.

Main statement: `isPlaced_of_parse`.
-/

namespace MathMarkup.Xml

open Text

mutual

/-- Does every element stand on a line? -/
def isPlaced : Node → Bool
  | .text _ => true
  | .element tag children => decide (0 < tag.line) && isPlacedAll children

def isPlacedAll : List Node → Bool
  | [] => true
  | n :: rest => isPlaced n && isPlacedAll rest

end

variable {α β : Type} {P : α → Prop} {Q : β → Prop} {c : Cursor} {p : Progress} {f : Frame} {outer : List Frame}

theorem isPlacedAll_eq_all (children : List Node) : isPlacedAll children = children.all isPlaced := by
  induction children with
  | nil => rfl
  | cons n rest ih => rw [isPlacedAll, ih, List.all_cons]

/-! ## Readers that may fail -/

/-- What is read, if anything is, has the property. -/
def Yields (P : α → Prop) : Except Fault α → Prop
  | .ok a => P a
  | .error _ => True

theorem Yields.bind {x : Except Fault α} {f : α → Except Fault β} (hx : Yields P x)
    (hf : ∀ a, P a → Yields Q (f a)) : Yields Q (x >>= f) := by
  cases x with
  | ok a => exact hf a hx
  | error => trivial

theorem Yields.map {x : Except Fault α} {f : α → β} (hx : Yields P x) (hf : ∀ a, P a → Q (f a)) :
    Yields Q (x.map f) := by
  cases x with
  | ok a => exact hf a hx
  | error => trivial

/-- What follows a branch in which two steps are made, or none. -/
theorem Yields.branch {cond : Prop} [Decidable cond] {x : Except Fault α} {g : α → Except Fault α} {a : α}
    {f : α → Except Fault β} (hx : Yields P x) (hg : ∀ a, P a → Yields P (g a)) (ha : P a)
    (hf : ∀ a, P a → Yields Q (f a)) :
    Yields Q (if cond then x >>= fun a => g a >>= f else pure a >>= f) := by
  split
  · exact hx.bind fun a ha => (hg a ha).bind hf
  · exact hf a ha

theorem Yields.of_eq_ok {x : Except Fault α} {a : α} (hx : Yields P x) (h : x = .ok a) : P a := by
  rw [h] at hx
  exact hx

theorem yields_of_eq_ok {x : Except Fault α} (h : ∀ a, x = .ok a → P a) : Yields P x := by
  cases x with
  | ok a => exact h a rfl
  | error => trivial

/-! ## Cursors -/

/-- The row that the cursor stands in. -/
def Cursor.row (c : Cursor) : Nat := c.position.row

theorem Position.row_le_next (p : Position) (c : Char) : p.row ≤ (p.next c).row := by
  rw [next]
  split
  · exact Nat.le_succ _
  · exact Nat.le_refl _

theorem Position.row_le_after (p : Position) (s : List Char) : p.row ≤ (p.after s).row := by
  induction s generalizing p with
  | nil => exact Nat.le_refl _
  | cons c s ih => exact Nat.le_trans (p.row_le_next c) (ih (p.next c))

namespace Cursor

/-- Reading from the cursor `c` may lead to `c'`. -/
structure Reaches (c c' : Cursor) : Prop where
  row : c.row ≤ c'.row
  rest : c'.rest <:+ c.rest

variable {c₁ c₂ c₃ : Cursor}

theorem Reaches.refl (c : Cursor) : c.Reaches c := ⟨Nat.le_refl _, List.suffix_refl _⟩

theorem Reaches.trans (h : c₁.Reaches c₂) (h' : c₂.Reaches c₃) : c₁.Reaches c₃ :=
  ⟨Nat.le_trans h.row h'.row, h'.rest.trans h.rest⟩

theorem reaches_advance (c : Cursor) (n : Nat) : c.Reaches (c.advance n) :=
  ⟨c.position.row_le_after _, List.drop_suffix n c.rest⟩

theorem reaches_skipSpace (c : Cursor) : c.Reaches c.skipSpace := c.reaches_advance _

theorem yields_expect (wanted : Char) (c : Cursor) : Yields c.Reaches (c.expect wanted) := by
  rw [expect]
  split
  · trivial
  · split
    · exact c.reaches_advance 1
    · trivial

theorem yields_expectWord (word : String) (c : Cursor) : Yields c.Reaches (c.expectWord word) := by
  rw [expectWord]
  split
  · exact c.reaches_advance _
  · trivial

theorem yields_expectQuote (c : Cursor) : Yields (fun r => c.Reaches r.2) c.expectQuote := by
  rw [expectQuote]
  split
  · trivial
  · split
    · exact c.reaches_advance 1
    · trivial

theorem yields_admittedFrom (stop : List Char → Bool) (p : Position) (s : List Char) :
    Yields (fun r => Reaches ⟨s, p⟩ r.2) (admittedFrom stop p s) := by
  induction s generalizing p with
  | nil => exact Reaches.refl _
  | cons c s ih =>
    rw [admittedFrom]
    split
    · trivial
    · split
      · exact Reaches.refl _
      · have hnext : Reaches ⟨c :: s, p⟩ ⟨s, p.next c⟩ := ⟨p.row_le_next c, List.suffix_cons c s⟩
        exact (ih (p.next c)).map fun _ h => hnext.trans h

theorem yields_admitted (stop : List Char → Bool) (c : Cursor) :
    Yields (fun r => c.Reaches r.2) (c.admitted stop) := yields_admittedFrom stop c.position c.rest

theorem yields_qname (c : Cursor) : Yields (fun r => c.Reaches r.2) c.qname := by
  rw [qname, span]
  simp only
  split
  · exact c.reaches_advance _
  · trivial

theorem yields_name (c : Cursor) : Yields (fun r => c.Reaches r.2) c.name := by
  rw [name]
  split
  · exact c.reaches_advance _
  · trivial

end Cursor

/-! ## Parts of a document -/

theorem yields_readComment (c : Cursor) : Yields c.Reaches (readComment c) := by
  refine ((c.advance 4).yields_admitted _).bind ?_
  rintro ⟨text, c₁⟩ h₁
  refine (c₁.yields_expectWord _).bind fun c₂ h₂ => ?_
  dsimp only
  split
  · trivial
  · exact (c.reaches_advance 4).trans (h₁.trans h₂)

theorem yields_readInstruction (c : Cursor) : Yields c.Reaches (readInstruction c) := by
  rw [readInstruction]
  dsimp only
  split
  · trivial
  · refine (c.advance 2).yields_name.bind ?_
    rintro ⟨name, c₁⟩ h₁
    refine (c₁.skipSpace.yields_admitted _).bind ?_
    rintro ⟨text, c₂⟩ h₂
    refine yields_of_eq_ok fun c₃ h₃ => ?_
    have hclose := (c₂.yields_expectWord _).of_eq_ok h₃
    exact (c.reaches_advance 2).trans (h₁.trans (c₁.reaches_skipSpace.trans (h₂.trans hclose)))

theorem yields_readSection (c : Cursor) : Yields (fun r => c.Reaches r.2) (readSection c) := by
  refine ((c.advance 9).yields_admitted _).bind ?_
  rintro ⟨text, c₁⟩ h₁
  exact (c₁.yields_expectWord _).bind fun c₂ h₂ => (c.reaches_advance 9).trans (h₁.trans h₂)

theorem yields_readText (c : Cursor) : Yields (fun r => c.Reaches r.2) (readText c) := by
  refine (c.yields_admitted _).bind ?_
  rintro ⟨raw, c₁⟩ h₁
  have hdata : ∀ x : Except Fault (List Char), Yields (fun _ => True) x := fun x => yields_of_eq_ok fun _ _ => trivial
  dsimp only
  split
  · trivial
  · exact (hdata _).bind fun text _ => h₁

theorem yields_readEndTag (opened : QName) (c : Cursor) : Yields c.Reaches (readEndTag opened c) := by
  refine (c.advance 2).yields_qname.bind ?_
  rintro ⟨name, c₁⟩ h₁
  refine (c₁.skipSpace.yields_expect _).bind fun c₂ h₂ => ?_
  dsimp only
  split
  · trivial
  · exact (c.reaches_advance 2).trans (h₁.trans (c₁.reaches_skipSpace.trans h₂))

theorem yields_readAttribute (c : Cursor) : Yields (fun r => c.Reaches r.2.2.2) (readAttribute c) := by
  refine c.yields_qname.bind ?_
  rintro ⟨name, c₁⟩ h₁
  refine (c₁.skipSpace.yields_expect _).bind fun c₂ h₂ => ?_
  refine c₂.skipSpace.yields_expectQuote.bind ?_
  rintro ⟨quote, c₃⟩ h₃
  refine (c₃.yields_admitted _).bind ?_
  rintro ⟨raw, c₄⟩ h₄
  refine (c₄.yields_expect _).bind fun c₅ h₅ => ?_
  have hequals : c.Reaches c₂ := h₁.trans (c₁.reaches_skipSpace.trans h₂)
  exact hequals.trans (c₂.reaches_skipSpace.trans (h₃.trans (h₄.trans h₅)))

theorem yields_readAttributes (a : Attributes) (c : Cursor) :
    Yields (fun r => c.Reaches r.2.2) (readAttributes a c) := by
  have hspace := c.reaches_skipSpace
  fun_induction readAttributes a c with
  | case1 => exact Cursor.Reaches.refl _
  | case2 => trivial
  | case3 a c hrest here rest hnext =>
    exact ((here.advance 1).yields_expect _).map fun c' h => hspace.trans ((here.reaches_advance 1).trans h)
  | case4 a c hrest here rest hnext => exact hspace.trans (here.reaches_advance 1)
  | case5 => trivial
  | case6 => trivial
  | case7 => trivial
  | case8 => trivial
  | case9 a c hrest here next rest hslash hclose hnext hat name raw start behind hread value hvalue b hadd hless ih =>
    have hattribute : here.Reaches behind := (yields_readAttribute here).of_eq_ok hread
    exact yields_of_eq_ok fun r hr => (hspace.trans hattribute).trans ((ih behind.reaches_skipSpace).of_eq_ok hr)
  | case10 => trivial

/-- An element stands in the row where its start tag starts. -/
theorem yields_makeTag (parent : Scope) (start : Position) (name : QName) (a : Attributes) :
    Yields (fun t => t.tag.line = start.row) (makeTag parent start name a) := by
  have hany : ∀ {γ : Type} (x : Except Fault γ), Yields (fun _ => True) x := fun x =>
    yields_of_eq_ok fun _ _ => trivial
  refine (hany _).bind fun attributes _ => ?_
  dsimp only
  split
  · exact (hany _).bind fun space _ => rfl
  · exact (hany _).bind fun space _ => rfl

theorem yields_readStartTag (parent : Scope) (c : Cursor) :
    Yields (fun r => c.Reaches r.2.2 ∧ ∀ t, r.1 = some t → t.tag.line = c.row) (readStartTag parent c) := by
  refine (c.advance 1).yields_qname.bind ?_
  rintro ⟨name, c₁⟩ h₁
  dsimp only
  split
  · trivial
  · refine (yields_readAttributes ⟨[], []⟩ c₁).bind ?_
    rintro ⟨a, tagEnd, c₂⟩ h₂
    have hreach : c.Reaches c₂ := (c.reaches_advance 1).trans (h₁.trans h₂)
    have hmade : ∀ e : TagEnd, Yields (fun r => c.Reaches r.2.2 ∧ ∀ t, r.1 = some t → t.tag.line = c.row)
        (makeTag parent c.position name a >>= fun tag => pure (some tag, e, c₂)) := by
      intro e
      refine (yields_makeTag parent c.position name a).bind fun tag htag => ⟨hreach, fun t ht => ?_⟩
      obtain rfl := Option.some.inj ht
      exact htag
    cases tagEnd with
    | cutOff =>
      refine ⟨hreach, fun t ht => ?_⟩
      cases ht
    | opened => exact hmade .opened
    | empty => exact hmade .empty

/-! ## Content -/

/-- Everything that was read so far stands on a line. -/
structure Progress.Placed (p : Progress) : Prop where
  row : 0 < p.cursor.row
  opened : ∀ f ∈ p.opened, 0 < f.start.tag.line ∧ ∀ n ∈ f.children, isPlaced n = true
  root : ∀ e, p.root = some e → isPlaced e.toNode = true

namespace Progress

theorem isPlaced_close (hf : 0 < f.start.tag.line ∧ ∀ n ∈ f.children, isPlaced n = true) :
    isPlaced f.close.toNode = true := by
  have hchildren : isPlacedAll (f.children.reverse.filter fun n => !n.isBlankText) = true := by
    rw [isPlacedAll_eq_all, List.all_eq_true]
    exact fun n hn => hf.2 n (List.mem_reverse.1 (List.mem_filter.1 hn).1)
  rw [Element.toNode, Frame.close, isPlaced, hchildren, Bool.and_true, decide_eq_true_eq]
  exact hf.1

theorem Placed.finish {e : Element} (h : p.Placed) (he : isPlaced e.toNode = true) (hc : 0 < c.row)
    (houter : ∀ f ∈ outer, 0 < f.start.tag.line ∧ ∀ n ∈ f.children, isPlaced n = true) :
    (p.finish e outer c).Placed := by
  cases outer with
  | nil => exact ⟨hc, List.forall_mem_nil _, fun e' he' => Option.some.inj he' ▸ he⟩
  | cons f outer =>
    rw [List.forall_mem_cons] at houter
    refine ⟨hc, ?_, h.root⟩
    rw [Progress.finish]
    rw [List.forall_mem_cons]
    exact ⟨⟨houter.1.1, List.forall_mem_cons.2 ⟨he, houter.1.2⟩⟩, houter.2⟩

theorem Placed.addText (h : p.Placed) (hopened : p.opened = f :: outer) (s : List Char) (hc : 0 < c.row) :
    (p.addText s f outer c).Placed := by
  have hall := h.opened
  rw [hopened, List.forall_mem_cons] at hall
  obtain ⟨⟨hline, hchildren⟩, houter⟩ := hall
  refine ⟨hc, ?_, h.root⟩
  rw [Progress.addText, List.forall_mem_cons]
  refine ⟨?_, houter⟩
  unfold Frame.addText
  split
  · rename_i before rest _ heq
    rw [heq, List.forall_mem_cons] at hchildren
    exact ⟨hline, List.forall_mem_cons.2 ⟨rfl, hchildren.2⟩⟩
  · exact ⟨hline, List.forall_mem_cons.2 ⟨rfl, hchildren⟩⟩

theorem Placed.start (h : p.Placed) : Yields Placed p.start := by
  refine (yields_readStartTag p.scope p.cursor).bind ?_
  rintro ⟨tag, tagEnd, c⟩ ⟨hreach, hline⟩
  have hc : 0 < c.row := Nat.lt_of_lt_of_le h.row hreach.row
  cases tag with
  | none => exact ⟨hc, h.opened, h.root⟩
  | some tag =>
    have htag : 0 < tag.tag.line := by
      rw [hline tag rfl]
      exact h.row
    dsimp only
    split
    · refine Placed.finish (p := { p with prefixes := _, inText := false }) ⟨h.row, h.opened, h.root⟩ ?_ hc h.opened
      rw [Element.toNode, isPlaced, isPlacedAll, Bool.and_true, decide_eq_true_eq]
      exact htag
    · exact ⟨hc, List.forall_mem_cons.2 ⟨⟨htag, List.forall_mem_nil _⟩, h.opened⟩, h.root⟩

theorem Placed.step (h : p.Placed) (hopened : p.opened = f :: outer) : Yields Placed (p.step f outer) := by
  have hskip : ∀ r : Except Fault Cursor, Yields p.cursor.Reaches r →
      Yields Placed (r.map fun c => { p with cursor := c, inText := false }) := fun r hr =>
    hr.map fun c hc => ⟨Nat.lt_of_lt_of_le h.row hc.row, h.opened, h.root⟩
  have htext : ∀ r : List Char × Cursor, p.cursor.Reaches r.2 → (p.addText r.1 f outer r.2).Placed :=
    fun r hr => h.addText hopened r.1 (Nat.lt_of_lt_of_le h.row hr.row)
  rw [Progress.step]
  dsimp only
  split
  · split
    · exact hskip _ (yields_readComment p.cursor)
    · split
      · exact (yields_readSection p.cursor).map htext
      · trivial
  · exact hskip _ (yields_readInstruction p.cursor)
  · refine (yields_readEndTag f.start.name p.cursor).map fun c hc => ?_
    have hall := h.opened
    rw [hopened, List.forall_mem_cons] at hall
    exact h.finish (isPlaced_close hall.1) (Nat.lt_of_lt_of_le h.row hc.row) hall.2
  · trivial
  · exact h.start
  · exact (yields_readText p.cursor).map htext

theorem Placed.run (h : p.Placed) : Yields Placed p.run := by
  fun_induction Progress.run p with
  | case1 => exact h
  | case2 => exact h
  | case3 => trivial
  | case4 p f outer hopened hrest next hstep hless ih => exact ih ((h.step hopened).of_eq_ok hstep)
  | case5 => trivial

end Progress

/-! ## Documents -/

theorem yields_skipMisc (c : Cursor) : Yields c.Reaches (skipMisc c) := by
  have hmore : ∀ next, c.skipSpace.Reaches next → Yields c.Reaches
      (if next.rest.length < c.rest.length then skipMisc next else .error .unexpectedEnd) := by
    intro next hnext
    split
    · rename_i hless
      refine yields_of_eq_ok fun c' hc' => ?_
      exact (c.reaches_skipSpace.trans hnext).trans ((yields_skipMisc next).of_eq_ok hc')
    · trivial
  rw [skipMisc]
  dsimp only
  split
  · split
    · trivial
    · rename_i next hnext
      exact hmore next ((yields_readComment c.skipSpace).of_eq_ok hnext)
  · split
    · split
      · trivial
      · rename_i next hnext
        exact hmore next ((yields_readInstruction c.skipSpace).of_eq_ok hnext)
    · exact c.reaches_skipSpace
termination_by c.rest.length

theorem yields_declarationSpace (c : Cursor) : Yields c.Reaches (declarationSpace c) := by
  rw [declarationSpace]
  split
  · exact Cursor.Reaches.refl _
  · split
    · exact c.reaches_skipSpace
    · split
      · exact Cursor.Reaches.refl _
      · trivial

theorem yields_declarationPart (word : String) (c : Cursor) : Yields c.Reaches (declarationPart word c) := by
  rw [declarationPart]
  split
  · exact Cursor.Reaches.refl _
  · exact (yields_readAttribute c).bind fun r hr => hr

theorem yields_readDeclaration (c : Cursor) : Yields c.Reaches (readDeclaration c) := by
  have hend : ∀ c', c.Reaches c' → Yields c.Reaches (do
      let c' ← declarationPart "standalone" c'
      c'.skipSpace.expectWord "?>") := by
    intro c' hc
    refine (yields_declarationPart "standalone" c').bind fun c₁ h₁ => ?_
    refine yields_of_eq_ok fun c₂ h₂ => ?_
    have hclose : c₁.skipSpace.Reaches c₂ := (c₁.skipSpace.yields_expectWord _).of_eq_ok h₂
    exact hc.trans (h₁.trans (c₁.reaches_skipSpace.trans hclose))
  refine (yields_declarationSpace _).bind fun c₁ h₁ => ?_
  dsimp only
  split
  · trivial
  · refine (yields_declarationPart "version" c₁).bind fun c₂ h₂ => ?_
    refine (yields_declarationSpace c₂).bind fun c₃ h₃ => ?_
    have hversion : c.Reaches c₃ := (c.reaches_advance 5).trans (h₁.trans (h₂.trans h₃))
    split
    · refine (yields_declarationPart "encoding" c₃).bind fun c₄ h₄ => ?_
      exact (yields_declarationSpace c₄).bind fun c₅ h₅ => hend c₅ (hversion.trans (h₄.trans h₅))
    · exact hend c₃ hversion

theorem yields_readProlog (c : Cursor) : Yields c.Reaches (readProlog c) := by
  have hend : ∀ c', c.Reaches c' → Yields c.Reaches (do
      let c' ← skipMisc c'
      if c'.sees "<!DOCTYPE" then throw Fault.doctype
      return c') := by
    intro c' hc
    refine (yields_skipMisc c').bind fun c₁ h₁ => ?_
    dsimp only
    split
    · trivial
    · exact hc.trans h₁
  have hmark : c.Reaches (if c.sees "\ufeff" then c.advance 1 else c) := by
    split
    · exact c.reaches_advance 1
    · exact Cursor.Reaches.refl _
  rw [readProlog]
  dsimp only
  generalize (if c.sees "\ufeff" then c.advance 1 else c) = c₀ at hmark ⊢
  split
  · exact (yields_readDeclaration _).bind fun c₁ h₁ => hend c₁ (hmark.trans h₁)
  · exact hend _ hmark

theorem yields_readRoot (s : List Char) : Yields (fun r => isPlaced r.1.toNode = true) (readRoot s) := by
  refine (yields_readProlog (Cursor.start s)).bind fun c hc => ?_
  have hstart : Progress.Placed ⟨c, [], false, [], none⟩ := by
    refine ⟨hc.row, List.forall_mem_nil _, fun e he => ?_⟩
    cases he
  refine Yields.branch hstart.start (fun p hp => hp.run) hstart fun p hp => ?_
  refine (yields_skipMisc p.cursor).bind fun behind _ => ?_
  dsimp only
  split
  · trivial
  · split
    · trivial
    · split
      · rename_i root hroot
        exact hp.root root hroot
      · trivial

/-- **Every element that was read stands on a line.** -/
theorem isPlaced_of_parse {s : List Char} {root : Element} (h : parse s = .ok root) :
    isPlaced root.toNode = true := by
  have hparse : Yields (fun root : Element => isPlaced root.toNode = true) (parse s) :=
    (yields_readRoot s).bind fun r hr => hr
  exact hparse.of_eq_ok h

end MathMarkup.Xml
