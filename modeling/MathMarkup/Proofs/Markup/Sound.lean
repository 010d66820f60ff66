import MathMarkup.MathML.Validation
import MathMarkup.Proofs.Repair.Completeness
import MathMarkup.Proofs.Xml.Content

/-!
# Sound markup is valid

Markup is sound when its tags can be written as XML and its elements follow their content models
(`Markup.Sound`). What is read of sound markup has the names of its elements and breaks no rule
(`readsBack_of_sound`).

Main theorem `isValid_math`: a `math` element around sound markup passes validation.
-/

namespace MathMarkup.MathML

open Text Xml

/-! ## Soundness -/

/-- The name of an element; a text has none. -/
def Markup.name : Markup → String
  | .element name _ _ | .void name _ => name
  | .text _ => ""

/-- Do elements with these names follow the content model? Only elements that are laid out are
considered. -/
def ContentModel.Fits : ContentModel → List String → Prop
  | .row, _ => True
  | .single, names => names.length ≤ 1
  | .operands count, names => names.length = count ∧ ∀ n ∈ names, n = "mrow"
  | .table, names => ∀ n ∈ names, isTableRow n = true
  | .tableRow, names => ∀ n ∈ names, n = "mtd"
  | .token, _ | .empty, _ | .unchecked, _ => False

/-- A tag that can be written, of an element with this content model. -/
structure FitTag (name : String) (attributes : List (String × List Char)) (model : ContentModel) : Prop where
  model : contentModel? name = some model
  required : requiredAttributes name = []
  word : IsWord name.toList
  attributes : FitAttributes attributes

/-- Markup that can be written as XML and follows the grammar. -/
inductive Markup.Sound : Markup → Prop
  | token {name attributes s} (tag : FitTag name attributes .token)
      (text : IsAdmitted s) : Sound (.element name attributes [.text s])
  | element {name attributes children model} (tag : FitTag name attributes model)
      (fits : model.Fits (children.map Markup.name)) (all : ∀ m ∈ children, Sound m) :
      Sound (.element name attributes children)
  | void {name attributes} (tag : FitTag name attributes .empty) : Sound (.void name attributes)

theorem missingAttributes_eq_nil {tag : Tag} (h : requiredAttributes tag.name = []) :
    missingAttributes tag = [] := by
  rw [missingAttributes, h]
  rfl

theorem operandViolations_eq_nil {tag : Tag} {children : List Tag} (h : ∀ c ∈ children, c.name = "mrow") :
    operandViolations tag children.length children = [] := by
  unfold operandViolations
  simp only [↓reduceIte, List.nil_append, List.filterMap_eq_nil_iff]
  rintro ⟨child, i⟩ hmem
  exact if_pos (h child (List.fst_mem_of_mem_zipIdx hmem))

/-- Elements that follow the content model break no rule of their parent. -/
theorem ownViolations_eq_nil {tag : Tag} {children : List Node} {model : ContentModel}
    (hmodel : contentModel? tag.name = some model) (hrequired : requiredAttributes tag.name = [])
    (helements : ∀ n ∈ children, n.isElement) (hfits : model.Fits ((childTags children).map Tag.name)) :
    ownViolations tag children = [] := by
  simp only [ownViolations, hmodel, missingAttributes_eq_nil hrequired, List.map_nil, List.nil_append,
    hasText_eq_false helements]
  cases model with
  | token => exact hfits.elim
  | empty => exact hfits.elim
  | unchecked => exact hfits.elim
  | row => rfl
  | single =>
    rw [ContentModel.Fits, List.length_map] at hfits
    simp [contentViolations, textViolations, shapeViolations, hfits]
  | operands count =>
    obtain ⟨rfl, hrow⟩ := hfits
    rw [List.forall_mem_map] at hrow
    rw [List.length_map]
    exact operandViolations_eq_nil hrow
  | table =>
    rw [ContentModel.Fits, List.forall_mem_map] at hfits
    simpa [contentViolations, textViolations, shapeViolations] using hfits
  | tableRow =>
    rw [ContentModel.Fits, List.forall_mem_map] at hfits
    simpa [contentViolations, textViolations, shapeViolations] using hfits

/-- A token element around text breaks no rule. -/
theorem violations_token {tag : Tag} {children : List Node} (hmodel : contentModel? tag.name = some .token)
    (hrequired : requiredAttributes tag.name = []) (htags : childTags children = []) :
    violations (.element tag children) = [] := by
  simp [violations, ownViolations, hmodel, missingAttributes_eq_nil hrequired, contentViolations,
    tokenViolations, htags, isWalked, ContentModel.isWalked]

/-- An empty element without content breaks no rule. -/
theorem violations_empty {tag : Tag} (hmodel : contentModel? tag.name = some .empty)
    (hrequired : requiredAttributes tag.name = []) : violations (.element tag []) = [] := by
  simp [violations, ownViolations, hmodel, missingAttributes_eq_nil hrequired, contentViolations,
    hasText, childTags, isWalked, ContentModel.isWalked]

/-! ## Reading elements back -/

/-- `n` may be read of `m`: it has the name of `m` and breaks no rule. -/
def IsReading (m : Markup) (n : Node) : Prop :=
  ∃ tag children, n = .element tag children ∧ tag.name = m.name ∧ violations n = []

/-- From `p` the reader comes to where `t` is left and these elements are open. -/
def Comes (p : Xml.Progress) (t : List Char) (opened : List Frame) : Prop :=
  ∃ q : Xml.Progress, p.run = q.run ∧ q.cursor.rest = t ∧ q.opened = opened

/-- Wherever the markup is written, the innermost element gets what is read of it. -/
def ReadsBack (m : Markup) : Prop :=
  ∀ (p : Xml.Progress) (f : Frame) (outer : List Frame) (t : List Char), p.opened = f :: outer →
    p.cursor.rest = m.render ++ t → ∃ n, IsReading m n ∧ Comes p t (f.addNode n :: outer)

/-- Wherever the markup is written, the innermost element gets a node that stands in this relation to it. -/
def ReadsAs (R : Markup → Node → Prop) (m : Markup) : Prop :=
  ∀ (p : Xml.Progress) (f : Frame) (outer : List Frame) (t : List Char), p.opened = f :: outer →
    p.cursor.rest = m.render ++ t → ∃ n, R m n ∧ Comes p t (f.addNode n :: outer)

variable {R : Markup → Node → Prop} {p : Xml.Progress} {f : Frame} {outer : List Frame} {t : List Char}

theorem Comes.trans {q : Xml.Progress} {opened : List Frame} (hrun : p.run = q.run) (h : Comes q t opened) :
    Comes p t opened := by
  obtain ⟨r, hrun', hrest, hopened⟩ := h
  exact ⟨r, hrun.trans hrun', hrest, hopened⟩

/-- The head of a tag starts with a name. -/
theorem exists_renderHead {name : String} (hname : IsWord name.toList) (attributes : List (String × List Char))
    (s : List Char) : ∃ x w, Markup.renderHead name attributes ++ s = '<' :: x :: w ∧ isNameStart x = true := by
  obtain ⟨x, word, hword, hx⟩ := hname.isLocalName.start
  exact ⟨x, _, by rw [Markup.renderHead, hword]; rfl, hx⟩

/-- A start tag opens an element. -/
theorem run_of_opened {name : String} {attributes : List (String × List Char)} {model : ContentModel}
    (tag : FitTag name attributes model) (hopened : p.opened = f :: outer)
    (h : p.cursor.rest = Markup.renderHead name attributes ++ ('>' :: t)) :
    ∃ start, start.name = ⟨[], name.toList⟩ ∧ start.tag.name = name ∧
      Comes p t (⟨start, []⟩ :: f :: outer) := by
  obtain ⟨start, c, hread, hrest, hname, htag, -⟩ := readStartTag_render p.scope .opened ['>'] tag.word
    tag.attributes (by decide) ⟨'>', [], rfl, by decide⟩ (fun a c hc => readAttributes_opened a hc) h
  obtain ⟨x, w, hhead, hx⟩ := exists_renderHead tag.word attributes ('>' :: t)
  have hless : c.rest.length < p.cursor.rest.length := by
    rw [hrest, h]
    simp only [List.length_cons, List.length_append]
    omega
  refine ⟨start, hname, htag, _, run_of_startTag hx hopened (h.trans hhead) hread hless, ?_, ?_⟩
  · rw [cursor_enter, hrest]
  · simp [Xml.Progress.enter, hopened]

/-- A tag that is an element of its own adds it. -/
theorem comes_of_empty {name : String} {attributes : List (String × List Char)} {model : ContentModel}
    (tag : FitTag name attributes model) (hopened : p.opened = f :: outer)
    (h : p.cursor.rest = Markup.renderHead name attributes ++ (['/', '>'] ++ t)) :
    ∃ start : StartTag, start.tag.name = name ∧ Comes p t (f.addNode (.element start.tag []) :: outer) := by
  obtain ⟨start, c, hread, hrest, -, htag, -⟩ := readStartTag_render p.scope .empty ['/', '>'] tag.word
    tag.attributes (by decide) ⟨'/', ['>'], rfl, by decide⟩ (fun a c hc => readAttributes_empty a hc) h
  obtain ⟨x, w, hhead, hx⟩ := exists_renderHead tag.word attributes (['/', '>'] ++ t)
  have hless : c.rest.length < p.cursor.rest.length := by
    rw [hrest, h]
    simp only [List.length_cons, List.length_append]
    omega
  refine ⟨start, htag, _, run_of_startTag hx hopened (h.trans hhead) hread hless, ?_, ?_⟩
  · rw [cursor_enter, hrest]
  · simp [Xml.Progress.enter, Xml.Progress.finish, hopened, Element.toNode]

/-! ## Elements -/

/-- The markup of several elements is read element by element. -/
theorem comes_of_readsAs {ms : List Markup} (hms : ∀ m ∈ ms, ReadsAs R m)
    (hopened : p.opened = f :: outer) (h : p.cursor.rest = Markup.renderList ms ++ t) :
    ∃ ns, List.Forall₂ R ms ns ∧ Comes p t (⟨f.start, ns.reverse ++ f.children⟩ :: outer) := by
  induction ms generalizing p f with
  | nil => exact ⟨[], .nil, p, rfl, h, hopened⟩
  | cons m ms ih =>
    rw [List.forall_mem_cons] at hms
    rw [Markup.renderList, List.append_assoc] at h
    obtain ⟨n, hn, q, hrun, hrest, hopened⟩ := hms.1 p f outer _ hopened h
    obtain ⟨ns, hns, hcomes⟩ := ih hms.2 hopened hrest
    refine ⟨n :: ns, .cons hn hns, Comes.trans hrun ?_⟩
    simpa [Frame.addNode] using hcomes

theorem IsReading.isElement {m : Markup} {n : Node} (h : IsReading m n) : n.isElement := by
  obtain ⟨tag, children, rfl, -⟩ := h
  rfl

theorem isElement_of_forall₂ {ms : List Markup} {ns : List Node} (helement : ∀ m n, R m n → n.isElement)
    (h : List.Forall₂ R ms ns) : ∀ n ∈ ns, n.isElement := by
  induction h with
  | nil => simp
  | cons hn _ ih => exact List.forall_mem_cons.2 ⟨helement _ _ hn, ih⟩

theorem isElement_of_readings {ms : List Markup} {ns : List Node} (h : List.Forall₂ IsReading ms ns) :
    ∀ n ∈ ns, n.isElement := isElement_of_forall₂ (fun _ _ => IsReading.isElement) h

theorem names_of_readings {ms : List Markup} {ns : List Node} (h : List.Forall₂ IsReading ms ns) :
    (childTags ns).map Tag.name = ms.map Markup.name := by
  induction h with
  | nil => rfl
  | cons hn _ ih =>
    obtain ⟨tag, children, rfl, htag, -⟩ := hn
    simpa [childTags, htag] using ih

theorem violationsAll_of_readings {ms : List Markup} {ns : List Node} (h : List.Forall₂ IsReading ms ns) :
    violationsAll ns = [] := by
  induction h with
  | nil => rfl
  | cons hn _ ih =>
    obtain ⟨tag, children, rfl, -, hviolations⟩ := hn
    rw [violationsAll, hviolations, ih]
    rfl

/-- A closed element keeps the elements in it. -/
theorem close_of_isElement {start : StartTag} {ns : List Node} (h : ∀ n ∈ ns, n.isElement) :
    (Frame.mk start ns.reverse).close = ⟨start.tag, ns⟩ := by
  rw [Frame.close, List.reverse_reverse, List.filter_eq_self.2]
  rintro (⟨tag, children⟩ | s) hn
  · rfl
  · exact absurd (h _ hn) (by simp [Node.isElement])

theorem violations_of_readings {tag : Tag} {ms : List Markup} {ns : List Node} {model : ContentModel}
    (hmodel : contentModel? tag.name = some model) (hrequired : requiredAttributes tag.name = [])
    (hfits : model.Fits (ms.map Markup.name)) (h : List.Forall₂ IsReading ms ns) :
    violations (.element tag ns) = [] := by
  rw [← names_of_readings h] at hfits
  rw [violations, ownViolations_eq_nil hmodel hrequired (isElement_of_readings h) hfits,
    violationsAll_of_readings h]
  simp

/-- The children of an element and its end tag are read, and the element is added. -/
theorem comes_of_children {name : String} {ns : List Node} {start : StartTag}
    (hname : IsWord name.toList) (hstart : start.name = ⟨[], name.toList⟩) (hns : ∀ n ∈ ns, n.isElement)
    (h : Comes p ('<' :: '/' :: (name.toList ++ '>' :: t)) (⟨start, ns.reverse⟩ :: f :: outer)) :
    Comes p t (f.addNode (.element start.tag ns) :: outer) := by
  obtain ⟨q, hrun, hrest, hopened⟩ := h
  obtain ⟨c, hc, hend⟩ := run_of_endTag hname.isLocalName hopened hstart hrest
  rw [close_of_isElement hns] at hend
  exact ⟨_, hrun.trans hend, hc, rfl⟩

/-- An element around other ones is read with what is read of these. -/
theorem comes_of_element {name : String} {attributes : List (String × List Char)} {ms : List Markup}
    {model : ContentModel} (tag : FitTag name attributes model) (hms : ∀ m ∈ ms, ReadsAs R m)
    (helement : ∀ m n, R m n → n.isElement) (hopened : p.opened = f :: outer)
    (h : p.cursor.rest = (Markup.element name attributes ms).render ++ t) :
    ∃ (start : StartTag) (ns : List Node), start.tag.name = name ∧ List.Forall₂ R ms ns ∧
      Comes p t (f.addNode (.element start.tag ns) :: outer) := by
  obtain ⟨start, hname, htag, q, hrun, hrest, hopened⟩ := run_of_opened (t := Markup.renderList ms ++
    '<' :: '/' :: (name.toList ++ '>' :: t)) tag hopened (by rw [h, Markup.render]; simp)
  obtain ⟨ns, hns, hcomes⟩ := comes_of_readsAs hms hopened hrest
  rw [List.append_nil] at hcomes
  have hall := isElement_of_forall₂ helement hns
  exact ⟨start, ns, htag, hns, comes_of_children tag.word hname hall (Comes.trans hrun hcomes)⟩

/-- A token element is read with its text, as far as that is not blank; an empty text leaves nothing to
read. -/
theorem comes_of_token {name : String} {attributes : List (String × List Char)} {s : List Char}
    {model : ContentModel} (tag : FitTag name attributes model) (hs : IsAdmitted s) (hopened : p.opened = f :: outer)
    (h : p.cursor.rest = (Markup.element name attributes [.text s]).render ++ t) :
    ∃ (start : StartTag) (texts : List (List Char)), start.tag.name = name ∧
      (s = [] ∧ texts = [] ∨ ∃ place text, characterData place (escapeText s) = .ok text ∧ texts = [text]) ∧
      Comes p t (f.addNode (.element start.tag ((texts.map .text).filter fun n => !n.isBlankText)) :: outer) := by
  obtain ⟨start, hname, htag, q, hrun, hrest, hopened⟩ := run_of_opened (t := escapeText s ++
    '<' :: '/' :: (name.toList ++ '>' :: t)) tag hopened
    (by rw [h, Markup.render]; simp [Markup.renderList, Markup.render])
  obtain ⟨texts, htexts, hcomes⟩ : ∃ texts : List (List Char),
      (s = [] ∧ texts = [] ∨ ∃ place text, characterData place (escapeText s) = .ok text ∧ texts = [text]) ∧
      Comes q ('<' :: '/' :: (name.toList ++ '>' :: t)) (⟨start, texts.map .text⟩ :: f :: outer) := by
    by_cases hne : s = []
    · subst hne
      exact ⟨[], Or.inl ⟨rfl, rfl⟩, q, rfl, hrest, hopened⟩
    · obtain ⟨c, text, hc, hdata, hrun⟩ := run_of_text hs hne hopened hrest
      refine ⟨[text], Or.inr ⟨_, text, hdata, rfl⟩, _, hrun, hc, ?_⟩
      simp [Xml.Progress.addText, Frame.addText]
  obtain ⟨q', hrun', hrest', hopened'⟩ := hcomes
  obtain ⟨c, hc, hend⟩ := run_of_endTag tag.word.isLocalName hopened' hname hrest'
  have hreverse : (texts.map Node.text).reverse = texts.map .text := by
    rcases htexts with ⟨-, rfl⟩ | ⟨-, text, -, rfl⟩ <;> rfl
  refine ⟨start, texts, htag, htexts, _, (hrun.trans hrun').trans hend, hc, ?_⟩
  rw [Frame.close, hreverse]
  rfl

/-- **Sound markup is read back** as an element that breaks no rule. -/
theorem readsBack_of_sound {m : Markup} (hm : m.Sound) : ReadsBack m := by
  induction hm with
  | @void name attributes tag =>
    intro p f outer t hopened h
    rw [Markup.render, List.append_assoc] at h
    obtain ⟨start, htag, hcomes⟩ := comes_of_empty tag hopened h
    refine ⟨_, ⟨start.tag, [], rfl, htag, ?_⟩, hcomes⟩
    exact violations_empty (htag ▸ tag.model) (htag ▸ tag.required)
  | @element name attributes ms model tag hfits _ ih =>
    intro p f outer t hopened h
    obtain ⟨start, ns, htag, hns, hcomes⟩ := comes_of_element (R := IsReading) tag ih
      (fun _ _ => IsReading.isElement) hopened h
    refine ⟨_, ⟨start.tag, ns, rfl, htag, ?_⟩, hcomes⟩
    exact violations_of_readings (htag ▸ tag.model) (htag ▸ tag.required) hfits hns
  | @token name attributes s tag hs =>
    intro p f outer t hopened h
    obtain ⟨start, texts, htag, -, hcomes⟩ := comes_of_token tag hs hopened h
    refine ⟨_, ⟨start.tag, _, rfl, htag, ?_⟩, hcomes⟩
    refine violations_token (htag ▸ tag.model) (htag ▸ tag.required) ?_
    rw [childTags, List.filterMap_eq_nil_iff]
    intro n hn
    obtain ⟨text, -, rfl⟩ := List.mem_map.1 (List.mem_filter.1 hn).1
    rfl

end MathMarkup.MathML
